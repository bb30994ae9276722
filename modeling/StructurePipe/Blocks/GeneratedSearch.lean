import StructurePipe.Blocks.BuildStructures
import StructurePipe.Blocks.SearchRuns
import StructurePipe.Common.PipeFunctions
import StructurePipe.Lib.GroupedFolds

/-!
# Building structures of every stoichiometry

What a search is for: its sub-pipe starts with a `BuildStructures` block, which asks the generator for
structures with the numbers of atoms that the search has put into the generation settings.

A structure is named as soon as it is kept: the name is drawn from the same random numbers as the
structure, and the number of the slot is put behind it.

* `Accounted.turn` — a slot is filled with a structure that the generator has returned, or stays empty;
* `names_nodup` — no two structures of one run have the same name, whatever names are drawn;
* `search_generates` — **so many structures of every stoichiometry, and no others.**
-/

namespace StructurePipe.Blocks

open StepRuns OrderedMap Common

/-! ### One run of the block -/

namespace BuildStructures

variable {γ ω : Type*}

/-- Every slot is filled, whatever the random numbers are. -/
def Patient (gen : StructureGenerator γ ω) (maxAttempts : ℕ) : Prop :=
  ∀ rng, (attempt gen maxAttempts rng).1.isSome = true

/-- What is sent has been returned by the generator, at most one structure for each slot. -/
structure Accounted (b : BuildStructures) (gen : StructureGenerator γ ω) (s : Progress γ ω) : Prop where
  returned : ∀ e ∈ s.sent, gen.getNumAtoms e.2 ≠ 0 ∧
    ∃ rng rng', gen.generateStructure rng = (some e.2, rng')
  length_le : s.sent.length ≤ s.i
  length_eq : Patient gen b.myMaxAttempts → s.sent.length = s.i

/-- A structure that ends the attempts was returned by the generator and is not empty. -/
theorem returned_of_attempt {gen : StructureGenerator γ ω} {attempts : ℕ} {rng rng' : ω} {str : γ}
    (h : attempt gen attempts rng = (some str, rng')) :
    gen.getNumAtoms str ≠ 0 ∧ ∃ rng₁ rng₂, gen.generateStructure rng₁ = (some str, rng₂) := by
  induction attempts generalizing rng with
  | zero => exact absurd (congrArg Prod.fst h) (by simp [attempt])
  | succ attempts ih =>
      rw [attempt] at h
      cases hgen : gen.generateStructure rng with
      | mk result rng₂ =>
          rw [hgen] at h
          cases result with
          | none => exact ih h
          | some str' =>
              by_cases hatoms : gen.getNumAtoms str' ≠ 0
              · simp only [hatoms, ne_eq, not_false_eq_true, if_true] at h
                obtain rfl : str' = str := Option.some.inj (congrArg Prod.fst h)
                exact ⟨hatoms, rng, rng₂, hgen⟩
              · simp only [hatoms, if_false] at h
                exact ih h

theorem Accounted.init (b : BuildStructures) (gen : StructureGenerator γ ω) (rng : ω) :
    Accounted b gen (b.init rng) where
  returned := by simp [BuildStructures.init]
  length_le := Nat.zero_le _
  length_eq _ := rfl

/-- **One slot.** -/
theorem Accounted.turn {b : BuildStructures} {gen : StructureGenerator γ ω} {s s' : Progress γ ω}
    (h : Accounted b gen s) (hturn : b.turn gen s () = some s') : Accounted b gen s' := by
  rw [BuildStructures.turn] at hturn
  split at hturn
  · cases hattempt : attempt gen b.myMaxAttempts s.rng with
    | mk result rng =>
        rw [hattempt] at hturn
        cases result with
        | none =>
            obtain rfl := Option.some.inj hturn
            refine ⟨h.returned, h.length_le.trans (Nat.le_succ _), fun hpatient => ?_⟩
            have hsome := hpatient s.rng
            rw [hattempt] at hsome
            exact absurd hsome (by simp)
        | some str =>
            -- the new structure, whichever number of slots there is then
            have hsent : ∀ t : Progress γ ω, t.sent = s.sent ++ [(s.i, str)] → t.i = s.i + 1 →
                Accounted b gen t := by
              intro t hts hti
              refine ⟨fun e he => ?_, ?_, fun hpatient => ?_⟩
              · rw [hts] at he
                rcases List.mem_append.mp he with he | he
                · exact h.returned e he
                · rw [List.mem_singleton.mp he]
                  exact returned_of_attempt hattempt
              · rw [hts, hti, List.length_append]
                exact Nat.succ_le_succ h.length_le
              · rw [hts, hti, List.length_append, h.length_eq hpatient]
                rfl
            dsimp only at hturn
            split at hturn
            · obtain rfl := Option.some.inj hturn
              exact hsent _ rfl rfl
            · obtain ⟨num, _, rfl⟩ := Option.map_eq_some_iff.mp hturn
              exact hsent _ rfl rfl
  · rwa [← Option.some.inj hturn]

/-- `start`, given a number of structures. -/
def start (numToGenerate : ℤ) (gen : StructureGenerator γ ω) (rng : ω) : Option (Progress γ ω) :=
  run ((ofNumber numToGenerate).turn gen) ((ofNumber numToGenerate).init rng)
    (List.replicate numToGenerate.toNat ())

/-- **A whole run**: the loop has ended with all slots passed. -/
theorem exists_start (numToGenerate : ℤ) (gen : StructureGenerator γ ω) (rng : ω) :
    ∃ s, start numToGenerate gen rng = some s ∧ s.i = numToGenerate.toNat ∧ Numbered s ∧
      Accounted (ofNumber numToGenerate) gen s := by
  have hrun : ∃ s, start numToGenerate gen rng = some s ∧ s.i = numToGenerate.toNat := by
    rcases le_or_gt 0 numToGenerate with hnonneg | hneg
    · obtain ⟨n, rfl⟩ := Int.eq_ofNat_of_zero_le hnonneg
      obtain ⟨s, hs, hi, _⟩ : ∃ s : Progress γ ω, start n gen rng = some s ∧ s.i = n ∧
          s.numToGenerate = n := run_ofNumber n rng n le_rfl
      exact ⟨s, hs, hi⟩
    · have hnone : numToGenerate.toNat = 0 := Int.toNat_of_nonpos hneg.le
      refine ⟨(ofNumber numToGenerate).init rng, ?_, hnone.symm⟩
      rw [start, hnone]
      rfl
  obtain ⟨s, hs, hi⟩ := hrun
  refine ⟨s, hs, hi, ?_, ?_⟩
  · exact run_invariant Numbered (fun _ => True) (fun _ _ _ h _ hturn => h.turn hturn)
      (Numbered.init _ rng) (fun _ _ => trivial) hs
  · exact run_invariant (Accounted (ofNumber numToGenerate) gen) (fun _ => True)
      (fun _ _ _ h _ hturn => h.turn hturn) (Accounted.init _ gen rng) (fun _ _ => trivial) hs

/-! ### Names -/

section Names

variable (generateUniqueName : ω → Str × ω) (seedName : Str)

/-- The generator, and the name for a structure that is kept, up to the number of its slot. -/
def named (gen : StructureGenerator γ ω) : StructureGenerator (NamedStructure γ) ω where
  generateStructure rng :=
    match gen.generateStructure rng with
    | (none, rng) => (none, rng)
    | (some str, rng) =>
        if gen.getNumAtoms str ≠ 0 then
          let (name, rng) := Common.generateStructureName generateUniqueName seedName rng
          (some ⟨name, str⟩, rng)
        else (some ⟨[], str⟩, rng)
  getNumAtoms str := gen.getNumAtoms str.rest

/-- The number of the slot comes behind the name. -/
def generateStructureName (e : ℕ × NamedStructure γ) : NamedStructure γ :=
  { e.2 with name := e.2.name ++ '-' :: decimal e.1 }

/-- The block at the head of a pipe with nothing behind it.  The generator is handed the generation
settings of the global data, if there are any. -/
def building (numToGenerate : ℤ) (generate : Option GenerationSettings → StructureGenerator γ ω)
    (rng : ω) (_workingDir : Path) (globalData : GlobalData) :
    List (NamedStructure γ) × ω × GlobalData :=
  match start numToGenerate
      (named generateUniqueName seedName (generate globalData.generationSettings)) rng with
  | none => ([], rng, globalData)
  | some s => (s.sent.map generateStructureName, s.rng, globalData)

variable {generateUniqueName seedName}

theorem returned_of_named {gen : StructureGenerator γ ω} {rng rng' : ω} {str : NamedStructure γ}
    (h : (named generateUniqueName seedName gen).generateStructure rng = (some str, rng')) :
    ∃ rng₂, gen.generateStructure rng = (some str.rest, rng₂) := by
  simp only [named] at h
  cases hgen : gen.generateStructure rng with
  | mk result rng₂ =>
      rw [hgen] at h
      cases result with
      | none => exact absurd (congrArg Prod.fst h) (by simp)
      | some str' =>
          refine ⟨rng₂, ?_⟩
          dsimp only at h
          split at h
          · rw [← Option.some.inj (congrArg Prod.fst h)]
          · rw [← Option.some.inj (congrArg Prod.fst h)]

/-- Giving names takes no attempts. -/
theorem Patient.named {gen : StructureGenerator γ ω} {attempts : ℕ} (h : Patient gen attempts) :
    Patient (named generateUniqueName seedName gen) attempts := by
  have hattempt : ∀ attempts rng, (attempt gen attempts rng).1.isSome = true →
      (attempt (BuildStructures.named generateUniqueName seedName gen) attempts rng).1.isSome
        = true := by
    intro attempts
    induction attempts with
    | zero => exact fun rng hsome => absurd hsome (by simp [attempt])
    | succ attempts ih =>
        intro rng hsome
        rw [attempt] at hsome ⊢
        cases hgen : gen.generateStructure rng with
        | mk result rng₂ =>
            simp only [BuildStructures.named, hgen] at hsome ⊢
            cases result with
            | none => exact ih rng₂ hsome
            | some str =>
                by_cases hatoms : gen.getNumAtoms str ≠ 0
                · simp [hatoms]
                · simp only [hatoms, if_false] at hsome ⊢
                  exact ih rng₂ hsome
  exact fun rng => hattempt attempts rng (h rng)

/-- The number can be read off the name. -/
theorem number_of_name {base base' : Str} {i j : ℕ}
    (h : base ++ '-' :: decimal i = base' ++ '-' :: decimal j) : i = j := by
  have hdash : ∀ n : ℕ, '-' ∉ decimal n := fun n hmem =>
    absurd (isDigit_of_mem_decimal hmem) (by decide)
  have hinner : ∀ {c : Str} {m n : ℕ}, '-' :: decimal m = c ++ '-' :: decimal n → m = n := by
    intro c m n heq
    cases c with
    | nil => exact decimal_injective (List.cons.inj heq).2
    | cons first c =>
        refine absurd ?_ (hdash m)
        rw [(List.cons.inj heq).2]
        simp
  rcases List.append_eq_append_iff.mp h with ⟨c, _, heq⟩ | ⟨c, _, heq⟩
  · exact hinner heq
  · exact (hinner heq).symm

/-- **No two structures of one run have the same name.** -/
theorem names_nodup {s : Progress (NamedStructure γ) ω} (h : Numbered s) :
    ((s.sent.map generateStructureName).map NamedStructure.name).Nodup := by
  rw [List.map_map]
  refine List.pairwise_map.mpr ((List.pairwise_map.mp h.ascending).imp fun hlt hname => ?_)
  exact hlt.ne (number_of_name hname)

end Names

/-- **What the sub-pipe finishes.** -/
theorem building_spec (generateUniqueName : ω → Str × ω) (seedName : Str) (numToGenerate : ℤ)
    (generate : Option GenerationSettings → StructureGenerator γ ω) (rng : ω) (workingDir : Path)
    (globalData : GlobalData) :
    let finished :=
      (building generateUniqueName seedName numToGenerate generate rng workingDir globalData).1
    (finished.map NamedStructure.name).Nodup ∧ finished.length ≤ numToGenerate.toNat ∧
      (Patient (generate globalData.generationSettings) DEFAULT_MAX_ATTEMPTS →
        finished.length = numToGenerate.toNat) ∧
      ∀ x ∈ finished, (generate globalData.generationSettings).getNumAtoms x.rest ≠ 0 ∧
        ∃ rng rng', (generate globalData.generationSettings).generateStructure rng
          = (some x.rest, rng') := by
  obtain ⟨s, hs, hi, hnumbered, haccounted⟩ := exists_start numToGenerate
    (named generateUniqueName seedName (generate globalData.generationSettings)) rng
  simp only [building, hs]
  refine ⟨names_nodup hnumbered, ?_, fun hpatient => ?_, fun x hx => ?_⟩
  · rw [List.length_map, ← hi]
    exact haccounted.length_le
  · rw [List.length_map, ← hi]
    exact haccounted.length_eq hpatient.named
  · obtain ⟨e, he, rfl⟩ := List.mem_map.mp hx
    obtain ⟨hatoms, rng₁, rng₂, hreturned⟩ := haccounted.returned e he
    obtain ⟨rng₃, hgen⟩ := returned_of_named hreturned
    exact ⟨hatoms, rng₁, rng₃, hgen⟩

end BuildStructures

/-! ### Every stoichiometry -/

section Search

variable {γ ρ ε ω : Type*}

/-- The numbers of atoms of a structure, one for each species of the search. -/
def SearchOptions.stoichiometry (o : SearchOptions) (numOf : γ → Str → ℕ) (x : NamedStructure γ) :
    List ℕ :=
  o.atomRanges.map fun range => numOf x.rest range.1

/-- A generator that builds what the settings ask for, if it builds anything. -/
def Obliging (numOf : γ → Str → ℕ) (generate : Option GenerationSettings → StructureGenerator γ ω) :
    Prop :=
  ∀ settings rng str rng', (generate (some settings)).generateStructure rng = (some str, rng') →
    (generate (some settings)).getNumAtoms str ≠ 0 →
    ∀ label n, find label settings.atomsSettings = some n → numOf str label = n

/-- Settings that hold a stoichiometry ask for it. -/
theorem stoichiometry_eq {o : SearchOptions} {numOf : γ → Str → ℕ} {x : NamedStructure γ}
    {idx : List ℕ} (hlength : idx.length = o.atomRanges.length)
    (h : ∀ label n, (label, n) ∈ (o.atomRanges.map Prod.fst).zip idx → numOf x.rest label = n) :
    o.stoichiometry numOf x = idx := by
  have hall : List.Forall₂ (fun label n => numOf x.rest label = n) (o.atomRanges.map Prod.fst) idx :=
    List.forall₂_iff_zip.mpr ⟨by simp [hlength], fun hmem => h _ _ hmem⟩
  have hmap := List.forall₂_map_left_iff.mpr hall
  rw [List.forall₂_eq_eq_eq] at hmap
  rw [SearchOptions.stoichiometry, ← hmap, List.map_map]
  rfl

/-- **So many structures of every stoichiometry, and no others.**  The sub-pipe of a search is a
`BuildStructures` block with a fixed number of slots, and its generator builds what the generation
settings ask for, where it builds anything.  Then every structure that the search sends out has a
stoichiometry of the box with a total from one to the limit; and for each of these stoichiometries the
structures of it that are sent out have different names, are no more than there are slots, and exactly
as many if the generator, when asked for it, never fails as often as a slot has attempts. -/
theorem search_generates (search : SearchStoichiometries (NamedStructure γ) ρ ε ω)
    (generateUniqueName : ω → Str × ω) (seedName : Str) (numToGenerate : ℤ)
    (generate : Option GenerationSettings → StructureGenerator γ ω)
    (hsubpipe : search.subpipe
      = BuildStructures.building generateUniqueName seedName numToGenerate generate)
    (hbounded : search.myOptions.Bounded) {numOf : γ → Str → ℕ} (hobliging : Obliging numOf generate)
    {s : Sweep (NamedStructure γ) ω} (hbuffer : s.myBuffer = []) :
    (∀ x ∈ search.sent s, ∃ idx, search.myOptions.stoichiometry numOf x = idx ∧
      search.myOptions.InBox idx ∧ 0 < idx.sum ∧ idx.sum ≤ search.myOptions.maxAtoms) ∧
    ∀ idx, search.myOptions.InBox idx → 0 < idx.sum → idx.sum ≤ search.myOptions.maxAtoms →
      let ofIdx :=
        (search.sent s).filter fun x => search.myOptions.stoichiometry numOf x = idx
      (ofIdx.map NamedStructure.name).Nodup ∧ ofIdx.length ≤ numToGenerate.toNat ∧
        (BuildStructures.Patient (generate (some (search.myOptions.generationSettings idx)))
          BuildStructures.DEFAULT_MAX_ATTEMPTS → ofIdx.length = numToGenerate.toNat) := by
  obtain ⟨visits, hruns, hsent, hstates⟩ := search.exists_visits_from hbounded (P := fun _ => True)
    (fun _ _ _ _ => trivial) hbuffer trivial
  rw [hsent]
  -- one run of the sub-pipe
  have hvisit : ∀ visit ∈ visits, (visit.2.finished.map NamedStructure.name).Nodup ∧
      visit.2.finished.length ≤ numToGenerate.toNat ∧
      (BuildStructures.Patient (generate (some (search.myOptions.generationSettings visit.1)))
        BuildStructures.DEFAULT_MAX_ATTEMPTS → visit.2.finished.length = numToGenerate.toNat) ∧
      ∀ x ∈ visit.2.finished, search.myOptions.stoichiometry numOf x = visit.1 := by
    intro visit hmem
    obtain ⟨rng, _, hfinished⟩ := hstates visit hmem
    obtain ⟨hnames, hle, hpatient, hreturned⟩ := BuildStructures.building_spec generateUniqueName
      seedName numToGenerate generate rng visit.2.workingDir visit.2.found
    rw [← hsubpipe, ← hfinished] at hnames hle hpatient hreturned
    rw [hruns.found visit hmem] at hpatient hreturned
    refine ⟨hnames, hle, hpatient, fun x hx => ?_⟩
    obtain ⟨hatoms, rng₁, rng₂, hgen⟩ := hreturned x hx
    exact stoichiometry_eq (hruns.inBox search hmem).length_eq fun label n hlabel =>
      hobliging _ rng₁ x.rest rng₂ hgen hatoms label n ((hruns.find_iff search hmem label n).mpr hlabel)
  refine ⟨fun x hx => ?_, fun idx hbox hpos hmax => ?_⟩
  · obtain ⟨visit, hmem, hx⟩ := List.mem_flatMap.mp hx
    exact ⟨visit.1, (hvisit visit hmem).2.2.2 x hx,
      (hruns.complete visit.1).mp (List.mem_map_of_mem hmem)⟩
  · obtain ⟨visit, hmem, rfl⟩ := List.mem_map.mp ((hruns.complete idx).mpr ⟨hbox, hpos, hmax⟩)
    have hgroup := GroupedFolds.filter_flatMap_of_nodup hruns.nodup
      (fun visit hvis x hx => (hvisit visit hvis).2.2.2 x hx) hmem
    dsimp only
    rw [hgroup]
    obtain ⟨hnames, hle, hpatient, _⟩ := hvisit visit hmem
    exact ⟨hnames, hle, hpatient⟩

end Search

/-- A structure that is what was asked for; every other attempt fails. -/
def everyOther (settings : Option GenerationSettings) : StructureGenerator GenerationSettings ℕ where
  generateStructure rng := (if rng % 2 = 0 then none else settings, rng + 1)
  getNumAtoms str := (str.atomsSettings.map Prod.snd).sum

theorem patient_everyOther {settings : GenerationSettings}
    (h : (settings.atomsSettings.map Prod.snd).sum ≠ 0) (attempts : ℕ) :
    BuildStructures.Patient (everyOther (some settings)) (attempts + 2) := by
  intro rng
  rcases Nat.mod_two_eq_zero_or_one rng with heven | hodd
  · have hnext : (rng + 1) % 2 = 1 := by omega
    simp [BuildStructures.attempt, everyOther, heven, hnext, h]
  · simp [BuildStructures.attempt, everyOther, hodd, h]

/-- A search over one species with one or two atoms and two structures of each. -/
def twoOfEach : SearchStoichiometries (NamedStructure GenerationSettings) Path ℕ ℕ where
  myOptions := { atomRanges := [(['C'], ⟨1, 2⟩)], ordered := List.pairwise_singleton _ _ }
  library :=
    { lastAbsFilePath := fun _ => none
      spacegroupNumber := fun _ => none
      energyInternal := fun _ => none
      numAtoms := fun x => (x.rest.atomsSettings.map Prod.snd).sum
      noLocator := []
      isEmpty := fun locator => locator.isEmpty
      locatorString := fun locator => locator
      path := fun locator => locator
      setPath := fun _ path => path
      makeRelative := fun _ path => path
      energyPerAtom := fun _ _ => [] }
  multiIdxRange := boxRange
  isAbsolute path := path.head? == some '/'
  sharedWorkingDir := []
  subpipe := BuildStructures.building (fun rng => (['x'], rng)) ['s'] 2 everyOther

/-- The name that is drawn is always the same. -/
theorem search_generates_at :
    let numOf := fun (str : GenerationSettings) label => (find label str.atomsSettings).getD 0
    let sent := twoOfEach.sent ⟨⟨[], none⟩, 0, []⟩
    sent.map (fun x => (String.ofList x.name, twoOfEach.myOptions.stoichiometry numOf x))
      = [("s-x-0", [1]), ("s-x-1", [1]), ("s-x-0", [2]), ("s-x-1", [2])] ∧
    (sent.filter fun x => twoOfEach.myOptions.stoichiometry numOf x = [2]).length = 2 := by
  intro numOf sent
  have hobliging : Obliging numOf everyOther := by
    intro settings rng str rng' hgen _ label n hfind
    have hstr : str = settings := by
      by_cases heven : rng % 2 = 0
      · simp [everyOther, heven] at hgen
      · simp only [everyOther, heven, if_false, Prod.mk.injEq, Option.some.injEq] at hgen
        exact hgen.1.symm
    rw [hstr]
    simp only [numOf, hfind, Option.getD_some]
  have hpatient : BuildStructures.Patient
      (everyOther (some (twoOfEach.myOptions.generationSettings [2])))
      BuildStructures.DEFAULT_MAX_ATTEMPTS := by
    refine patient_everyOther ?_ 998
    decide
  refine ⟨by decide +kernel, ?_⟩
  exact ((search_generates twoOfEach (fun rng => (['x'], rng)) ['s'] 2 everyOther rfl
    ⟨by simp [twoOfEach], by simp [twoOfEach]⟩ hobliging rfl).2 [2]
      (.cons ⟨by decide, by decide⟩ .nil) (by decide) (by decide)).2.2 hpatient

end StructurePipe.Blocks
