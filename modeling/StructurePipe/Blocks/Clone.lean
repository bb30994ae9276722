import StructurePipe.Blocks.WriteThenLoad
import StructurePipe.Lib.NameSupply

/-!
# Cloning structures

`Clone` sends out copies of a structure and last the structure itself, and gives each of them a new
name if it is told to.  A structure that is sent out goes all the way down the pipe before the next copy
is made; `Outlet` is what happens to it there.

If `WriteStructures` writes to separate files, structures of one name end up in one file, of which the
last one is left.

* `Emits.input` — **what a block adds to what happens downstream;**
* `clones_written_apart` — **clones with names of their own are all kept.**
-/

namespace StructurePipe.Blocks

open StructurePipe.Common NameSupply

/-- What happens to a structure that is sent out: the structures that come out at the end, and the state
of the run. -/
abbrev Outlet (γ τ : Type*) := NamedStructure γ → τ → List (NamedStructure γ) × τ

/-- The block; the default is that of the constructor with one argument. -/
structure Clone where
  myTimes : ℤ
  myGiveUniqueNames : Bool := true
deriving DecidableEq, Repr

namespace Clone

variable {γ ρ σ : Type*}

section Functions

variable (generateUniqueName : ρ → Str × ρ) (seedName : Str) (b : Clone)

def prepStructure (structure_ : NamedStructure γ) (state : ρ × σ) : NamedStructure γ × ρ × σ :=
  if b.myGiveUniqueNames then
    let (name, rng) := generateStructureName generateUniqueName seedName state.1
    ({ structure_ with name := name }, rng, state.2)
  else (structure_, state)

/-- A structure is prepared and sent out. -/
def prepAndOut (out : Outlet γ (ρ × σ)) : Outlet γ (ρ × σ) := fun structure_ state =>
  let (structure_, state) := b.prepStructure generateUniqueName seedName structure_ state
  out structure_ state

/-- The loop of `in`, with the number of copies left. -/
def outClones (out : Outlet γ (ρ × σ)) : ℕ → Outlet γ (ρ × σ)
  | 0, _, state => ([], state)
  | n + 1, structure_, state =>
      let (sent, state) := b.prepAndOut generateUniqueName seedName out structure_ state
      let (more, state) := outClones out n structure_ state
      (sent ++ more, state)

/-- `in`: the copies, and then the structure. -/
def input (out : Outlet γ (ρ × σ)) : Outlet γ (ρ × σ) := fun structure_ state =>
  let (clones, state) :=
    b.outClones generateUniqueName seedName out (b.myTimes - 1).toNat structure_ state
  let (last, state) := b.prepAndOut generateUniqueName seedName out structure_ state
  (clones ++ last, state)

/-- A pipe of such blocks in front of an outlet. -/
def pipe (blocks : List Clone) (out : Outlet γ (ρ × σ)) : Outlet γ (ρ × σ) :=
  blocks.foldr (fun b out => b.input generateUniqueName seedName out) out

/-- Several structures that come in, one after the other. -/
def inputAll (out : Outlet γ (ρ × σ)) (structures : List (NamedStructure γ)) (state : ρ × σ) :
    List (NamedStructure γ) × ρ × σ :=
  match structures with
  | [] => ([], state)
  | structure_ :: structures =>
      let (sent, state) := out structure_ state
      let (more, state) := inputAll out structures state
      (sent ++ more, state)

end Functions

/-- How many structures are sent out for one that comes in. -/
def width (b : Clone) : ℕ := (b.myTimes - 1).toNat + 1

end Clone

/-- `WriteStructures` as the last block of a pipe. -/
def WriteStructures.outlet {γ ρ σ : Type*} (D : StructureDisk γ σ) (b : WriteStructures)
    (engine : WriteStructuresEngine ρ) : Outlet γ (ρ × σ) := fun structure_ state =>
  let (structure_, saveLocation, rng) := b.input engine structure_ state.1
  match saveLocation with
  | none => ([structure_], rng, state.2)
  | some saveLocation => ([structure_], rng, D.writeStructure structure_ saveLocation state.2)

namespace Clone

open WriteStructures

variable {γ ρ σ : Type*}

/-- The name that is made of a unique name. -/
def structureName (seedName uniqueName : Str) : Str :=
  (if seedName.isEmpty then seedName else seedName ++ ['-']) ++ uniqueName

theorem structureName_injective (seedName : Str) : Function.Injective (structureName seedName) :=
  fun _ _ h => List.append_cancel_left h

section Emits

variable (D : StructureDisk γ σ) (w : WriteStructures) (engine : WriteStructuresEngine ρ)
  (writer : StructureWriter)

/-- What happens to a structure: so many copies of it come out, with names drawn one after the other,
and these are written and nothing else. -/
def Emits (width : ℕ) (out : Outlet γ (ρ × σ)) : Prop :=
  ∀ structure_ rng disk, ∃ sent names rng',
    out structure_ (rng, disk) = (sent, rng', written D w engine writer sent disk) ∧
    sent.map NamedStructure.rest = List.replicate width structure_.rest ∧
    Drawn engine.generateUniqueName rng rng' names ∧
    sent.map NamedStructure.name = names.map (structureName engine.seedName)

variable {D w engine writer}

theorem written_append (xs ys : List (NamedStructure γ)) (disk : σ) :
    written D w engine writer (xs ++ ys) disk
      = written D w engine writer ys (written D w engine writer xs disk) :=
  List.foldl_append

/-- Preparing a structure changes nothing that comes out but the names. -/
theorem Emits.prepAndOut {width : ℕ} {out : Outlet γ (ρ × σ)}
    (h : Emits D w engine writer width out) (b : Clone) :
    Emits D w engine writer width
      (b.prepAndOut engine.generateUniqueName engine.seedName out) := by
  intro structure_ rng disk
  by_cases hnames : b.myGiveUniqueNames
  · obtain ⟨sent, names, rng', hout, hrest, hdrawn, hname⟩ :=
      h { structure_ with name := structureName engine.seedName (engine.generateUniqueName rng).1 }
        (engine.generateUniqueName rng).2 disk
    refine ⟨sent, names, rng', ?_, hrest, (Drawn.skip rng).append hdrawn, hname⟩
    rw [Clone.prepAndOut, prepStructure, if_pos hnames]
    exact hout
  · obtain ⟨sent, names, rng', hout, hall⟩ := h structure_ rng disk
    refine ⟨sent, names, rng', ?_, hall⟩
    rw [Clone.prepAndOut, prepStructure, if_neg hnames]
    exact hout

/-- The last block of a pipe gives each structure the name under which it is written. -/
theorem emits_prepAndOut_outlet (hused : w.usedWriter engine = some writer) {b : Clone}
    (hnames : b.myGiveUniqueNames = true) (hne : ∀ rng, (engine.generateUniqueName rng).1 ≠ []) :
    Emits (γ := γ) D w engine writer 1
      (b.prepAndOut engine.generateUniqueName engine.seedName (w.outlet D engine)) := by
  intro structure_ rng disk
  let named : NamedStructure γ :=
    { structure_ with name := structureName engine.seedName (engine.generateUniqueName rng).1 }
  have hnamed : named.name ≠ [] := List.append_ne_nil_of_right_ne_nil _ (hne rng)
  refine ⟨[named], [(engine.generateUniqueName rng).1], (engine.generateUniqueName rng).2, ?_, rfl,
    Drawn.single rng, rfl⟩
  rw [Clone.prepAndOut, prepStructure, if_pos hnames]
  show w.outlet D engine named ((engine.generateUniqueName rng).2, disk) = _
  rw [outlet, input_of_used hused, generateLocator_of_named w engine writer hnamed]
  rfl

/-- Two things that happen to a structure, one after the other. -/
theorem Emits.both {width width' : ℕ} {out out' : Outlet γ (ρ × σ)}
    (h : Emits D w engine writer width out) (h' : Emits D w engine writer width' out') :
    Emits D w engine writer (width + width') fun structure_ state =>
      let (sent, state) := out structure_ state
      let (more, state) := out' structure_ state
      (sent ++ more, state) := by
  intro structure_ rng disk
  obtain ⟨sent, names, rng', hout, hrest, hdrawn, hname⟩ := h structure_ rng disk
  obtain ⟨sent', names', rng'', hout', hrest', hdrawn', hname'⟩ :=
    h' structure_ rng' (written D w engine writer sent disk)
  refine ⟨sent ++ sent', names ++ names', rng'', ?_, ?_, hdrawn.append hdrawn', ?_⟩
  · simp only [hout, hout', written_append]
  · rw [List.map_append, hrest, hrest', List.replicate_add]
  · rw [List.map_append, List.map_append, hname, hname']

/-- The loop. -/
theorem Emits.outClones {width : ℕ} {out : Outlet γ (ρ × σ)} {b : Clone}
    (h : Emits D w engine writer width
      (b.prepAndOut engine.generateUniqueName engine.seedName out)) (n : ℕ) :
    Emits D w engine writer (n * width)
      (b.outClones engine.generateUniqueName engine.seedName out n) := by
  induction n with
  | zero =>
      rw [Nat.zero_mul]
      exact fun structure_ rng disk => ⟨[], [], rng, rfl, rfl, Drawn.nil rng, rfl⟩
  | succ n ih =>
      rw [Nat.add_mul, Nat.one_mul, Nat.add_comm]
      exact h.both ih

/-- **One block.** -/
theorem Emits.input {width : ℕ} {out : Outlet γ (ρ × σ)} {b : Clone}
    (h : Emits D w engine writer width
      (b.prepAndOut engine.generateUniqueName engine.seedName out)) :
    Emits D w engine writer (b.width * width)
      (b.input engine.generateUniqueName engine.seedName out) := by
  rw [Clone.width, Nat.add_mul, Nat.one_mul]
  exact (h.outClones _).both h

/-- **A pipe of blocks**, of which the last one gives unique names. -/
theorem emits_pipe (hused : w.usedWriter engine = some writer) (blocks : List Clone) {last : Clone}
    (hnames : last.myGiveUniqueNames = true) (hne : ∀ rng, (engine.generateUniqueName rng).1 ≠ []) :
    Emits (γ := γ) D w engine writer ((blocks ++ [last]).map width).prod
      (pipe engine.generateUniqueName engine.seedName (blocks ++ [last]) (w.outlet D engine)) := by
  induction blocks with
  | nil =>
      rw [List.nil_append, List.map_singleton, List.prod_singleton, ← Nat.mul_one last.width]
      exact (emits_prepAndOut_outlet hused hnames hne).input
  | cons b blocks ih =>
      rw [List.cons_append, List.map_cons, List.prod_cons]
      exact (ih.prepAndOut b).input

/-- **Several structures.** -/
theorem Emits.inputAll {width : ℕ} {out : Outlet γ (ρ × σ)} (h : Emits D w engine writer width out)
    (xs : List (NamedStructure γ)) (rng : ρ) (disk : σ) :
    ∃ sent names rng',
      Clone.inputAll out xs (rng, disk) = (sent, rng', written D w engine writer sent disk) ∧
      sent.map NamedStructure.rest
        = (xs.map NamedStructure.rest).flatMap (List.replicate width) ∧
      Drawn engine.generateUniqueName rng rng' names ∧
      sent.map NamedStructure.name = names.map (structureName engine.seedName) := by
  induction xs generalizing rng disk with
  | nil => exact ⟨[], [], rng, rfl, rfl, Drawn.nil rng, rfl⟩
  | cons x xs ih =>
      obtain ⟨sent, names, rng', hout, hrest, hdrawn, hname⟩ := h x rng disk
      obtain ⟨sent', names', rng'', hout', hrest', hdrawn', hname'⟩ :=
        ih rng' (written D w engine writer sent disk)
      refine ⟨sent ++ sent', names ++ names', rng'', ?_, ?_, hdrawn.append hdrawn', ?_⟩
      · simp only [Clone.inputAll, hout, hout', written_append]
      · rw [List.map_append, hrest, hrest', List.map_cons, List.flatMap_cons]
      · rw [List.map_append, List.map_append, hname, hname']

end Emits

theorem structureName_ne_nil (seedName : Str) {uniqueName : Str} (h : uniqueName ≠ []) :
    structureName seedName uniqueName ≠ [] :=
  List.append_ne_nil_of_right_ne_nil _ h

/-- A name does not start with a separator if its parts do not. -/
theorem head_structureName {seedName uniqueName : Str} (hseed : seedName.head? ≠ some '/')
    (hunique : uniqueName.head? ≠ some '/') : (structureName seedName uniqueName).head? ≠ some '/' := by
  cases seedName with
  | nil => exact hunique
  | cons c seedName => exact hseed

/-- **Clones with names of their own are all kept.**  Structures go through any number of blocks, of
which the last one gives unique names, and are written to separate files.  Each comes out as often as
the blocks together clone it; all that come out have different names; and at the end each of them is
alone in the file of its name. -/
theorem clones_written_apart (D : StructureDisk γ σ) {writer : StructureWriter} {isPath : Path → Prop}
    (hD : D.Lawful writer isPath) (hsupport : writer.multiStructureSupport = false)
    (w : WriteStructures) (engine : WriteStructuresEngine ρ) (hused : w.usedWriter engine = some writer)
    (blocks : List Clone) (last : Clone) (hnames : last.myGiveUniqueNames = true)
    (xs : List (NamedStructure γ)) (rng : ρ) (disk : σ)
    (hfresh : Fresh engine.generateUniqueName rng) (hseed : engine.seedName.head? ≠ some '/')
    (hunique : ∀ rng, (engine.generateUniqueName rng).1 ≠ [] ∧
      (engine.generateUniqueName rng).1.head? ≠ some '/')
    (hpath : ∀ n, isPath (w.savePath engine writer
      (structureName engine.seedName (nameAt engine.generateUniqueName rng n)))) :
    let out := pipe engine.generateUniqueName engine.seedName (blocks ++ [last]) (w.outlet D engine)
    ∃ sent rng' disk', inputAll out xs (rng, disk) = (sent, rng', disk') ∧
      sent.map NamedStructure.rest = (xs.map NamedStructure.rest).flatMap
        (List.replicate ((blocks ++ [last]).map width).prod) ∧
      (sent.map NamedStructure.name).Nodup ∧
      ∀ x ∈ sent, D.content disk' (w.savePath engine writer x.name) = some [x] := by
  intro out
  obtain ⟨sent, names, rng', hall, hrest, hdrawn, hname⟩ :=
    (emits_pipe (D := D) hused blocks hnames fun rng => (hunique rng).1).inputAll xs rng disk
  have hof : ∀ x ∈ sent, ∃ n, x.name = structureName engine.seedName
      (nameAt engine.generateUniqueName rng n) := by
    intro x hx
    have hmem : x.name ∈ names.map (structureName engine.seedName) :=
      hname ▸ List.mem_map_of_mem hx
    obtain ⟨unique, hunique, heq⟩ := List.mem_map.mp hmem
    obtain ⟨n, rfl⟩ := hdrawn.exists_nameAt unique hunique
    exact ⟨n, heq.symm⟩
  have hnodup : (sent.map NamedStructure.name).Nodup := by
    rw [hname]
    exact (List.nodup_map_iff (structureName_injective _)).mpr (hdrawn.nodup hfresh)
  have hmulti : w.useMultiStructure writer = false := by
    rw [useMultiStructure, hsupport, Bool.and_false]
  have hpaths : ((sent.map NamedStructure.name).map (w.savePath engine writer)).Nodup := by
    have hplain : ∀ name ∈ sent.map NamedStructure.name, name ≠ [] ∧ name.head? ≠ some '/' := by
      intro name hmem
      obtain ⟨x, hx, rfl⟩ := List.mem_map.mp hmem
      obtain ⟨n, hn⟩ := hof x hx
      rw [hn]
      exact ⟨structureName_ne_nil _ (hunique _).1, head_structureName hseed (hunique _).2⟩
    rw [List.nodup_map_iff_inj_on hnodup]
    intro name hname name' hname' hequal
    exact savePath_injOn w engine writer hmulti (hplain name hname).1 (hplain name' hname').1
      (hplain name hname).2 (hplain name' hname').2 hequal
  rw [List.map_map] at hpaths
  have hisPath : ∀ x ∈ sent, isPath (w.savePath engine writer x.name) := by
    intro x hx
    obtain ⟨n, hn⟩ := hof x hx
    rw [hn]
    exact hpath _
  exact ⟨sent, rng', _, hall, hrest, hnodup, content_of_separate hD hsupport disk hisPath hpaths⟩

/-- Names of different lengths. -/
def lengthEngine : WriteStructuresEngine ℕ where
  seedName := ['s']
  instanceName := []
  workingDir := ['d']
  structureIo := ⟨fun _ => none, some ⟨false⟩⟩
  generateUniqueName rng := (List.replicate (rng + 1) 'x', rng + 1)

theorem fresh_lengthEngine : Fresh lengthEngine.generateUniqueName 0 := by
  have hafter : ∀ n, after lengthEngine.generateUniqueName n 0 = n := by
    intro n
    induction n with
    | zero => rfl
    | succ n ih =>
        rw [after_add, ih]
        rfl
  intro m n h
  simp only [nameAt, hafter] at h
  simpa [lengthEngine] using congrArg List.length h

/-- Two blocks make six files of two structures of one name. -/
theorem clones_written_apart_at :
    let w : WriteStructures := { myState := .USE_DEFAULT_WRITER }
    let out := pipe lengthEngine.generateUniqueName lengthEngine.seedName [⟨3, false⟩, ⟨1, true⟩]
      (w.outlet (mapDisk ⟨false⟩) lengthEngine)
    ∃ sent rng disk,
      inputAll out [⟨['a'], ()⟩, ⟨['a'], ()⟩] (0, fun _ => none) = (sent, rng, disk) ∧
      sent.length = 6 ∧ (sent.map NamedStructure.name).Nodup ∧
      ∀ x ∈ sent, (mapDisk ⟨false⟩).content disk (w.savePath lengthEngine ⟨false⟩ x.name)
        = some [x] := by
  intro w out
  obtain ⟨sent, rng, disk, hall, hrest, hnodup, hfiles⟩ := clones_written_apart (mapDisk ⟨false⟩)
    (lawful_mapDisk ⟨false⟩) rfl w lengthEngine rfl [⟨3, false⟩] ⟨1, true⟩ rfl
    [⟨['a'], ()⟩, ⟨['a'], ()⟩] 0 (fun _ => none) fresh_lengthEngine (by decide)
    (fun rng => ⟨by simp [lengthEngine], by simp [lengthEngine, List.replicate_succ]⟩)
    fun _ => trivial
  have hlength : sent.length = 6 := by
    simpa [width] using congrArg List.length hrest
  exact ⟨sent, rng, disk, hall, hlength, hnodup, hfiles⟩

end Clone

end StructurePipe.Blocks
