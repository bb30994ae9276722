import StructurePipe.Blocks.CutAndPaste
import StructurePipe.Blocks.KeepTopN
import StructurePipe.Blocks.KeepWithinXPercent
import StructurePipe.Blocks.SearchStoichiometries
import StructurePipe.Common.Strings
import StructurePipe.Lib.IeeeDivision

/-!
# Values per atom

`KeepTopN` and `KeepWithinXPercent` can rank by a value per atom, and two functions write the energy
per atom to a table: `GeomOptimise::updateTable` and `insertStructureInfoAndPotentialParams`.  All four
divide by the number of atoms without asking whether there is one, unlike `SearchStoichiometries`,
which writes the same column only if there is.

A structure without atoms is not far-fetched: `CutAndPaste` without `paste` sends one out if all atoms
lie in its shape.

* `toNumber_localValue` — with atoms to divide by, the value is the one the barriers are modelled with;
* `wellDefined_iff` — what a consumer computes for any structures is ordinary and totally ordered
  exactly if none that it divides for is without atoms;
* `input_atoms_eq_nil_iff` — when `CutAndPaste` leaves no atoms;
* `per_atom_values_ordinary_iff` — **both together: for structures from anywhere, and for those that
  `CutAndPaste` sends out.**
-/

namespace StructurePipe.Blocks

open IeeeDivision
open IeeeDivision.Number (Ordinary Comparable)

variable {κ π : Type*}

/-- A value of a structure, with the number of atoms it is divided by, if it is. -/
structure AtomValue where
  value : ℚ
  divisor : Option ℕ
deriving DecidableEq, Repr

/-- The floating-point number that is computed. -/
def AtomValue.toNumber (v : AtomValue) : Number :=
  match v.divisor with
  | none => .finite v.value
  | some numAtoms => (Number.finite v.value).div (.finite numAtoms)

section Consumers

variable [DecidableEq π]

/-- The first half of `KeepTopN::in` and `KeepWithinXPercent::in`: the value that is passed to `keep`.
A structure without the property is let through. -/
def RankingBarrier.inValue (B : RankingBarrier κ π) (x : Structure κ π) : Option AtomValue :=
  (x.properties.lookup B.myStructureProperty).map fun value =>
    ⟨value, if B.myUsePerAtom then some x.numAtoms else none⟩

/-- The energy per atom of a structure with an energy. -/
def energyPerAtom (ENERGY_INTERNAL : π) (x : Structure κ π) : Option AtomValue :=
  (x.properties.lookup ENERGY_INTERNAL).map fun energy => ⟨energy, some x.numAtoms⟩

/-- What the two functions that write to a table read of a structure.  The relative save path is
`none` if the locator is empty. -/
structure TableStructure (κ π : Type*) extends Structure κ π where
  name : Str
  potentialParams : Option (List Str) := none
  relativeSavePath : Option Str := none
  spacegroupNumber : Option ℕ := none

/-- The cells that `GeomOptimise::updateTable` writes to the row named after the structure. -/
def GeomOptimise.updateTable (toString : Number → Str) (ENERGY_INTERNAL : π)
    (structure_ : TableStructure κ π) (numIters : Option ℕ) : List (Str × Str) :=
  match structure_.properties.lookup ENERGY_INTERNAL with
  | none => []
  | some internalEnergy =>
      [("energy".toList, toString (.finite internalEnergy)),
        ("energy/atom".toList,
          toString (AtomValue.toNumber ⟨internalEnergy, some structure_.numAtoms⟩))]
      ++ (match numIters with
        | none => []
        | some numIters => [("iters".toList, decimal numIters)])

/-- The loop over the potential parameters. -/
def paramCells (params : List Str) : List (Str × Str) :=
  params.zipIdx.map fun (param, i) => (['p', '_'] ++ decimal i, param)

/-- The cells that `insertStructureInfoAndPotentialParams` writes to the row of its key. -/
def insertStructureInfoAndPotentialParams (toString : Number → Str) (ENERGY_INTERNAL : π)
    (structure_ : TableStructure κ π) : List (Str × Str) :=
  paramCells (structure_.potentialParams.getD [])
  ++ (match structure_.properties.lookup ENERGY_INTERNAL with
    | none => []
    | some energy =>
        [("energy".toList, toString (.finite energy)),
          ("energy/atom".toList,
            toString (AtomValue.toNumber ⟨energy, some structure_.numAtoms⟩))])
  ++ (match structure_.relativeSavePath with
    | none => []
    | some locator => [("lowest_path".toList, locator)])
  ++ (match structure_.spacegroupNumber with
    | none => []
    | some spacegroup => [(['s', 'g'], decimal spacegroup)])

/-- The places that divide by the number of atoms. -/
inductive Consumer (π : Type*) where
  | keepTopN (myKeepTopN : ℕ) (property : π) (usePerAtom : Bool)
  | keepWithinXPercent (myKeepPercent : ℚ) (property : π) (usePerAtom : Bool)
  | updateTable
  | insertStructureInfoAndPotentialParams
deriving DecidableEq, Repr

namespace Consumer

variable (ENERGY_INTERNAL : π) (c : Consumer π)

/-- The value that is ranked by, or written as the energy per atom. -/
def atomValue (reduce : κ → κ) (x : Structure κ π) : Option AtomValue :=
  match c with
  | keepTopN n property usePerAtom => (Blocks.keepTopN n property usePerAtom reduce).inValue x
  | keepWithinXPercent percent property usePerAtom =>
      (Blocks.keepWithinXPercent percent property usePerAtom reduce).inValue x
  | updateTable => energyPerAtom ENERGY_INTERNAL x
  | insertStructureInfoAndPotentialParams => energyPerAtom ENERGY_INTERNAL x

/-- The property that is looked up. -/
def property : π :=
  match c with
  | keepTopN _ property _ => property
  | keepWithinXPercent _ property _ => property
  | updateTable => ENERGY_INTERNAL
  | insertStructureInfoAndPotentialParams => ENERGY_INTERNAL

def usesPerAtom : Bool :=
  match c with
  | keepTopN _ _ usePerAtom => usePerAtom
  | keepWithinXPercent _ _ usePerAtom => usePerAtom
  | updateTable => true
  | insertStructureInfoAndPotentialParams => true

/-- The structure has the property, and it is divided by the number of atoms. -/
def Divides (x : Structure κ π) : Prop :=
  (x.properties.lookup (c.property ENERGY_INTERNAL)).isSome ∧ c.usesPerAtom = true

/-- No division by zero, and only ordinary numbers, which are totally ordered. -/
def WellDefined (reduce : κ → κ) (xs : List (Structure κ π)) : Prop :=
  (∀ x ∈ xs, ∀ v, c.atomValue ENERGY_INTERNAL reduce x = some v →
    v.divisor ≠ some 0 ∧ Ordinary v.toNumber) ∧
  ∀ x ∈ xs, ∀ y ∈ xs, ∀ v w, c.atomValue ENERGY_INTERNAL reduce x = some v →
    c.atomValue ENERGY_INTERNAL reduce y = some w → Comparable v.toNumber w.toNumber

/-- All consumers do the same with the property they look up. -/
theorem atomValue_eq (reduce : κ → κ) (x : Structure κ π) :
    c.atomValue ENERGY_INTERNAL reduce x
      = (x.properties.lookup (c.property ENERGY_INTERNAL)).map fun value =>
          ⟨value, if c.usesPerAtom then some x.numAtoms else none⟩ := by
  cases c with
  | keepTopN n property usePerAtom => rfl
  | keepWithinXPercent percent property usePerAtom => rfl
  | updateTable => rfl
  | insertStructureInfoAndPotentialParams => rfl

end Consumer

/-! ### What the consumers do with the value -/

/-- **With atoms to divide by, a barrier ranks by the exact value.** -/
theorem toNumber_localValue (B : RankingBarrier κ π) {x : Structure κ π}
    (hatoms : B.myUsePerAtom = true → x.numAtoms ≠ 0) :
    (B.inValue x).map AtomValue.toNumber = (B.localValue x).map Number.finite := by
  rw [RankingBarrier.inValue, RankingBarrier.localValue, Option.map_map, Option.map_map]
  refine congrArg (fun f => Option.map f _) (funext fun value => ?_)
  cases hper : B.myUsePerAtom with
  | false => simp [AtomValue.toNumber]
  | true =>
      have hne : (x.numAtoms : ℚ) ≠ 0 := Nat.cast_ne_zero.mpr (hatoms hper)
      simp [AtomValue.toNumber, Number.div_finite value hne]

/-- The cell that `updateTable` writes is the energy per atom, if there is an energy. -/
theorem mem_updateTable_iff (toString : Number → Str) (ENERGY_INTERNAL : π)
    (structure_ : TableStructure κ π) (numIters : Option ℕ) (value : Str) :
    ("energy/atom".toList, value)
        ∈ GeomOptimise.updateTable toString ENERGY_INTERNAL structure_ numIters ↔
      ∃ v, energyPerAtom ENERGY_INTERNAL structure_.toStructure = some v ∧
        value = toString v.toNumber := by
  rw [GeomOptimise.updateTable.eq_def, energyPerAtom]
  cases structure_.properties.lookup ENERGY_INTERNAL with
  | none => simp
  | some energy => cases numIters with
      | none => simp
      | some numIters => simp

/-- The same cell of the other table. -/
theorem mem_insertStructureInfo_iff (toString : Number → Str) (ENERGY_INTERNAL : π)
    (structure_ : TableStructure κ π) (value : Str) :
    ("energy/atom".toList, value)
        ∈ insertStructureInfoAndPotentialParams toString ENERGY_INTERNAL structure_ ↔
      ∃ v, energyPerAtom ENERGY_INTERNAL structure_.toStructure = some v ∧
        value = toString v.toNumber := by
  have hparams : ("energy/atom".toList, value)
      ∉ paramCells (structure_.potentialParams.getD []) := by simp [paramCells]
  rw [insertStructureInfoAndPotentialParams.eq_def, energyPerAtom, List.append_assoc,
    List.append_assoc, List.mem_append, or_iff_right hparams]
  cases structure_.properties.lookup ENERGY_INTERNAL with
  | none =>
      cases structure_.relativeSavePath <;> cases structure_.spacegroupNumber <;> simp
  | some energy =>
      cases structure_.relativeSavePath <;> cases structure_.spacegroupNumber <;> simp

end Consumers

/-- The other function that writes the column asks first: what a division by zero would give makes no
difference to it. -/
theorem resultCells_of_energyPerAtom {α ρ ε ω : Type*} (b : SearchStoichiometries α ρ ε ω)
    (energyPerAtom : ε → ℕ → Str) (globalData : GlobalData) (structureData : α)
    (h : ∀ energy numAtoms, numAtoms ≠ 0 →
      energyPerAtom energy numAtoms = b.library.energyPerAtom energy numAtoms) :
    SearchStoichiometries.resultCells
        { b with library := { b.library with energyPerAtom := energyPerAtom } }
        globalData structureData
      = b.resultCells globalData structureData := by
  rw [SearchStoichiometries.resultCells, SearchStoichiometries.resultCells]
  congr 1
  cases b.library.energyInternal structureData with
  | none => rfl
  | some energy =>
      by_cases hatoms : b.library.numAtoms structureData = 0
      · simp [hatoms]
      · simp [hatoms, h energy _ hatoms]

/-! ### Which structures are divided by nothing -/

section WellDefined

variable [DecidableEq π] (ENERGY_INTERNAL : π) (c : Consumer π) (reduce : κ → κ)

/-- **One structure.** -/
theorem ordinary_iff (x : Structure κ π) :
    (∀ v, c.atomValue ENERGY_INTERNAL reduce x = some v →
        v.divisor ≠ some 0 ∧ Ordinary v.toNumber) ↔
      (c.Divides ENERGY_INTERNAL x → x.numAtoms ≠ 0) := by
  rw [c.atomValue_eq, Consumer.Divides]
  cases x.properties.lookup (c.property ENERGY_INTERNAL) with
  | none => simp
  | some value =>
      cases c.usesPerAtom with
      | false => simp [AtomValue.toNumber, Number.ordinary_finite]
      | true => simp [AtomValue.toNumber, Number.ordinary_div_iff]

/-- **Any structures.**  What is ordinary is totally ordered, so nothing is asked for beyond the atoms
of each structure. -/
theorem wellDefined_iff (xs : List (Structure κ π)) :
    c.WellDefined ENERGY_INTERNAL reduce xs ↔
      ∀ x ∈ xs, c.Divides ENERGY_INTERNAL x → x.numAtoms ≠ 0 := by
  rw [Consumer.WellDefined]
  constructor
  · rintro ⟨hordinary, _⟩ x hx
    exact (ordinary_iff ENERGY_INTERNAL c reduce x).mp (hordinary x hx)
  · intro hatoms
    have hordinary := fun x hx => (ordinary_iff ENERGY_INTERNAL c reduce x).mpr (hatoms x hx)
    refine ⟨hordinary, fun x hx y hy v w hv hw => ?_⟩
    exact Number.comparable_of_ordinary (hordinary x hx v hv).2 (hordinary y hy w hw).2

end WellDefined

/-! ### Structures from CutAndPaste -/

namespace CutAndPaste

variable {ω α γ δ σ ρ : Type*} (shape : GeneratorShape ω ρ) (settings : Settings)
  (separator : PointSeparator ω α γ δ σ) (speciesDb : δ)

/-- With `paste` on, as many atoms go out as come in. -/
theorem length_input_of_paste (hpaste : settings.paste = true) (s : Structure ω α γ) (rng : ρ) :
    (input shape settings separator speciesDb s rng).1.atoms.length
      = (outside shape s.atoms).length + (inside shape s.atoms).length := by
  obtain ⟨pasted, hattributes, hinput⟩ :=
    input_of_paste shape settings separator speciesDb hpaste s rng
  have hpasted : pasted.length = (inside shape s.atoms).length := by
    simpa using congrArg List.length hattributes
  rw [hinput]
  split
  · have hseparate := congrArg List.length (separate_atoms settings separator speciesDb
      { s with atoms := outside shape s.atoms ++ pasted } (outside shape s.atoms).length).1
    rw [List.length_map, List.length_map, List.length_append, hpasted] at hseparate
    exact hseparate
  · rw [List.length_append, hpasted]

/-- **When no atoms are left:** without `paste` if all are in the shape, otherwise only if there were
none. -/
theorem input_atoms_eq_nil_iff (s : Structure ω α γ) (rng : ρ) :
    (input shape settings separator speciesDb s rng).1.atoms.length = 0 ↔
      ¬ ∃ atom ∈ s.atoms, settings.paste = true ∨ shape.isInShape atom.position = false := by
  cases hpaste : settings.paste with
  | false =>
      rw [input_of_not_paste shape settings separator speciesDb hpaste]
      simp [outside]
  | true =>
      rw [length_input_of_paste shape settings separator speciesDb hpaste]
      have hall : (outside shape s.atoms).length + (inside shape s.atoms).length
          = s.atoms.length := by
        rw [outside, inside, add_comm, ← List.length_append]
        exact (List.filter_append_perm _ s.atoms).length_eq
      rw [hall, List.length_eq_zero_iff]
      simp [List.eq_nil_iff_forall_not_mem]

/-- What the consumers read of a structure. -/
def Structure.summary (composition : List α → κ) (properties : γ → List (π × ℚ))
    (s : Structure ω α γ) : Blocks.Structure κ π :=
  ⟨composition (s.atoms.map Atom.attributes), s.atoms.length, properties s.rest⟩

end CutAndPaste

section Combined

open CutAndPaste (GeneratorShape PointSeparator)

variable [DecidableEq π] (ENERGY_INTERNAL : π) (c : Consumer π) (reduce : κ → κ)
  {ω α γ δ σ ρ : Type*} (shape : GeneratorShape ω ρ) (settings : CutAndPaste.Settings)
  (separator : PointSeparator ω α γ δ σ) (speciesDb : δ) (composition : List α → κ)
  (properties : γ → List (π × ℚ))

/-- `CutAndPaste` does not touch the properties. -/
theorem divides_summary_input (s : CutAndPaste.Structure ω α γ) (rng : ρ) :
    c.Divides ENERGY_INTERNAL ((CutAndPaste.input shape settings separator speciesDb s rng).1.summary
        composition properties) ↔
      c.Divides ENERGY_INTERNAL (s.summary composition properties) := by
  simp only [Consumer.Divides, CutAndPaste.Structure.summary, CutAndPaste.input_rest]

/-- **When nothing is divided by zero.**  For structures from anywhere: if each of those that are
divided for has an atom.  For structures that `CutAndPaste` sends out: if each of these had an atom
outside the shape, or had an atom and `paste` is on. -/
theorem per_atom_values_ordinary_iff :
    (∀ xs : List (Structure κ π), c.WellDefined ENERGY_INTERNAL reduce xs ↔
      ∀ x ∈ xs, c.Divides ENERGY_INTERNAL x → x.numAtoms ≠ 0) ∧
    ∀ arrivals : List (CutAndPaste.Structure ω α γ × ρ),
      c.WellDefined ENERGY_INTERNAL reduce (arrivals.map fun a =>
          (CutAndPaste.input shape settings separator speciesDb a.1 a.2).1.summary
            composition properties) ↔
        ∀ a ∈ arrivals, c.Divides ENERGY_INTERNAL (a.1.summary composition properties) →
          ∃ atom ∈ a.1.atoms, settings.paste = true ∨ shape.isInShape atom.position = false := by
  refine ⟨wellDefined_iff ENERGY_INTERNAL c reduce, fun arrivals => ?_⟩
  rw [wellDefined_iff, List.forall_mem_map]
  refine forall₂_congr fun a _ => ?_
  rw [divides_summary_input]
  refine imp_congr_right fun _ => ?_
  rw [← not_not (a := ∃ atom ∈ a.1.atoms, _)]
  exact not_congr (CutAndPaste.input_atoms_eq_nil_iff shape settings separator speciesDb a.1 a.2)

end Combined

/-- **A structure without atoms has no value per atom.**  Its only atom lies in the shape and is not
pasted back.  An energy of zero gives something that is not a number, which cannot even be compared
with itself; an energy of minus one gives an infinite number. -/
theorem cut_structure_has_no_value_per_atom :
    let sent : ℚ → Structure (List Char) Unit := fun energy =>
      (CutAndPaste.input CutAndPaste.negatives { paste := false } CutAndPaste.idleSeparator ()
        ⟨[⟨-5, 'a'⟩], ()⟩ 0).1.summary id fun _ => [((), energy)]
    ∀ c : Consumer Unit, c.usesPerAtom = true →
      (c.atomValue () id (sent 0)).map AtomValue.toNumber = some .nan ∧
        (∀ v, c.atomValue () id (sent 0) = some v → ∀ key, ¬ Comparable v.toNumber key) ∧
        (c.atomValue () id (sent (-1))).map AtomValue.toNumber = some (.infinite true) ∧
        ¬ c.WellDefined () id [sent 0] := by
  intro sent c hper
  have hsent : ∀ energy, sent energy = ⟨[], 0, [((), energy)]⟩ := by
    intro energy
    simp [sent, CutAndPaste.input, CutAndPaste.cut_eq, CutAndPaste.outside, CutAndPaste.negatives,
      CutAndPaste.Structure.summary]
  have hvalue : ∀ energy, c.atomValue () id (sent energy) = some ⟨energy, some 0⟩ := by
    intro energy
    rw [c.atomValue_eq, hper, hsent]
    rfl
  have hnan : AtomValue.toNumber ⟨0, some 0⟩ = .nan := by
    simp [AtomValue.toNumber, Number.div_zero]
  refine ⟨?_, ?_, ?_, fun hdefined => ?_⟩
  · rw [hvalue, Option.map_some, hnan]
  · intro v hv key
    rw [hvalue] at hv
    rw [← Option.some.inj hv, hnan]
    exact Number.not_comparable_nan key
  · rw [hvalue]
    simp [AtomValue.toNumber, Number.div_zero]
  · exact (hdefined.1 (sent 0) (List.mem_singleton_self _) _ (hvalue 0)).1 rfl

end StructurePipe.Blocks
