import StructurePipe.Blocks.SearchStoichiometriesTable

/-!
# The lowest structure of a stoichiometry

After a run of the sub-pipe the structures it finished are written to one row, one after the other:
each overwrites what the one before it left under `"lowest"` and `"energy/atom"`.  What stays is the
structure that finished last, and sub-pipes that rank their structures send out the lowest first.

* `last_resultCells` — a structure with a path and an energy writes both cells;
* `lookup_released` — **the row shows the structure that finished last;**
* `lowest_row_iff` — **when that is the one with the lowest energy per atom.**
-/

namespace StructurePipe.Blocks

open LastWrites StepRuns Utility

namespace SearchStoichiometries

variable {α ρ ω : Type*} (b : SearchStoichiometries α ρ ℚ ω)

/-- The energy per atom of a structure that has an energy. -/
def perAtom (structureData : α) : ℚ :=
  (b.library.energyInternal structureData).getD 0 / b.library.numAtoms structureData

/-- A structure with a save path, an energy and at least one atom. -/
structure Complete (globalData : GlobalData) (structureData : α) : Prop where
  path : b.library.isEmpty
    (b.library.getRelativeSavePath structureData (b.workingDir globalData)) = false
  energy : (b.library.energyInternal structureData).isSome
  atoms : b.library.numAtoms structureData ≠ 0

/-- The text under `"lowest"`. -/
def lowestText (globalData : GlobalData) (structureData : α) : Str :=
  b.library.locatorString
    (b.library.getRelativeSavePath structureData (b.workingDir globalData))

/-- The text under `"energy/atom"`. -/
def energyText (structureData : α) : Str :=
  b.library.energyPerAtom ((b.library.energyInternal structureData).getD 0)
    (b.library.numAtoms structureData)

variable {b} {globalData : GlobalData}

/-- **A complete structure writes both cells.** -/
theorem Complete.last_resultCells {structureData : α} (h : b.Complete globalData structureData) :
    last ['l', 'o', 'w', 'e', 's', 't'] (b.resultCells globalData structureData)
        = some (b.lowestText globalData structureData) ∧
      last "energy/atom".toList (b.resultCells globalData structureData)
        = some (b.energyText structureData) := by
  obtain ⟨energy, henergy⟩ := Option.isSome_iff_exists.mp h.energy
  rw [resultCells, lowestText, energyText, henergy]
  simp only [h.path, h.atoms, if_false, last_append, last_singleton, Option.getD_some]
  cases b.library.spacegroupNumber structureData with
  | none => simp [last_singleton]
  | some spacegroup => simp [last_singleton]

/-- The structure that comes last decides. -/
theorem last_flatMap_resultCells {structures : List α} {structureData : α}
    (hlast : structures.getLast? = some structureData)
    (h : b.Complete globalData structureData) :
    last ['l', 'o', 'w', 'e', 's', 't'] (structures.flatMap (b.resultCells globalData))
        = some (b.lowestText globalData structureData) ∧
      last "energy/atom".toList (structures.flatMap (b.resultCells globalData))
        = some (b.energyText structureData) := by
  obtain ⟨before, rfl⟩ := List.getLast?_eq_some_iff.mp hlast
  obtain ⟨hpath, henergy⟩ := h.last_resultCells
  rw [List.flatMap_append, List.flatMap_singleton, last_append, last_append, hpath, henergy]
  exact ⟨rfl, rfl⟩

variable (b)

/-- The history of a table on which the buffered structures are released. -/
def releaseHistory (order : EvalOrder) (before : List TableOp) (key : Str) (s : Sweep α ω) :
    List TableOp :=
  before ++ insertsOf order ((b.releaseBufferedStructures key s).1.filterMap SweepCall.write?)

/-- **The row shows the structure that finished last.** -/
theorem lookup_released {σ : Type*} (l : Listener σ) (order : EvalOrder) (before : List TableOp)
    (key : Str) (s : Sweep α ω) {structureData : α}
    (hlast : s.myBuffer.getLast? = some structureData)
    (hcomplete : b.Complete s.globalData structureData) {u₀ u : σ} {t : DataTable}
    (hrun : run (TableOp.apply l) ({}, u₀) (b.releaseHistory order before key s) = some (t, u)) :
    t.lookup key ['l', 'o', 'w', 'e', 's', 't'] = some (b.lowestText s.globalData structureData) ∧
      t.lookup key "energy/atom".toList = some (b.energyText structureData) := by
  have hwrites : (b.releaseBufferedStructures key s).1.filterMap SweepCall.write?
      = rowWrites key (s.myBuffer.flatMap (b.resultCells s.globalData)) :=
    b.writes_release key s.globalData s.myBuffer
  have hcell : ∀ {c v : Str}, last c (s.myBuffer.flatMap (b.resultCells s.globalData)) = some v →
      t.lookup key c = some v := by
    intro c v hv
    refine lookup_of_run l u₀ hrun ?_
    rw [releaseHistory, gridOf_append_insertsOf, hwrites, last_rowWrites, if_pos rfl, hv]
    rfl
  obtain ⟨hpath, henergy⟩ := last_flatMap_resultCells hlast hcomplete
  exact ⟨hcell hpath, hcell henergy⟩

/-- The two cells of the row belong to one of the structures, and that has the lowest energy per atom
of all. -/
def ShowsLowest (globalData : GlobalData) (key : Str) (structures : List α) (t : DataTable) : Prop :=
  structures ≠ [] → ∃ x ∈ structures,
    t.lookup key ['l', 'o', 'w', 'e', 's', 't'] = some (b.lowestText globalData x) ∧
    t.lookup key "energy/atom".toList = some (b.energyText x) ∧
    ∀ y ∈ structures, b.perAtom x ≤ b.perAtom y

/-- The structure that finished last has the lowest energy per atom, or the same path and the same
energy text as one that has it. -/
def LastIsLowest (globalData : GlobalData) (structures : List α) : Prop :=
  ∀ structureData ∈ structures.getLast?, ∃ x ∈ structures, (∀ y ∈ structures, b.perAtom x ≤ b.perAtom y) ∧
    b.lowestText globalData structureData = b.lowestText globalData x ∧
    b.energyText structureData = b.energyText x

/-- **When the row shows the lowest structure.**  Structures that all have a save path, an energy and
at least one atom are released into a table with any history and any listener: the cells under
`"lowest"` and `"energy/atom"` belong to one of them that has the lowest energy per atom if and only
if the one that finished last has it (or prints like one that has it). -/
theorem lowest_row_iff {σ : Type*} (l : Listener σ) (order : EvalOrder) (before : List TableOp)
    (key : Str) (s : Sweep α ω) (hcomplete : ∀ x ∈ s.myBuffer, b.Complete s.globalData x)
    {u₀ u : σ} {t : DataTable}
    (hrun : run (TableOp.apply l) ({}, u₀) (b.releaseHistory order before key s) = some (t, u)) :
    b.ShowsLowest s.globalData key s.myBuffer t ↔ b.LastIsLowest s.globalData s.myBuffer := by
  cases hlast : s.myBuffer.getLast? with
  | none =>
      have hnil : s.myBuffer = [] := List.getLast?_eq_none_iff.mp hlast
      refine iff_of_true (fun hne => absurd hnil hne) fun x hx => ?_
      exact absurd hx (by simp [hlast])
  | some structureData =>
      have hmem : structureData ∈ s.myBuffer := List.mem_of_getLast? hlast
      obtain ⟨hpath, henergy⟩ := b.lookup_released l order before key s hlast
        (hcomplete structureData hmem) hrun
      rw [ShowsLowest, LastIsLowest, hpath, henergy, hlast]
      simp only [Option.mem_some_iff, forall_eq', Option.some_inj]
      constructor
      · intro h
        obtain ⟨x, hx, htext, hvalue, hle⟩ := h (List.ne_nil_of_mem hmem)
        exact ⟨x, hx, hle, htext, hvalue⟩
      · intro h _
        obtain ⟨x, hx, hle, htext, hvalue⟩ := h
        exact ⟨x, hx, htext, hvalue, hle⟩

end SearchStoichiometries

/-! ### Two structures of one run -/

/-- Structures of one atom, given by the names of their files and their energies. -/
def energyLibrary : StructureLibrary (Path × ℚ) Path ℚ where
  lastAbsFilePath structureData := some structureData.1
  spacegroupNumber _ := none
  energyInternal structureData := some structureData.2
  numAtoms _ := 1
  noLocator := []
  isEmpty locator := locator.isEmpty
  locatorString locator := locator
  path locator := locator
  setPath _ path := path
  makeRelative _ path := path
  energyPerAtom energy _ := '-' :: decimal energy.num.natAbs

theorem ordered_noRanges : OrderedMap.Ordered ([] : List (Str × CountRange)) := List.Pairwise.nil

/-- A search without a species. -/
def energySearch : SearchStoichiometries (Path × ℚ) Path ℚ Unit where
  myOptions := { ordered := ordered_noRanges }
  library := energyLibrary
  multiIdxRange := boxRange
  isAbsolute path := path.head? == some '/'
  sharedWorkingDir := []
  subpipe _ _ globalData := ([], (), globalData)

theorem perAtom_energySearch (structureData : Path × ℚ) :
    energySearch.perAtom structureData = structureData.2 := by
  simp [SearchStoichiometries.perAtom, energySearch, energyLibrary]

/-- The structure with the lower energy finishes last. -/
theorem lowest_row_iff_at :
    ∃ t, run (TableOp.apply silentListener) ({}, ()) (energySearch.releaseHistory .rowFirst [] ['k']
        ⟨⟨[], none⟩, (), [(['a'], -1), (['b'], -2)]⟩) = some (t, ()) ∧
      energySearch.ShowsLowest ⟨[], none⟩ ['k'] [(['a'], -1), (['b'], -2)] t := by
  have hcomplete : ∀ x ∈ [((['a'] : Path), (-1 : ℚ)), (['b'], -2)],
      energySearch.Complete ⟨[], none⟩ x := by
    intro x hx
    rcases List.mem_pair.mp hx with rfl | rfl
    · exact ⟨rfl, rfl, one_ne_zero⟩
    · exact ⟨rfl, rfl, one_ne_zero⟩
  have hfull : ∃ t, run (TableOp.apply silentListener) ({}, ()) (energySearch.releaseHistory .rowFirst
      [] ['k'] ⟨⟨[], none⟩, (), [(['a'], -1), (['b'], -2)]⟩) = some (t, ()) := ⟨_, rfl⟩
  obtain ⟨t, hrun⟩ := hfull
  refine ⟨t, hrun, (energySearch.lowest_row_iff silentListener .rowFirst [] ['k']
    ⟨⟨[], none⟩, (), [(['a'], -1), (['b'], -2)]⟩ hcomplete hrun).mpr ?_⟩
  intro x hx
  obtain rfl := Option.some.inj hx
  refine ⟨(['b'], -2), by simp, fun y hy => ?_, rfl, rfl⟩
  rw [perAtom_energySearch, perAtom_energySearch]
  rcases List.mem_pair.mp hy with rfl | rfl <;> norm_num

/-- **The row shows the last one.**  The structure with the lower energy finishes first, as a sub-pipe
that ranks its structures sends it out. -/
theorem last_row_not_lowest :
    ∃ t, run (TableOp.apply silentListener) ({}, ()) (energySearch.releaseHistory .rowFirst [] ['k']
        ⟨⟨[], none⟩, (), [(['a'], -2), (['b'], -1)]⟩) = some (t, ()) ∧
      t.lookup ['k'] ['l', 'o', 'w', 'e', 's', 't'] = some ['b'] ∧
      t.lookup ['k'] "energy/atom".toList = some ['-', '1'] ∧
      ¬ energySearch.ShowsLowest ⟨[], none⟩ ['k'] [(['a'], -2), (['b'], -1)] t := by
  refine ⟨_, rfl, by decide, by decide, fun h => ?_⟩
  obtain ⟨x, hx, hpath, _, hle⟩ := h (by simp)
  rcases List.mem_pair.mp hx with rfl | rfl
  · exact absurd hpath (by decide)
  · have hlower := hle (['a'], -2) (by simp)
    rw [perAtom_energySearch, perAtom_energySearch] at hlower
    norm_num at hlower

end StructurePipe.Blocks
