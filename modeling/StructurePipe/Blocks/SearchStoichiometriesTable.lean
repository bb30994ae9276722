import StructurePipe.Blocks.SearchStoichiometries
import StructurePipe.Lib.LastWrites
import StructurePipe.Utility.DataTableMap

/-!
# The table of a stoichiometry search

The rows of the table are keyed by the directories of the runs.  `start` writes the counts of a
stoichiometry under its directory, with `"."` for the empty path, and then the results of its
structures under its directory as it is; and it makes a directory of its own for a stoichiometry
only if it is asked to.

* `one_key_iff` — the counts and the results of a stoichiometry go to one row, unless there is no
  working directory at all and a structure has a result;
* `sweepPath_inj` — directories that are made for different stoichiometries are different;
* `own_rows_iff` — **when each stoichiometry has a row of its own with its counts.**
-/

namespace StructurePipe.Blocks

open OrderedMap LastWrites StepRuns Utility

/-! ### Directories and keys -/

namespace SearchOptions

variable {o : SearchOptions}

theorem stoichString_eq {currentIdx : List ℕ} (hlength : currentIdx.length = o.atomRanges.length) :
    o.stoichString currentIdx = ['-'].intercalate
      ((o.atomRanges.map Prod.fst).zipWith (fun label n => decimal n ++ label) currentIdx) := by
  have hpieces : (o.atomRanges.zipIdx.map fun e => decimal (currentIdx.getD e.2 0) ++ e.1.1)
      = (o.atomRanges.map Prod.fst).zipWith (fun label n => decimal n ++ label) currentIdx := by
    calc o.atomRanges.zipIdx.map (fun e => decimal (currentIdx.getD e.2 0) ++ e.1.1)
        = (o.atomRanges.zipIdx.map fun e => (e.1, currentIdx.getD e.2 0)).map
            (fun e => decimal e.2 ++ e.1.1) := by
          rw [List.map_map]
          rfl
      _ = (o.atomRanges.zip currentIdx).map (fun e => decimal e.2 ++ e.1.1) := by
          rw [FixedLabels.zipIdx_map_getD hlength]
      _ = _ := by
          rw [List.zipWith_map_left, List.zip, List.map_zipWith]
  rw [← hpieces, ← FixedLabels.flatMap_zipIdx_separator
    (fun (range : Str × CountRange) i => decimal (currentIdx.getD i 0) ++ range.1) ['-'] o.atomRanges 0,
    stoichString, hlength]
  simp only [Nat.zero_add]

/-- **The text of a stoichiometry determines it**, whatever the labels of the species are. -/
theorem stoichString_inj {currentIdx idx : List ℕ}
    (hlength : currentIdx.length = o.atomRanges.length) (hlength' : idx.length = o.atomRanges.length)
    (h : o.stoichString currentIdx = o.stoichString idx) : currentIdx = idx := by
  rw [stoichString_eq hlength, stoichString_eq hlength'] at h
  have hdash : ∃ c ∈ ['-'], c.isDigit = false := ⟨'-', by simp, by decide⟩
  exact FixedLabels.numbers_inj (fun n c hc => isDigit_of_mem_decimal hc) decimal_injective hdash
    (by simpa using hlength) (by simpa using hlength') h

/-- It starts with a number. -/
theorem head_stoichString (hne : o.atomRanges ≠ []) (currentIdx : List ℕ) :
    ∃ c rest, o.stoichString currentIdx = c :: rest ∧ c.isDigit := by
  obtain ⟨range, ranges, hranges⟩ := List.exists_cons_of_ne_nil hne
  obtain ⟨c, digits, hdigits⟩ := List.exists_cons_of_ne_nil
    (show decimal (currentIdx.getD 0 0) ≠ [] from Nat.toDigits_ne_nil)
  have hdigit : c.isDigit := by
    refine isDigit_of_mem_decimal (n := currentIdx.getD 0 0) ?_
    rw [hdigits]
    exact List.mem_cons_self
  rw [stoichString, hranges, List.zipIdx_cons, List.flatMap_cons]
  simp only [hdigits, List.cons_append]
  exact ⟨c, _, rfl, hdigit⟩

theorem sweepPath_eq (hne : o.atomRanges ≠ []) (hseparate : o.useSeparateDirectories = true)
    (workingDir : Path) (currentIdx : List ℕ) :
    o.sweepPath workingDir currentIdx = workingDir.withSeparator ++ o.stoichString currentIdx := by
  obtain ⟨c, rest, heq, hdigit⟩ := head_stoichString hne currentIdx
  rw [sweepPath, if_pos hseparate]
  refine Path.append_of_name ?_ ?_ workingDir
  · rw [heq]
    exact List.cons_ne_nil c rest
  · rw [heq]
    intro hslash
    obtain rfl := Option.some.inj hslash
    exact absurd hdigit (by decide)

/-- **Directories that are made for different stoichiometries are different.** -/
theorem sweepPath_inj (hne : o.atomRanges ≠ []) (hseparate : o.useSeparateDirectories = true)
    {workingDir : Path} {currentIdx idx : List ℕ}
    (hlength : currentIdx.length = o.atomRanges.length) (hlength' : idx.length = o.atomRanges.length)
    (h : o.sweepPath workingDir currentIdx = o.sweepPath workingDir idx) : currentIdx = idx := by
  rw [sweepPath_eq hne hseparate, sweepPath_eq hne hseparate] at h
  exact stoichString_inj hlength hlength' (List.append_cancel_left h)

theorem sweepPath_ne_nil (hne : o.atomRanges ≠ []) {workingDir : Path}
    (h : workingDir ≠ [] ∨ o.useSeparateDirectories = true) (currentIdx : List ℕ) :
    o.sweepPath workingDir currentIdx ≠ [] := by
  by_cases hseparate : o.useSeparateDirectories = true
  · obtain ⟨c, rest, heq, _⟩ := head_stoichString hne currentIdx
    rw [sweepPath_eq hne hseparate, heq]
    simp
  · rw [sweepPath, if_neg hseparate]
    exact h.resolve_right hseparate

/-- The name of the column of the `i`-th species. -/
def speciesColumn (o : SearchOptions) (i : ℕ) : Option Str :=
  o.atomRanges[i]?.map fun range => speciesTableColumn range.1 i

theorem mem_countCells_iff {currentIdx : List ℕ} {c v : Str} :
    (c, v) ∈ o.countCells currentIdx ↔
      ∃ i, o.speciesColumn i = some c ∧ v = decimal (currentIdx.getD i 0) := by
  simp only [countCells, speciesColumn, List.mem_map, Option.map_eq_some_iff, Prod.mk.injEq]
  constructor
  · rintro ⟨⟨range, i⟩, hrange, hc, hv⟩
    exact ⟨i, ⟨range, List.mem_zipIdx_iff_getElem?.mp hrange, hc⟩, hv.symm⟩
  · rintro ⟨i, ⟨range, hrange, hc⟩, hv⟩
    exact ⟨(range, i), List.mem_zipIdx_iff_getElem?.mpr hrange, hc, hv.symm⟩

/-- **When a row shows the counts** after other cells were written to it: species that share a column
have the same count, and what was written to the column of a species last is its count. -/
theorem last_cells_iff {currentIdx : List ℕ} {cells : List (Str × Str)} :
    (∀ i c, o.speciesColumn i = some c →
        last c (o.countCells currentIdx ++ cells) = some (decimal (currentIdx.getD i 0))) ↔
      (∀ i j c, o.speciesColumn i = some c → o.speciesColumn j = some c →
        currentIdx.getD i 0 = currentIdx.getD j 0) ∧
      ∀ i c v, o.speciesColumn i = some c → last c cells = some v →
        v = decimal (currentIdx.getD i 0) := by
  constructor
  · intro h
    refine ⟨fun i j c hi hj => ?_, fun i c v hi hlast => ?_⟩
    · exact decimal_injective (Option.some.inj ((h i c hi).symm.trans (h j c hj)))
    · have hcell := h i c hi
      rw [last_append, hlast, Option.some_or] at hcell
      exact Option.some.inj hcell
  · rintro ⟨hcolumns, hcells⟩ i c hi
    rw [last_append]
    cases hresult : last c cells with
    | some v => rw [Option.some_or, hcells i c v hi hresult]
    | none =>
        have hcell := mem_countCells_iff.mpr ⟨i, hi, (rfl : decimal (currentIdx.getD i 0) = _)⟩
        obtain ⟨v, hlast⟩ := exists_last hcell
        obtain ⟨j, hj, rfl⟩ := mem_countCells_iff.mp (mem_of_last hlast)
        rw [Option.none_or, hlast, hcolumns j i c hj hi]

/-- Something is written to the column of each species. -/
theorem exists_last_cells {currentIdx : List ℕ} {i : ℕ} {c : Str} (hi : o.speciesColumn i = some c)
    (cells : List (Str × Str)) : ∃ v, last c (o.countCells currentIdx ++ cells) = some v :=
  exists_last (List.mem_append_left cells (mem_countCells_iff.mpr ⟨i, hi, rfl⟩))

theorem tableKey_of_ne_nil {sweepPath : Path} (h : sweepPath ≠ []) : tableKey sweepPath = sweepPath :=
  if_neg (by simpa using h)

theorem tableKey_ne_nil (sweepPath : Path) : tableKey sweepPath ≠ [] := by
  rw [tableKey]
  split
  · simp
  · next h => simpa using h

end SearchOptions

/-! ### What a round writes -/

def SweepCall.write? {α : Type*} : SweepCall α → Option ((Str × Str) × Str)
  | .insert key colName value => some ((key, colName), value)
  | _ => none

theorem SweepCall.write?_eq_some_iff {α : Type*} {call : SweepCall α} {k c v : Str} :
    call.write? = some ((k, c), v) ↔ call = .insert k c v := by
  cases call <;> simp [write?, and_assoc]

/-- The calls insert under one key, which is not empty. -/
def OneKey {α : Type*} (calls : List (SweepCall α)) : Prop :=
  ∃ key ≠ [], ∀ k c v, .insert k c v ∈ calls → k = key

namespace SearchStoichiometries

variable {α ρ ε ω : Type*} (b : SearchStoichiometries α ρ ε ω)

/-- A structure for which the table gets a cell. -/
def HasResult (globalData : GlobalData) (structureData : α) : Prop :=
  b.library.isEmpty (b.library.getRelativeSavePath structureData (b.workingDir globalData)) = false ∨
    (b.library.spacegroupNumber structureData).isSome ∨
    ((b.library.energyInternal structureData).isSome ∧ b.library.numAtoms structureData ≠ 0)

theorem resultCells_eq_nil_iff (globalData : GlobalData) (structureData : α) :
    b.resultCells globalData structureData = [] ↔ ¬ b.HasResult globalData structureData := by
  simp only [resultCells, HasResult, List.append_eq_nil_iff, not_or]
  refine and_assoc.trans (and_congr ?_ (and_congr ?_ ?_))
  · cases b.library.isEmpty
      (b.library.getRelativeSavePath structureData (b.workingDir globalData)) <;> simp
  · cases b.library.spacegroupNumber structureData <;> simp
  · cases b.library.energyInternal structureData with
    | none => simp
    | some energy => by_cases h : b.library.numAtoms structureData = 0 <;> simp [h]

/-- The cells that a round writes after the counts. -/
def resultsOf (r : SubpipeRun α) : List (Str × Str) := r.finished.flatMap (b.resultCells r.left)

theorem filterMap_write_insert (key : Str) (cells : List (Str × Str)) :
    (cells.map fun cell => (SweepCall.insert key cell.1 cell.2 : SweepCall α)).filterMap
      SweepCall.write? = rowWrites key cells := by
  rw [List.filterMap_map]
  exact List.filterMap_eq_map (f := fun cell : Str × Str => ((key, cell.1), cell.2)) ▸ rfl

/-- What is written for finished structures, one after the other. -/
theorem writes_release (key : Str) (globalData : GlobalData) (structures : List α) :
    (structures.flatMap (b.releaseStructure key globalData)).filterMap SweepCall.write?
      = rowWrites key (structures.flatMap (b.resultCells globalData)) := by
  induction structures with
  | nil => rfl
  | cons structureData structures ih =>
      rw [List.flatMap_cons, List.flatMap_cons, List.filterMap_append, ih, rowWrites_append,
        releaseStructure, List.filterMap_append, filterMap_write_insert]
      simp [SweepCall.write?]

/-- **What a round writes**: the counts under the key of its directory, with `"."` for the empty
path, and the results under its directory. -/
theorem writes_callsOf (workingDir : Path) (currentIdx : List ℕ) (r : SubpipeRun α) :
    (b.callsOf workingDir currentIdx r).filterMap SweepCall.write?
      = rowWrites (SearchOptions.tableKey (b.myOptions.sweepPath workingDir currentIdx))
          (b.myOptions.countCells currentIdx)
        ++ rowWrites (b.myOptions.sweepPath workingDir currentIdx) (b.resultsOf r) := by
  show ((b.updateTable _ currentIdx ++ r.finished.flatMap _).filterMap SweepCall.write?) = _
  rw [List.filterMap_append, updateTable, filterMap_write_insert, writes_release]
  rfl

theorem insert_mem_callsOf {workingDir : Path} {currentIdx : List ℕ} {r : SubpipeRun α}
    {k c v : Str} :
    .insert k c v ∈ b.callsOf workingDir currentIdx r ↔
      k = SearchOptions.tableKey (b.myOptions.sweepPath workingDir currentIdx) ∧
          (c, v) ∈ b.myOptions.countCells currentIdx ∨
        k = b.myOptions.sweepPath workingDir currentIdx ∧ (c, v) ∈ b.resultsOf r := by
  have hwrite : .insert k c v ∈ b.callsOf workingDir currentIdx r ↔
      ((k, c), v) ∈ (b.callsOf workingDir currentIdx r).filterMap SweepCall.write? := by
    simp only [List.mem_filterMap, SweepCall.write?_eq_some_iff, exists_eq_right]
  rw [hwrite, writes_callsOf, List.mem_append, mem_rowWrites, mem_rowWrites]

/-! ### The keys of a round -/

theorem mem_getStoichRange_length {currentIdx : List ℕ} (h : currentIdx ∈ b.getStoichRange) :
    currentIdx.length = b.myOptions.atomRanges.length := by
  have hbox := (b.multiIdxRange.mem_iff (by simp) currentIdx).mp h
  simpa using hbox.length_eq

/-- Without a species there is nothing to run. -/
theorem atomRanges_ne_nil {currentIdx : List ℕ} (h : currentIdx ∈ b.getStoichRange)
    (hvisits : b.myOptions.Visits currentIdx) : b.myOptions.atomRanges ≠ [] := by
  intro hnil
  have hlength := b.mem_getStoichRange_length h
  rw [hnil, List.length_nil, List.length_eq_zero_iff] at hlength
  rw [hlength] at hvisits
  exact hvisits (Or.inl rfl)

/-- The counts and the results of a stoichiometry have one key, unless the path is empty and there are
results. -/
theorem oneKey_callsOf_iff (hranges : b.myOptions.atomRanges ≠ []) (workingDir : Path)
    (currentIdx : List ℕ) (r : SubpipeRun α) :
    OneKey (b.callsOf workingDir currentIdx r) ↔
      workingDir ≠ [] ∨ b.myOptions.useSeparateDirectories = true ∨ b.resultsOf r = [] := by
  constructor
  · rintro ⟨key, hkey, hall⟩
    by_contra hno
    push Not at hno
    obtain ⟨hdir, hseparate, hsome⟩ := hno
    have hempty : b.myOptions.sweepPath workingDir currentIdx = [] := by
      rw [SearchOptions.sweepPath, if_neg hseparate, hdir]
    obtain ⟨cell, hcell⟩ := List.exists_mem_of_ne_nil _ hsome
    exact hkey (hall [] cell.1 cell.2 (b.insert_mem_callsOf.mpr (Or.inr ⟨hempty.symm, hcell⟩))).symm
  · intro h
    refine ⟨SearchOptions.tableKey (b.myOptions.sweepPath workingDir currentIdx),
      SearchOptions.tableKey_ne_nil _, fun k c v hmem => ?_⟩
    rcases b.insert_mem_callsOf.mp hmem with ⟨hkey, _⟩ | ⟨hkey, hcell⟩
    · exact hkey
    · have hset : workingDir ≠ [] ∨ b.myOptions.useSeparateDirectories = true :=
        (or_assoc.mpr h).resolve_right (List.ne_nil_of_mem hcell)
      rw [hkey, SearchOptions.tableKey_of_ne_nil (SearchOptions.sweepPath_ne_nil hranges hset _)]

/-- **When the counts and the results of a stoichiometry go to one row.**  In every round in which the
sub-pipe is run, all inserts have one key, which is not empty, if and only if there is a working
directory, or the stoichiometry has a directory of its own, or no structure that was finished has a
result. -/
theorem one_key_iff {s : Sweep α ω} (hbuffer : s.myBuffer = []) :
    ∀ round ∈ (b.start s).1, ∀ r, .run r ∈ round.2 →
      (OneKey round.2 ↔
        s.globalData.workingDir ≠ [] ∨ b.sharedWorkingDir ≠ [] ∨
          b.myOptions.useSeparateDirectories = true ∨
          ∀ structureData ∈ r.finished, ¬ b.HasResult r.left structureData) := by
  intro round hround r hr
  obtain ⟨hindices, hrounds, _⟩ :=
    b.loop_spec (b.workingDir s.globalData) hbuffer b.getStoichRange
  obtain ⟨hvisits, _, hcalls⟩ := (hrounds round hround).of_run_mem b hr
  have hidx : round.1 ∈ b.getStoichRange := hindices ▸ List.mem_map_of_mem hround
  have hdir : b.workingDir s.globalData ≠ [] ↔
      s.globalData.workingDir ≠ [] ∨ b.sharedWorkingDir ≠ [] :=
    getWorkingDir_eq_nil_iff.not.trans not_and_or
  have hresults : b.resultsOf r = [] ↔ ∀ structureData ∈ r.finished,
      ¬ b.HasResult r.left structureData := by
    simp only [resultsOf, List.flatMap_eq_nil_iff, b.resultCells_eq_nil_iff]
  rw [hcalls, b.oneKey_callsOf_iff (b.atomRanges_ne_nil hidx hvisits), hdir, hresults, or_assoc]

end SearchStoichiometries

/-- A run without any working directory. -/
theorem two_keys_without_directory :
    ∃ round ∈ ((twoSpecies false []).start ⟨⟨[], none⟩, none, []⟩).1, ¬ OneKey round.2 := by
  have hresult : ∃ round ∈ ((twoSpecies false []).start ⟨⟨[], none⟩, none, []⟩).1,
      SweepCall.insert [] ['s', 'g'] ['1'] ∈ round.2 := by decide
  obtain ⟨round, hround, hinsert⟩ := hresult
  refine ⟨round, hround, ?_⟩
  rintro ⟨key, hkey, hall⟩
  exact hkey (hall [] ['s', 'g'] ['1'] hinsert).symm

/-- A run without any working directory, but with separate ones for the stoichiometries. -/
theorem one_key_iff_at :
    ∃ round ∈ ((twoSpecies true []).start ⟨⟨[], none⟩, none, []⟩).1,
      SweepCall.insert "0A-2B".toList ['s', 'g'] ['1'] ∈ round.2 ∧ OneKey round.2 := by
  have hresult : ∃ round ∈ ((twoSpecies true []).start ⟨⟨[], none⟩, none, []⟩).1,
      SweepCall.insert "0A-2B".toList ['s', 'g'] ['1'] ∈ round.2 ∧ ∃ r, .run r ∈ round.2 :=
    ⟨_, List.mem_cons_of_mem _ List.mem_cons_self, by decide, _, List.mem_cons_self⟩
  obtain ⟨round, hround, hinsert, r, hr⟩ := hresult
  refine ⟨round, hround, hinsert, ?_⟩
  exact ((twoSpecies true []).one_key_iff (s := ⟨⟨[], none⟩, none, []⟩) rfl round hround r hr).mpr
    (Or.inr (Or.inr (Or.inl rfl)))

namespace SearchStoichiometries

variable {α ρ ε ω : Type*} (b : SearchStoichiometries α ρ ε ω)

/-! ### The rows -/

/-- The key under which `updateTable` inserts the counts of a stoichiometry. -/
def rowKey (globalData : GlobalData) (currentIdx : List ℕ) : Str :=
  SearchOptions.tableKey (b.myOptions.sweepPath (b.workingDir globalData) currentIdx)

/-- The calls of `start` on its table. -/
def tableHistory (order : EvalOrder) (s : Sweep α ω) : List TableOp :=
  insertsOf order (((b.start s).1.flatMap Prod.snd).filterMap SweepCall.write?)

/-- With a working directory, each stoichiometry writes its counts and then its results under one
key. -/
theorem writes_start {s : Sweep α ω} (hbuffer : s.myBuffer = [])
    (hdir : b.workingDir s.globalData ≠ []) :
    (visitsOf (b.start s).1).map Prod.fst = b.visited ∧
      ((b.start s).1.flatMap Prod.snd).filterMap SweepCall.write?
        = (visitsOf (b.start s).1).flatMap fun visit => rowWrites (b.rowKey s.globalData visit.1)
            (b.myOptions.countCells visit.1 ++ b.resultsOf visit.2) := by
  obtain ⟨hindices, hrounds, _⟩ :=
    b.loop_spec (b.workingDir s.globalData) hbuffer b.getStoichRange
  obtain ⟨hidx, hcalls⟩ := b.visitsOf_spec hrounds
  rw [hindices] at hidx
  refine ⟨hidx, ?_⟩
  rw [start, hcalls, List.filterMap_flatMap]
  refine List.flatMap_congr fun visit hvisit => ?_
  obtain ⟨hrange, hvisits⟩ := List.mem_filter.mp (hidx ▸ List.mem_map_of_mem hvisit)
  have hne := SearchOptions.sweepPath_ne_nil
    (b.atomRanges_ne_nil hrange (of_decide_eq_true hvisits)) (Or.inl hdir) visit.1
  rw [writes_callsOf, rowKey, SearchOptions.tableKey_of_ne_nil hne, rowWrites_append]

/-- Each visited stoichiometry has a row of its own, which holds its counts. -/
structure OwnRows (globalData : GlobalData) (t : DataTable) : Prop where
  counts : ∀ idx ∈ b.visited, ∀ i c, b.myOptions.speciesColumn i = some c →
    t.lookup (b.rowKey globalData idx) c = some (decimal (idx.getD i 0))
  own : ∀ idx ∈ b.visited, ∀ idx' ∈ b.visited,
    b.rowKey globalData idx = b.rowKey globalData idx' → idx = idx'

/-- Different stoichiometries have different directories, species with one column have one count, and
the last result in a species column is the count. -/
structure KeepsRows (s : Sweep α ω) : Prop where
  directories : b.myOptions.useSeparateDirectories = true ∨
    ∀ idx ∈ b.visited, ∀ idx' ∈ b.visited, idx = idx'
  columns : ∀ idx ∈ b.visited, ∀ i j c, b.myOptions.speciesColumn i = some c →
    b.myOptions.speciesColumn j = some c → idx.getD i 0 = idx.getD j 0
  results : ∀ round ∈ (b.start s).1, ∀ r, .run r ∈ round.2 → ∀ i c v,
    b.myOptions.speciesColumn i = some c → last c (b.resultsOf r) = some v →
      v = decimal (round.1.getD i 0)

/-- Stoichiometries that are visited have keys of their own if they have directories of their own. -/
theorem rowKey_inj {globalData : GlobalData}
    (hseparate : b.myOptions.useSeparateDirectories = true) {idx idx' : List ℕ}
    (hidx : idx ∈ b.visited) (hidx' : idx' ∈ b.visited)
    (h : b.rowKey globalData idx = b.rowKey globalData idx') : idx = idx' := by
  obtain ⟨hrange, hvisits⟩ := List.mem_filter.mp hidx
  obtain ⟨hrange', _⟩ := List.mem_filter.mp hidx'
  have hne := b.atomRanges_ne_nil hrange (of_decide_eq_true hvisits)
  have hkey : ∀ idx, b.rowKey globalData idx
      = b.myOptions.sweepPath (b.workingDir globalData) idx := fun idx =>
    SearchOptions.tableKey_of_ne_nil (SearchOptions.sweepPath_ne_nil hne (Or.inr hseparate) idx)
  rw [hkey, hkey] at h
  exact SearchOptions.sweepPath_inj hne hseparate (b.mem_getStoichRange_length hrange)
    (b.mem_getStoichRange_length hrange') h

/-- The directories of the runs, in their order. -/
theorem workingDir_visits {s : Sweep α ω} (hbuffer : s.myBuffer = []) :
    (visitsOf (b.start s).1).map (fun visit => visit.2.workingDir)
      = b.visited.map (b.myOptions.sweepPath (b.workingDir s.globalData)) := by
  obtain ⟨hindices, hrounds, _⟩ :=
    b.loop_spec (b.workingDir s.globalData) hbuffer b.getStoichRange
  obtain ⟨hidx, _⟩ := b.visitsOf_spec hrounds
  rw [hindices] at hidx
  have hdir : ∀ visit ∈ visitsOf (b.start s).1,
      visit.2.workingDir = b.myOptions.sweepPath (b.workingDir s.globalData) visit.1 := by
    intro visit hvisit
    obtain ⟨calls, hround, hr⟩ := mem_visitsOf.mp hvisit
    exact (hrounds _ hround).workingDir_of_run_mem b hr
  calc (visitsOf (b.start s).1).map (fun visit => visit.2.workingDir)
      = (visitsOf (b.start s).1).map
          (fun visit => b.myOptions.sweepPath (b.workingDir s.globalData) visit.1) :=
        List.map_congr_left hdir
    _ = ((visitsOf (b.start s).1).map Prod.fst).map
          (b.myOptions.sweepPath (b.workingDir s.globalData)) := by rw [List.map_map]; rfl
    _ = b.visited.map (b.myOptions.sweepPath (b.workingDir s.globalData)) := by
        rw [start, hidx, visited]

/-- **Separate directories are separate.**  Different tuples of counts have different names, whatever
the labels of the species are, and so different directories and keys in any working directory; and no
two runs of a sweep, with any sub-pipe, have one directory or one key. -/
theorem separate_directories (hseparate : b.myOptions.useSeparateDirectories = true) :
    (∀ currentIdx idx : List ℕ, currentIdx.length = b.myOptions.atomRanges.length →
      idx.length = b.myOptions.atomRanges.length → currentIdx ≠ idx →
      b.myOptions.stoichString currentIdx ≠ b.myOptions.stoichString idx ∧
      ∀ workingDir,
        b.myOptions.sweepPath workingDir currentIdx ≠ b.myOptions.sweepPath workingDir idx ∧
        SearchOptions.tableKey (b.myOptions.sweepPath workingDir currentIdx)
          ≠ SearchOptions.tableKey (b.myOptions.sweepPath workingDir idx)) ∧
    ∀ (globalData : GlobalData) (w : ω),
      ((visitsOf (b.start ⟨globalData, w, []⟩).1).map fun visit => visit.2.workingDir).Nodup ∧
      ((visitsOf (b.start ⟨globalData, w, []⟩).1).map fun visit =>
        SearchOptions.tableKey visit.2.workingDir).Nodup := by
  constructor
  · intro currentIdx idx hlength hlength' hne
    have hranges : b.myOptions.atomRanges ≠ [] := by
      intro hnil
      rw [hnil, List.length_nil, List.length_eq_zero_iff] at hlength hlength'
      exact hne (hlength.trans hlength'.symm)
    have hpath : ∀ workingDir,
        b.myOptions.sweepPath workingDir currentIdx ≠ b.myOptions.sweepPath workingDir idx :=
      fun workingDir heq => hne (SearchOptions.sweepPath_inj hranges hseparate hlength hlength' heq)
    refine ⟨fun heq => hne (SearchOptions.stoichString_inj hlength hlength' heq), fun workingDir =>
      ⟨hpath workingDir, fun heq => hpath workingDir ?_⟩⟩
    have hkey := fun idx => SearchOptions.tableKey_of_ne_nil
      (@SearchOptions.sweepPath_ne_nil b.myOptions hranges workingDir (Or.inr hseparate) idx)
    rwa [hkey, hkey] at heq
  · intro globalData w
    have hdirs := b.workingDir_visits (s := ⟨globalData, w, []⟩) rfl
    have hnodup : (((visitsOf (b.start ⟨globalData, w, []⟩).1).map fun visit =>
        visit.2.workingDir).map SearchOptions.tableKey).Nodup := by
      rw [hdirs, List.map_map]
      exact b.nodup_visited.map_on fun idx hidx idx' hidx' heq =>
        @rowKey_inj _ _ _ _ b globalData hseparate idx idx' hidx hidx' heq
    exact ⟨hnodup.of_map, by rwa [List.map_map] at hnodup⟩

/-- A species without a label, and a label that is made of dashes and digits. -/
theorem separate_directories_at :
    let o : SearchOptions :=
      { atomRanges := [([], ⟨0, 20⟩), ("-1B1-".toList, ⟨0, 20⟩)]
        useSeparateDirectories := true
        ordered := List.pairwise_pair.mpr (by decide) }
    o.stoichString [1, 1] = "1-1-1B1-".toList ∧ o.stoichString [11, 1] ≠ o.stoichString [1, 1] ∧
      (visitsOf (({ twoSpecies true [] with myOptions := o } :
        SearchStoichiometries (Option ℕ) Path ℕ (Option ℕ)).start ⟨⟨[], none⟩, none, []⟩).1
          |>.map fun visit => visit.2.workingDir).Nodup := by
  intro o
  have hseparate := ({ twoSpecies true [] with myOptions := o } :
    SearchStoichiometries (Option ℕ) Path ℕ (Option ℕ)).separate_directories rfl
  exact ⟨by decide, (hseparate.1 [11, 1] [1, 1] rfl rfl (by decide)).1,
    (hseparate.2 ⟨[], none⟩ none).1⟩

/-- If no other stoichiometry has its key, a row holds what was written last for its stoichiometry. -/
theorem lookup_row {σ : Type*} (l : Listener σ) (order : EvalOrder) {s : Sweep α ω}
    (hbuffer : s.myBuffer = []) (hdir : b.workingDir s.globalData ≠ []) {u₀ u : σ} {t : DataTable}
    (hrun : run (TableOp.apply l) ({}, u₀) (b.tableHistory order s) = some (t, u))
    (hown : ∀ idx ∈ b.visited, ∀ idx' ∈ b.visited,
      b.rowKey s.globalData idx = b.rowKey s.globalData idx' → idx = idx')
    {visit : List ℕ × SubpipeRun α} (hvisit : visit ∈ visitsOf (b.start s).1) {c v : Str}
    (hlast : last c (b.myOptions.countCells visit.1 ++ b.resultsOf visit.2) = some v) :
    t.lookup (b.rowKey s.globalData visit.1) c = some v := by
  obtain ⟨hidx, hwrites⟩ := b.writes_start hbuffer hdir
  have hkeys : (visitsOf (b.start s).1).Pairwise fun visit visit' =>
      b.rowKey s.globalData visit.1 ≠ b.rowKey s.globalData visit'.1 := by
    have hnodup : b.visited.Pairwise fun idx idx' =>
        b.rowKey s.globalData idx ≠ b.rowKey s.globalData idx' :=
      b.nodup_visited.imp_of_mem fun {idx idx'} hmem hmem' hne heq => hne (hown idx hmem idx' hmem' heq)
    rwa [← hidx, List.pairwise_map] at hnodup
  refine lookup_of_run l u₀ hrun ?_
  rw [tableHistory, gridOf_insertsOf, hwrites, last_flatMap_rowWrites hkeys hvisit c, hlast]

/-- **When each stoichiometry has a row of its own.**  With a working directory, and whatever listens
to the initially empty table, `start` leaves for each visited stoichiometry a row of its own that
holds its counts if and only if stoichiometries have directories of their own (or there is one
only), species that share a column have the same counts, and no result is left in the column of a
species. -/
theorem own_rows_iff {σ : Type*} (l : Listener σ) (order : EvalOrder) {s : Sweep α ω}
    (hbuffer : s.myBuffer = []) (hdir : b.workingDir s.globalData ≠ []) {u₀ u : σ} {t : DataTable}
    (hrun : run (TableOp.apply l) ({}, u₀) (b.tableHistory order s) = some (t, u)) :
    b.OwnRows s.globalData t ↔ b.KeepsRows s := by
  obtain ⟨hidx, _⟩ := b.writes_start hbuffer hdir
  constructor
  · intro h
    -- a visited row shows the counts, so the last writes to it were the counts
    have hcells : ∀ visit ∈ visitsOf (b.start s).1, ∀ i c, b.myOptions.speciesColumn i = some c →
        last c (b.myOptions.countCells visit.1 ++ b.resultsOf visit.2)
          = some (decimal (visit.1.getD i 0)) := by
      intro visit hvisit i c hi
      obtain ⟨v, hlast⟩ := SearchOptions.exists_last_cells hi (b.resultsOf visit.2)
      have hcell := b.lookup_row l order hbuffer hdir hrun h.own hvisit hlast
      rw [hlast, ← hcell, h.counts visit.1 (hidx ▸ List.mem_map_of_mem hvisit) i c hi]
    refine ⟨?_, fun idx hmem => ?_, fun round hround r hr => ?_⟩
    · by_cases hseparate : b.myOptions.useSeparateDirectories = true
      · exact Or.inl hseparate
      · refine Or.inr fun idx hmem idx' hmem' => h.own idx hmem idx' hmem' ?_
        rw [rowKey, rowKey, SearchOptions.sweepPath, SearchOptions.sweepPath, if_neg hseparate,
          if_neg hseparate]
    · obtain ⟨visit, hvisit, rfl⟩ := List.mem_map.mp (hidx ▸ hmem)
      exact (SearchOptions.last_cells_iff.mp (hcells visit hvisit)).1
    · have hvisit : (round.1, r) ∈ visitsOf (b.start s).1 := mem_visitsOf.mpr ⟨round.2, hround, hr⟩
      exact (SearchOptions.last_cells_iff.mp (hcells _ hvisit)).2
  · intro h
    have hown : ∀ idx ∈ b.visited, ∀ idx' ∈ b.visited,
        b.rowKey s.globalData idx = b.rowKey s.globalData idx' → idx = idx' := by
      intro idx hmem idx' hmem' heq
      rcases h.directories with hseparate | hone
      · exact b.rowKey_inj hseparate hmem hmem' heq
      · exact hone idx hmem idx' hmem'
    refine ⟨fun idx hmem i c hi => ?_, hown⟩
    obtain ⟨visit, hvisit, rfl⟩ := List.mem_map.mp (hidx ▸ hmem)
    obtain ⟨calls, hround, hr⟩ := mem_visitsOf.mp hvisit
    exact b.lookup_row l order hbuffer hdir hrun hown hvisit (SearchOptions.last_cells_iff.mpr
      ⟨h.columns visit.1 hmem, h.results _ hround visit.2 hr⟩ i c hi)

/-- The columns of the results. -/
def resultColumns : List Str := [['l', 'o', 'w', 'e', 's', 't'], ['s', 'g'], "energy/atom".toList]

theorem mem_resultColumns {r : SubpipeRun α} {c v : Str} (h : (c, v) ∈ b.resultsOf r) :
    c ∈ resultColumns := by
  obtain ⟨structureData, _, hcell⟩ := List.mem_flatMap.mp h
  rw [resultCells, List.mem_append, List.mem_append] at hcell
  rcases hcell with (hcell | hcell) | hcell
  · split at hcell
    · exact absurd hcell List.not_mem_nil
    · obtain rfl := (Prod.mk.inj (List.mem_singleton.mp hcell)).1
      exact List.mem_cons_self
  · split at hcell
    · exact absurd hcell List.not_mem_nil
    · obtain rfl := (Prod.mk.inj (List.mem_singleton.mp hcell)).1
      exact List.mem_cons_of_mem _ List.mem_cons_self
  · split at hcell
    · exact absurd hcell List.not_mem_nil
    · split at hcell
      · exact absurd hcell List.not_mem_nil
      · obtain rfl := (Prod.mk.inj (List.mem_singleton.mp hcell)).1
        exact List.mem_cons_of_mem _ (List.mem_cons_of_mem _ List.mem_cons_self)

/-- With separate directories, columns of their own are enough. -/
theorem keepsRows_of_columns (hseparate : b.myOptions.useSeparateDirectories = true)
    (hcolumns : ∀ i j c, b.myOptions.speciesColumn i = some c →
      b.myOptions.speciesColumn j = some c → i = j)
    (hresults : ∀ i c, b.myOptions.speciesColumn i = some c → c ∉ resultColumns)
    (s : Sweep α ω) : b.KeepsRows s where
  directories := Or.inl hseparate
  columns idx _ i j c hi hj := by rw [hcolumns i j c hi hj]
  results _ _ _ _ i c _ hi hlast := absurd (b.mem_resultColumns (mem_of_last hlast)) (hresults i c hi)

end SearchStoichiometries

/-- Three stoichiometries are visited, and share the row of the working directory. -/
theorem stoichiometries_share_row :
    ∃ t, run (TableOp.apply silentListener) ({}, ())
        ((twoSpecies false ['w']).tableHistory .rowFirst ⟨⟨[], none⟩, none, []⟩) = some (t, ()) ∧
      (twoSpecies false ['w']).visited = [[0, 1], [0, 2], [1, 1]] ∧
      t.myRows = [[['w'], ['1'], ['1'], ['2']]] ∧
      ¬ (twoSpecies false ['w']).OwnRows ⟨[], none⟩ t :=
  ⟨_, rfl, by decide, by decide, fun h =>
    absurd (h.own [0, 1] (by decide) [1, 1] (by decide) rfl) (by decide)⟩

theorem speciesColumn_twoSpecies {separate : Bool} {workingDir : Path} {i : ℕ} {c : Str}
    (h : (twoSpecies separate workingDir).myOptions.speciesColumn i = some c) :
    i = 0 ∧ c = ['A'] ∨ i = 1 ∧ c = ['B'] := by
  match i with
  | 0 => exact Or.inl ⟨rfl, (Option.some.inj h).symm⟩
  | 1 => exact Or.inr ⟨rfl, (Option.some.inj h).symm⟩
  | _ + 2 => exact absurd h (by simp [SearchOptions.speciesColumn, twoSpecies])

theorem keepsRows_twoSpecies (workingDir : Path) (s : Sweep (Option ℕ) (Option ℕ)) :
    (twoSpecies true workingDir).KeepsRows s := by
  refine (twoSpecies true workingDir).keepsRows_of_columns rfl (fun i j c hi hj => ?_)
    (fun i c hi => ?_) s
  · rcases speciesColumn_twoSpecies hi with ⟨rfl, rfl⟩ | ⟨rfl, rfl⟩ <;>
      rcases speciesColumn_twoSpecies hj with ⟨rfl, h⟩ | ⟨rfl, h⟩ <;> simp at h ⊢
  · rcases speciesColumn_twoSpecies hi with ⟨rfl, rfl⟩ | ⟨rfl, rfl⟩
    · decide
    · decide

/-- The same sweep with separate directories. -/
theorem own_rows_iff_at :
    ∃ t, run (TableOp.apply silentListener) ({}, ())
        ((twoSpecies true ['w']).tableHistory .rowFirst ⟨⟨[], none⟩, none, []⟩) = some (t, ()) ∧
      t.lookup "w/1A-1B".toList ['A'] = some ['1'] ∧
      (twoSpecies true ['w']).OwnRows ⟨[], none⟩ t := by
  have hfull : ∃ t, run (TableOp.apply silentListener) ({}, ())
      ((twoSpecies true ['w']).tableHistory .rowFirst ⟨⟨[], none⟩, none, []⟩) = some (t, ()) :=
    ⟨_, rfl⟩
  obtain ⟨t, hrun⟩ := hfull
  have hrows := ((twoSpecies true ['w']).own_rows_iff silentListener .rowFirst
    (s := ⟨⟨[], none⟩, none, []⟩) rfl (by decide) hrun).mpr (keepsRows_twoSpecies _ _)
  exact ⟨t, hrun, hrows.counts [1, 1] (by decide) 0 ['A'] rfl, hrows⟩

end StructurePipe.Blocks
