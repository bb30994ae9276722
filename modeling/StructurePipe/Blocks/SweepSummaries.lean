import StructurePipe.Blocks.ParamsSweep
import StructurePipe.Blocks.SearchStoichiometriesTable

/-!
# The summary files of the sweeps

Both blocks that sweep keep a table with a row for each run of their sub-pipe, which the table support
writes to a file when the outer pipe has finished.  The row is keyed by the directory of the run.

A cell that is written twice can leave part of its old value in the file, so the results of a run are
to have columns of their own, as they have if the sub-pipe finishes one structure at most.

* `SearchOptions.OwnColumns` — species whose columns are not shared;
* `rowsApart_rowsOf` — the rows of a search, one for each stoichiometry that is visited;
* `stoichiometries_summarised` — **one line for each stoichiometry, with its counts and results;**
* `params_summarised` — **one line for each parameter set whose run has a result.**
-/

namespace StructurePipe.Blocks

open FirstInsertion LastWrites StepRuns Utility Common
open scoped List

/-- The calls of the block as inserts into its table. -/
def insertions (order : EvalOrder) (writes : List ((Str × Str) × Str)) : List Insertion :=
  writes.map fun w => ⟨order, w.1.1, w.1.2, w.2⟩

theorem insertions_rowWrites (order : EvalOrder) (rows : List Row) :
    insertions order (rows.flatMap fun r => rowWrites r.1 r.2) = rowInserts order rows := by
  simp only [insertions, rowInserts, rowWrites, List.map_flatMap, List.map_map]
  rfl

/-! ### Stoichiometries -/

namespace SearchOptions

variable (o : SearchOptions)

/-- The columns of the species. -/
def speciesColumns : List Str := o.atomRanges.zipIdx.map fun (range, i) => speciesTableColumn range.1 i

/-- No two species share a column, and none has the column of a result. -/
structure OwnColumns : Prop where
  nodup : o.speciesColumns.Nodup
  apart : ∀ c ∈ o.speciesColumns, c ∉ SearchStoichiometries.resultColumns

theorem countCells_fst (currentIdx : List ℕ) :
    (o.countCells currentIdx).map Prod.fst = o.speciesColumns := by
  rw [countCells, List.map_map, speciesColumns]
  rfl

theorem countCells_snd {currentIdx : List ℕ} (hlength : currentIdx.length = o.atomRanges.length) :
    (o.countCells currentIdx).map Prod.snd = currentIdx.map decimal := by
  calc (o.countCells currentIdx).map Prod.snd
      = (o.atomRanges.zipIdx.map fun e => (e.1, currentIdx.getD e.2 0)).map
          (fun e => decimal e.2) := by
        rw [countCells, List.map_map, List.map_map]
        rfl
    _ = ((o.atomRanges.zip currentIdx).map Prod.snd).map decimal := by
        rw [FixedLabels.zipIdx_map_getD hlength, List.map_map]
        rfl
    _ = currentIdx.map decimal := by
        rw [List.map_snd_zip hlength.le]

end SearchOptions

namespace SearchStoichiometries

variable {α ρ ε ω : Type*} (b : SearchStoichiometries α ρ ε ω)

def summaryFile (outputFileStem : Path) : Path := outputFileStem ++ ".stoich".toList

/-- A run of the pipe: the engine starts, `start` makes its inserts, the pipe has finished. -/
def summaryEvents (order : EvalOrder) (s : Sweep α ω) : List SupportEvent :=
  runEvents (insertions order (((b.start s).1.flatMap Prod.snd).filterMap SweepCall.write?))

/-- The rows that `start` writes, one for each run of the sub-pipe. -/
def rowsOf (s : Sweep α ω) : List Row :=
  (visitsOf (b.start s).1).map fun visit =>
    (b.rowKey s.globalData visit.1, b.myOptions.countCells visit.1 ++ b.resultsOf visit.2)

/-- In no run are two results written to one column. -/
def SingleResults (s : Sweep α ω) : Prop :=
  ∀ visit ∈ visitsOf (b.start s).1, ((b.resultsOf visit.2).map Prod.fst).Nodup

/-- The columns of the results. -/
def usedColumns (s : Sweep α ω) : List Str :=
  registerAll ((visitsOf (b.start s).1).flatMap fun visit => (b.resultsOf visit.2).map Prod.fst)

/-- The text of the summary file: the columns of the species and of the results that there are, and for
each run of the sub-pipe its directory, its counts and its results. -/
def summaryText (s : Sweep α ω) : Str :=
  let visits := visitsOf (b.start s).1
  let species := if visits.isEmpty then [] else b.myOptions.speciesColumns
  ['#', ' '] ++ join (KEY_COLUMN_NAME :: (species ++ b.usedColumns s)) [' ']
    ++ visits.flatMap fun visit => '\n' :: join (b.rowKey s.globalData visit.1 ::
        (visit.1.map decimal ++ shownUnder (b.usedColumns s) (b.resultsOf visit.2))) [' ']

variable {b}

/-- One structure has no two results in one column. -/
theorem nodup_resultCells (globalData : GlobalData) (structureData : α) :
    ((b.resultCells globalData structureData).map Prod.fst).Nodup := by
  have hcolumns : ([['l', 'o', 'w', 'e', 's', 't']] ++ ([['s', 'g']] ++ ["energy/atom".toList])).Nodup :=
    by decide
  refine hcolumns.sublist ?_
  rw [resultCells, List.map_append, List.map_append, List.append_assoc]
  refine List.Sublist.append ?_ (List.Sublist.append ?_ ?_)
  · split
    · exact List.nil_sublist _
    · exact List.Sublist.refl _
  · split
    · exact List.nil_sublist _
    · exact List.Sublist.refl _
  · split
    · exact List.nil_sublist _
    · split
      · exact List.nil_sublist _
      · exact List.Sublist.refl _

/-- If the sub-pipe finishes one structure at most, its results have columns of their own. -/
theorem singleResults_of_length {s : Sweep α ω}
    (h : ∀ visit ∈ visitsOf (b.start s).1, visit.2.finished.length ≤ 1) : b.SingleResults s := by
  intro visit hvisit
  have hlength := h visit hvisit
  cases hfinished : visit.2.finished with
  | nil =>
      rw [resultsOf, hfinished]
      exact List.nodup_nil
  | cons structureData rest =>
      rw [hfinished, List.length_cons] at hlength
      obtain rfl : rest = [] := List.length_eq_zero_iff.mp (by omega)
      rw [resultsOf, hfinished, List.flatMap_singleton]
      exact nodup_resultCells _ _

/-- With directories of its own, each stoichiometry has one key. -/
theorem writes_of_separate (hseparate : b.myOptions.useSeparateDirectories = true) {s : Sweep α ω}
    (hbuffer : s.myBuffer = []) :
    (visitsOf (b.start s).1).map Prod.fst = b.visited ∧
      ((b.start s).1.flatMap Prod.snd).filterMap SweepCall.write?
        = (b.rowsOf s).flatMap fun r => rowWrites r.1 r.2 := by
  obtain ⟨hindices, hrounds, _⟩ :=
    b.loop_spec (b.workingDir s.globalData) hbuffer b.getStoichRange
  obtain ⟨hidx, hcalls⟩ := b.visitsOf_spec hrounds
  rw [hindices] at hidx
  refine ⟨hidx, ?_⟩
  rw [rowsOf, List.flatMap_map, start, hcalls, List.filterMap_flatMap]
  refine List.flatMap_congr fun visit hvisit => ?_
  obtain ⟨hrange, hvisits⟩ := List.mem_filter.mp (hidx ▸ List.mem_map_of_mem hvisit)
  have hne : b.myOptions.sweepPath (b.workingDir s.globalData) visit.1 ≠ [] :=
    SearchOptions.sweepPath_ne_nil (b.atomRanges_ne_nil hrange (of_decide_eq_true hvisits))
      (Or.inr hseparate) visit.1
  rw [writes_callsOf, rowKey, SearchOptions.tableKey_of_ne_nil hne, rowWrites_append]

theorem fst_notMem_speciesColumns (hcolumns : b.myOptions.OwnColumns) (r : SubpipeRun α) :
    ∀ cell ∈ b.resultsOf r, cell.1 ∉ b.myOptions.speciesColumns := fun _ hcell hmem =>
  hcolumns.apart _ hmem (b.mem_resultColumns hcell)

/-- **The rows.** -/
theorem rowsApart_rowsOf (hseparate : b.myOptions.useSeparateDirectories = true)
    (hcolumns : b.myOptions.OwnColumns) {s : Sweep α ω} (hbuffer : s.myBuffer = [])
    (hresults : b.SingleResults s) : RowsApart (b.rowsOf s) where
  keys_nodup := by
    have hkeys : (b.rowsOf s).map Prod.fst = b.visited.map (b.rowKey s.globalData) := by
      rw [← (writes_of_separate hseparate hbuffer).1, rowsOf, List.map_map, List.map_map]
      rfl
    rw [hkeys]
    exact b.nodup_visited.map_on fun _ hidx _ hidx' heq => b.rowKey_inj hseparate hidx hidx' heq
  cells := by
    intro r hr
    obtain ⟨visit, hvisit, rfl⟩ := List.mem_map.mp hr
    have hidx : visit.1 ∈ b.visited :=
      (writes_of_separate hseparate hbuffer).1 ▸ List.mem_map_of_mem hvisit
    obtain ⟨hrange, hvisits⟩ := List.mem_filter.mp hidx
    have hranges := b.atomRanges_ne_nil hrange (of_decide_eq_true hvisits)
    constructor
    · simp [SearchOptions.countCells, hranges]
    · rw [List.map_append, b.myOptions.countCells_fst, List.nodup_append]
      refine ⟨hcolumns.nodup, hresults visit hvisit, fun c hc c' hc' heq => ?_⟩
      obtain ⟨cell, hcell, rfl⟩ := List.mem_map.mp hc'
      exact fst_notMem_speciesColumns hcolumns visit.2 cell hcell (heq ▸ hc)

/-- The text of the rows. -/
theorem summaryOf_rowsOf (hseparate : b.myOptions.useSeparateDirectories = true)
    (hcolumns : b.myOptions.OwnColumns) {s : Sweep α ω} (hbuffer : s.myBuffer = []) :
    summaryOf (b.rowsOf s) = b.summaryText s := by
  have hidx := (writes_of_separate hseparate hbuffer).1
  have hnames : cellNames (b.rowsOf s) = (visitsOf (b.start s).1).flatMap fun visit =>
      b.myOptions.speciesColumns ++ (b.resultsOf visit.2).map Prod.fst := by
    rw [cellNames, rowsOf, List.flatMap_map]
    refine List.flatMap_congr fun visit _ => ?_
    rw [List.map_append, b.myOptions.countCells_fst]
  have hnew : ∀ visit ∈ visitsOf (b.start s).1, ∀ name ∈ (b.resultsOf visit.2).map Prod.fst,
      name ∉ b.myOptions.speciesColumns := by
    intro visit _ name hname
    obtain ⟨cell, hcell, rfl⟩ := List.mem_map.mp hname
    exact fst_notMem_speciesColumns hcolumns visit.2 cell hcell
  cases hvisits : visitsOf (b.start s).1 with
  | nil =>
      rw [summaryOf, summaryText, hnames, usedColumns, hvisits, rowsOf, hvisits]
      rfl
  | cons first rest =>
      have hcols : registerAll (cellNames (b.rowsOf s))
          = b.myOptions.speciesColumns ++ b.usedColumns s := by
        rw [hnames, registerAll_flatMap hcolumns.nodup (by simp [hvisits]) hnew, usedColumns]
      have hapart : (b.myOptions.speciesColumns ++ b.usedColumns s).Nodup := by
        rw [← hcols]
        exact registerAll_nodup _
      have hlines : ∀ visit ∈ visitsOf (b.start s).1,
          shownUnder (b.myOptions.speciesColumns ++ b.usedColumns s)
              (b.myOptions.countCells visit.1 ++ b.resultsOf visit.2)
            = visit.1.map decimal ++ shownUnder (b.usedColumns s) (b.resultsOf visit.2) := by
        intro visit hvisit
        have hmem : visit.1 ∈ b.visited := hidx ▸ List.mem_map_of_mem hvisit
        have hlength := b.mem_getStoichRange_length (List.mem_of_mem_filter hmem)
        rw [shownUnder_append hapart (b.myOptions.countCells_fst visit.1)
          (fst_notMem_speciesColumns hcolumns visit.2), b.myOptions.countCells_snd hlength]
      have hsome : (visitsOf (b.start s).1).isEmpty = false := by rw [hvisits]; rfl
      rw [summaryOf, summaryText, hcols, rowsOf, List.flatMap_map]
      simp only [hsome, Bool.false_eq_true, if_false]
      refine congrArg _ (List.flatMap_congr fun visit hvisit => ?_)
      rw [hlines visit hvisit]

end SearchStoichiometries

open SearchStoichiometries

/-- **What a stoichiometry search with directories of its own leaves in its summary file.**  The outer
pipe makes any number of runs, each with an empty buffer and any sub-pipe; no two species share a
column or have that of a result, and in no run of the sub-pipe two results have one column.  Nothing
goes wrong.  In the last of the runs of `start` the sub-pipe is run once for each stoichiometry that is
visited, and afterwards the file is the table of this run if that of the run before was shorter: the
columns that there are, and one line for each run of the sub-pipe, in their order, with its directory,
its counts and its results. -/
theorem stoichiometries_summarised {α ρ ε ω : Type*} (b : SearchStoichiometries α ρ ε ω)
    (hseparate : b.myOptions.useSeparateDirectories = true) (hcolumns : b.myOptions.OwnColumns)
    (order : EvalOrder) (outputFileStem : Path) (disk : Disk) (sweeps : List (Sweep α ω))
    (last : Sweep α ω)
    (hsweeps : ∀ s ∈ sweeps ++ [last], s.myBuffer = [] ∧ b.SingleResults s) :
    (visitsOf (b.start last).1).map Prod.fst = b.visited ∧
      ∃ support, run DataTableSupport.step
          { myFilename := summaryFile outputFileStem, disk := disk }
          ((sweeps ++ [last]).flatMap (b.summaryEvents order)) = some support ∧
        ((∀ previous ∈ sweeps.getLast?,
            (b.summaryText previous).length < (b.summaryText last).length) →
          support.file = some (b.summaryText last)) := by
  have hlast := (hsweeps last (by simp)).1
  have htext : ∀ s ∈ sweeps ++ [last], summaryOf (b.rowsOf s) = b.summaryText s :=
    fun s hs => summaryOf_rowsOf hseparate hcolumns (hsweeps s hs).1
  have hevents : ∀ s ∈ sweeps ++ [last],
      b.summaryEvents order s = runEvents (rowInserts order (b.rowsOf s)) := by
    intro s hs
    rw [summaryEvents, (writes_of_separate hseparate (hsweeps s hs).1).2, insertions_rowWrites]
  have hfile : summaryFile outputFileStem ≠ [] := by simp [summaryFile]
  obtain ⟨support, hrun, hholds⟩ := exists_summarised hfile disk order
    (fun s hs => rowsApart_rowsOf hseparate hcolumns (hsweeps s hs).1 (hsweeps s hs).2) hevents
  refine ⟨(writes_of_separate hseparate hlast).1, support, hrun, fun hprevious => ?_⟩
  rw [htext last (by simp)] at hholds
  refine hholds fun previous hprev => ?_
  rw [htext previous (List.mem_append_left _ (List.mem_of_getLast? hprev))]
  exact hprevious previous hprev

/-- Three stoichiometries with a structure each, of which the first has no space group. -/
theorem stoichiometries_summarised_at :
    ∃ support, run DataTableSupport.step { myFilename := summaryFile ['s'], disk := some ['o'] }
        ((twoSpecies true []).summaryEvents .rowFirst ⟨⟨[], none⟩, none, []⟩) = some support ∧
      support.file = some "# [key] A B sg\n0A-1B 0 1\n0A-2B 0 2 1\n1A-1B 1 1 2".toList := by
  have hcolumns : (twoSpecies true []).myOptions.OwnColumns := ⟨by decide, by decide⟩
  obtain ⟨_, support, hrun, hfile⟩ := stoichiometries_summarised (twoSpecies true []) rfl hcolumns
    .rowFirst ['s'] (some ['o']) [] ⟨⟨[], none⟩, none, []⟩ (by
      intro s hs
      obtain rfl := List.mem_singleton.mp hs
      exact ⟨rfl, singleResults_of_length (by decide)⟩)
  refine ⟨support, hrun, (hfile (by simp)).trans ?_⟩
  decide

/-! ### Parameter sets -/

section Params

variable {κ π : Type*} [DecidableEq π]

/-- The columns of one structure are different. -/
theorem nodup_structureInfo (toString : IeeeDivision.Number → Str) (ENERGY_INTERNAL : π)
    (structure_ : TableStructure κ π) :
    ((insertStructureInfoAndPotentialParams toString ENERGY_INTERNAL structure_).map
      Prod.fst).Nodup := by
  have hparams : ∀ params : List Str, (paramCells params).map Prod.fst
      = (List.range' 0 params.length).map ParamsSweep.paramColumn := by
    intro params
    rw [← List.zipIdx_map_snd 0 params, paramCells, List.map_map, List.map_map]
    rfl
  have hothers : ["energy".toList, "energy/atom".toList, "lowest_path".toList, ['s', 'g']].Nodup := by
    decide
  rw [insertStructureInfoAndPotentialParams.eq_def, List.append_assoc, List.append_assoc,
    List.map_append, hparams]
  -- the other columns are some of four, and none of them begins with a `p`
  generalize hrest : (_ ++ (_ ++ _) : List (Str × Str)) = rest
  have hsublist : rest.map Prod.fst
      <+ ["energy".toList, "energy/atom".toList] ++ (["lowest_path".toList] ++ [['s', 'g']]) := by
    rw [← hrest, List.map_append, List.map_append]
    refine List.Sublist.append ?_ (List.Sublist.append ?_ ?_)
    · split
      · exact List.nil_sublist _
      · exact List.Sublist.refl _
    · split
      · exact List.nil_sublist _
      · exact List.Sublist.refl _
    · split
      · exact List.nil_sublist _
      · exact List.Sublist.refl _
  refine List.nodup_append.mpr ⟨?_, hothers.sublist hsublist, fun c hc c' hc' heq => ?_⟩
  · exact List.Nodup.map (fun _ _ h => ParamsSweep.paramColumn_inj h) List.nodup_range'
  · obtain ⟨i, _, rfl⟩ := List.mem_map.mp hc
    have hmem := hsublist.subset (heq ▸ hc')
    simp [ParamsSweep.paramColumn] at hmem

end Params

namespace ParamsSweep

variable {κ π ω : Type*} [DecidableEq π] (b : ParamsSweep κ π ω)

def summaryFile (outputFileStem : Path) : Path := outputFileStem ++ ".potparams".toList

/-- A state that `start` can get to, whatever others and the sub-pipe do, on a block without an empty
parameter set in its queue. -/
def Reached (s : ParamsSweeping κ π ω) : Prop :=
  ∃ block queueFile doneFile globalData subpipe events,
    (∀ params ∈ block.myParamsQueue, params ≠ []) ∧
      run b.step (begin block queueFile doneFile globalData subpipe) events = some s

/-- A run of the pipe in which `start` made the calls of `s`. -/
def summaryEvents (order : EvalOrder) (s : ParamsSweeping κ π ω) : List SupportEvent :=
  runEvents (insertions order (s.calls.filterMap writeOf))

/-- The rows of the runs of the sub-pipe, of those that have a cell. -/
def rowsOf (s : ParamsSweeping κ π ω) : List Row :=
  ((s.calls.filterMap runOf).map fun r => (b.sweepPath r.dirName, b.cellsOf r)).filter
    fun r => !r.2.isEmpty

/-- The runs of the sub-pipe have directories with names of their own, and none has written a column
twice. -/
structure OwnRows (s : ParamsSweeping κ π ω) : Prop where
  names : ∀ r ∈ s.calls.filterMap runOf, IsName r.dirName
  nodup : ((s.calls.filterMap runOf).map ParamsRun.dirName).Nodup
  single : ∀ r ∈ s.calls.filterMap runOf, ((b.cellsOf r).map Prod.fst).Nodup

variable {b}

theorem single_of_length {s : ParamsSweeping κ π ω}
    (h : ∀ r ∈ s.calls.filterMap runOf, r.passed.length ≤ 1) :
    ∀ r ∈ s.calls.filterMap runOf, ((b.cellsOf r).map Prod.fst).Nodup := by
  intro r hr
  have hlength := h r hr
  cases hpassed : r.passed with
  | nil =>
      rw [cellsOf, ParamsRun.sent, hpassed]
      exact List.nodup_nil
  | cons structure_ rest =>
      rw [hpassed, List.length_cons] at hlength
      obtain rfl : rest = [] := List.length_eq_zero_iff.mp (by omega)
      rw [cellsOf, ParamsRun.sent, hpassed, List.map_singleton, List.flatMap_singleton]
      exact nodup_structureInfo _ _ _

theorem Reached.insertions_eq {s : ParamsSweeping κ π ω} (h : b.Reached s) (order : EvalOrder) :
    insertions order (s.calls.filterMap writeOf) = rowInserts order (b.rowsOf s) := by
  obtain ⟨block, queueFile, doneFile, globalData, subpipe, events, hqueue, hrun⟩ := h
  obtain ⟨runs, haccounts, _⟩ := exists_accounts hqueue hrun
  have hwrites : s.calls.filterMap writeOf = (runs.map fun r =>
      (b.sweepPath r.dirName, b.cellsOf r)).flatMap fun r => rowWrites r.1 r.2 := by
    rw [haccounts.calls, List.filterMap_flatMap, List.flatMap_map]
    exact List.flatMap_congr fun r _ => filterMap_writeOf_callsOf r
  rw [hwrites, insertions_rowWrites, rowsOf, haccounts.runs_eq, rowInserts_filter]

theorem OwnRows.apart {s : ParamsSweeping κ π ω} (h : b.OwnRows s) : RowsApart (b.rowsOf s) where
  keys_nodup := by
    have hkeys : ((s.calls.filterMap runOf).map fun r => b.sweepPath r.dirName).Nodup :=
      (List.Nodup.of_map ParamsRun.dirName h.nodup).map_on fun r hr r' hr' heq =>
        List.inj_on_of_nodup_map h.nodup hr hr' (sweepPath_inj (h.names r hr) (h.names r' hr') heq)
    refine hkeys.sublist ?_
    rw [rowsOf, List.filter_map, List.map_map]
    exact List.filter_sublist.map _
  cells := by
    intro r hr
    obtain ⟨hmem, hne⟩ := List.mem_filter.mp hr
    obtain ⟨r, hrun, rfl⟩ := List.mem_map.mp hmem
    exact ⟨by simpa using hne, h.single r hrun⟩

end ParamsSweep

open ParamsSweep

/-- **What a parameter sweep leaves in its summary file.**  The outer pipe makes any number of runs of
`start`, whatever others do to the two files and whatever the sub-pipe does; the directories of the
sub-pipe's runs have names of their own, and none has written a column twice.  Nothing goes wrong, and
afterwards the file is the table of the last run of `start` if that of the run before was shorter: the
columns that are used, in the order of their first use, and one line for each run of the sub-pipe that
has a result, in their order. -/
theorem params_summarised {κ π ω : Type*} [DecidableEq π] (b : ParamsSweep κ π ω) (order : EvalOrder)
    (outputFileStem : Path) (disk : Disk) (sweeps : List (ParamsSweeping κ π ω))
    (last : ParamsSweeping κ π ω)
    (hsweeps : ∀ s ∈ sweeps ++ [last], b.Reached s ∧ b.OwnRows s) :
    ∃ support, run DataTableSupport.step
        { myFilename := ParamsSweep.summaryFile outputFileStem, disk := disk }
        ((sweeps ++ [last]).flatMap (ParamsSweep.summaryEvents order)) = some support ∧
      ((∀ previous ∈ sweeps.getLast?,
          (summaryOf (b.rowsOf previous)).length < (summaryOf (b.rowsOf last)).length) →
        support.file = some (summaryOf (b.rowsOf last))) := by
  have hevents : ∀ s ∈ sweeps ++ [last],
      ParamsSweep.summaryEvents order s = runEvents (rowInserts order (b.rowsOf s)) := by
    intro s hs
    rw [ParamsSweep.summaryEvents, (hsweeps s hs).1.insertions_eq]
  have hfile : ParamsSweep.summaryFile outputFileStem ≠ [] := by simp [ParamsSweep.summaryFile]
  exact exists_summarised hfile disk order (fun s hs => (hsweeps s hs).2.apart) hevents

/-- Two parameter sets, with a structure each. -/
theorem params_summarised_at : ∃ s support, run oneEach.step begun twoSets = some s ∧
    run DataTableSupport.step { myFilename := ParamsSweep.summaryFile ['s'], disk := none }
      (ParamsSweep.summaryEvents .colFirst s) = some support ∧
    support.file = some
      "# [key] p_0 p_1 energy energy/atom\nw/x 1 2 e e\nw/y 3 4 e e".toList := by
  have hfacts : (run oneEach.step begun twoSets).map (fun s =>
      (summaryOf (oneEach.rowsOf s), (s.calls.filterMap runOf).map fun r =>
        (r.dirName, r.passed.length)))
      = some ("# [key] p_0 p_1 energy energy/atom\nw/x 1 2 e e\nw/y 3 4 e e".toList,
          [(['x'], 1), (['y'], 1)]) := by
    decide +kernel
  obtain ⟨s, hs, heq⟩ := Option.map_eq_some_iff.mp hfacts
  obtain ⟨htext, hruns⟩ := Prod.mk.inj heq
  have hrun : ∀ r ∈ s.calls.filterMap runOf,
      (r.dirName, r.passed.length) ∈ [((['x'] : Str), 1), (['y'], 1)] := fun r hr =>
    hruns ▸ List.mem_map_of_mem hr
  have hown : oneEach.OwnRows s := by
    refine ⟨fun r hr => ?_, ?_, single_of_length fun r hr => ?_⟩
    · rcases List.mem_cons.mp (hrun r hr) with hx | hy
      · rw [(Prod.mk.inj hx).1]
        exact ⟨by simp, by simp⟩
      · rw [(Prod.mk.inj (List.mem_singleton.mp hy)).1]
        exact ⟨by simp, by simp⟩
    · have hnames := congrArg (List.map Prod.fst) hruns
      rw [List.map_map] at hnames
      rw [show (s.calls.filterMap runOf).map ParamsRun.dirName = [['x'], ['y']] from hnames]
      decide
    · rcases List.mem_cons.mp (hrun r hr) with hx | hy
      · exact (Prod.mk.inj hx).2.le
      · exact (Prod.mk.inj (List.mem_singleton.mp hy)).2.le
  obtain ⟨support, hsupport, hfile⟩ := params_summarised oneEach .colFirst ['s'] none [] s (by
    intro s' hs'
    obtain rfl := List.mem_singleton.mp hs'
    exact ⟨⟨{}, some "1 2\n3 4\n".toList, none, {}, (0, []), twoSets, by simp, hs⟩, hown⟩)
  rw [List.nil_append, List.flatMap_singleton] at hsupport
  exact ⟨s, support, hs, hsupport, (hfile (by simp)).trans (congrArg some htext)⟩

end StructurePipe.Blocks
