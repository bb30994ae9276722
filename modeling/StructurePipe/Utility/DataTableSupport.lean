import StructurePipe.Utility.DataTableWriterSession

/-!
# The data table support

`DataTableSupport` owns a table and its current writer.  When the pipe engine starts running it makes a
writer for its file, and when the pipe has finished it writes the table once more and clears it.

`myWriter.reset(new DataTableWriter(...))` opens the file for the new writer first, which truncates
it, and destroys the old writer then.  The destructor still writes a newline, at the offset of the
old stream: if that lies behind the end of the truncated file, the gap is filled with zero bytes.
A run whose text is longer than that of the run before writes over all of it.

* `length_text_seenByColumn`, `length_text_put` — as long as no cell is overwritten the text of a
  table only grows;
* `Covers` — what a writer knows that works on a file with something left over in it;
* `summary_file_iff` — **when the file holds the table of the run, and when it holds it alone.**
-/

namespace StructurePipe.Utility

open Delimited OverwrittenFile StepRuns

/-! ### The length of the text of a table -/

/-- Pieces with a delimiter each are not longer than pieces that are longer one by one. -/
theorem length_flatMap_le {row row' : List Str} (hlength : row.length ≤ row'.length)
    (h : ∀ i, (row.getD i []).length ≤ (row'.getD i []).length) (d : Str) :
    (row.flatMap (d ++ ·)).length ≤ (row'.flatMap (d ++ ·)).length := by
  induction row generalizing row' with
  | nil => exact Nat.zero_le _
  | cons a row ih =>
      cases row' with
      | nil => simp at hlength
      | cons b row' =>
          have hhead : a.length ≤ b.length := h 0
          have htail := ih (Nat.le_of_succ_le_succ hlength) fun i => h (i + 1)
          simp only [List.flatMap_cons, List.length_append]
          omega

/-- Joined pieces are not longer than pieces that are longer one by one. -/
theorem length_join_le {row row' : List Str} (hlength : row.length ≤ row'.length)
    (h : ∀ i, (row.getD i []).length ≤ (row'.getD i []).length) (d : Str) :
    (join row d).length ≤ (join row' d).length := by
  cases row with
  | nil => exact Nat.zero_le _
  | cons a row =>
      have hne : row' ≠ [] := List.length_pos_iff.mp (Nat.lt_of_lt_of_le (Nat.succ_pos _) hlength)
      have hflat := length_flatMap_le hlength h d
      rw [← append_intercalate d (List.cons_ne_nil a row), ← append_intercalate d hne,
        List.length_append, List.length_append] at hflat
      show (d.intercalate (a :: row)).length ≤ (d.intercalate row').length
      omega

namespace DataTable

theorem length_text (t : DataTable) (d : Str) :
    (t.text d).length = (join t.myColumnNames d).length + 2 + t.notesText.length
      + (rowsText t.myRows d).length := by
  simp only [text, headerText, List.length_append, List.length_cons, List.length_nil]
  omega

theorem length_text_withColumn (t : DataTable) (name d : Str) :
    (t.text d).length ≤ ((t.withColumn name).text d).length := by
  rw [withColumn]
  split
  · exact le_rfl
  · have hnames : (join t.myColumnNames d).length ≤ (join (t.myColumnNames ++ [name]) d).length := by
      refine length_join_le (by simp) (fun i => ?_) d
      rcases Nat.lt_or_ge i t.myColumnNames.length with hlt | hge
      · rw [List.getD_append _ _ _ _ hlt]
      · rw [List.getD_eq_default _ _ hge]
        exact Nat.zero_le _
    rw [length_text, length_text]
    show _ ≤ (join (t.myColumnNames ++ [name]) d).length + 2 + t.notesText.length
      + (rowsText t.myRows d).length
    omega

/-- New rows make the text longer. -/
theorem SameHead.length_text_le {t t' : DataTable} (h : t.SameHead t')
    (hrows : t.myRows <+: t'.myRows) (d : Str) : (t.text d).length ≤ (t'.text d).length := by
  obtain ⟨more, hmore⟩ := hrows
  rw [length_text, length_text, h.columnNames, h.notesText, ← hmore, rowsText, rowsText,
    List.flatMap_append, List.length_append]
  omega

/-- A value in a blank cell makes the text longer. -/
theorem length_text_insertValue {t : DataTable} {c : Coords} (hc : c.1 < t.numRows)
    (hblank : t.cell c = []) (value d : Str) :
    (t.text d).length ≤ ((t.insertValue c value).2.text d).length := by
  have hlen : c.1 < t.myRows.length := hc
  have hrow : (join (t.myRows.getD c.1 []) d).length
      ≤ (join (FirstInsertion.setGrown (t.myRows.getD c.1 []) c.2 value []) d).length := by
    refine length_join_le ?_ (fun i => ?_) d
    · rw [FirstInsertion.length_setGrown]
      exact le_max_left _ _
    · rw [FirstInsertion.getD_setGrown]
      split
      · next hi =>
          have hold : (t.myRows.getD c.1 []).getD i [] = [] := hi ▸ hblank
          rw [hold]
          exact Nat.zero_le _
      · exact le_rfl
  have hrows : (rowsText t.myRows d).length
      ≤ (rowsText (t.myRows.set c.1 (FirstInsertion.setGrown (t.myRows.getD c.1 []) c.2 value []))
        d).length := by
    rw [List.set_eq_take_append_cons_drop, if_pos hlen]
    conv_lhs => rw [myRows_split hc]
    simp only [rowsText, List.flatMap_append, List.flatMap_cons, List.length_append,
      List.length_cons]
    omega
  rw [insertValue_snd hlen, length_text, length_text]
  exact Nat.add_le_add_left hrows _

/-- The row and the column of an insert make the text longer. -/
theorem length_text_seenByColumn (order : EvalOrder) (t : DataTable) (key name d : Str) :
    (t.text d).length ≤ (((seenByColumn order t key).withColumn name).text d).length := by
  have hseen : (t.text d).length ≤ ((seenByColumn order t key).text d).length := by
    cases order with
    | rowFirst => exact (sameHead_withRow t key).length_text_le (prefix_withRow t key) d
    | colFirst => exact le_rfl
  exact hseen.trans (length_text_withColumn _ name d)

/-- **So does its value, if the cell was blank.** -/
theorem Consistent.length_text_put {t : DataTable} (h : t.Consistent) (order : EvalOrder)
    {key colName : Str} (hblank : t.cell (t.coordsOf key colName) = []) (value d : Str) :
    (((DataTable.seenByColumn order t key).withColumn colName).text d).length
      ≤ ((t.put key colName value).text d).length := by
  obtain ⟨hhead, hrows⟩ := seenByColumn_withColumn order t key colName
  refine (hhead.length_text_le hrows d).trans
    (length_text_insertValue (h.coordsOf_fst_lt key colName) ?_ value d)
  rw [cell, withColumn_myRows]
  exact (h.cell_withRow key (Nat.succ_pos _)).trans hblank

end DataTable

/-! ### The old writer and the new one -/

/-- `~DataTableWriter`, as far as the file is concerned. -/
def DataTableWriter.destroy (w : DataTableWriter) : DataTableWriter :=
  if w.myOutStream.isOpen then w.emit ['\n'] else w

/-- The states of the pipe engine that the support looks at, and the others. -/
inductive PipelineState where
  | running
  | finished
  | other
deriving DecidableEq, Repr

/-- `disk` is the content of the file before the first writer is made, and `openable` says whether
the environment lets it be opened. -/
structure DataTableSupport where
  myTable : DataTable := {}
  myFilename : Str
  myWriter : Option DataTableWriter := none
  myClearTableOnPipeFinish : Bool := true
  disk : Disk
  openable : Bool := true

/-- The engine changes its state, or somebody inserts into the table. -/
inductive SupportEvent where
  | stateChanged (newState : PipelineState)
  | insert (order : EvalOrder) (key colName value : Str)
deriving DecidableEq, Repr

namespace DataTableSupport

/-- The file as it is now. -/
def file (s : DataTableSupport) : Disk :=
  match s.myWriter with
  | none => s.disk
  | some w => w.disk

/-- The new writer is made before the old one is destroyed.  The path is that of the old one, too, so
the old writer finds the file as the new one has left it, and the other way round. -/
def createWriter (s : DataTableSupport) : DataTableSupport :=
  if s.myFilename.isEmpty then s
  else
    let w := DataTableWriter.initialise true 50 s.openable s.file
    match s.myWriter with
    | none => { s with myWriter := some w }
    | some old =>
        let old := { old with disk := w.disk }.destroy
        { s with myWriter := some { w with disk := old.disk } }

/-- `myWriter->write()`, if there is a writer. -/
def writeTable (s : DataTableSupport) : Option DataTableSupport :=
  match s.myWriter with
  | none => some s
  | some w => (w.write s.myTable).map fun (_, w) => { s with myWriter := some w }

def notify (s : DataTableSupport) : PipelineState → Option DataTableSupport
  | .running => some s.createWriter
  | .finished => s.writeTable.map fun s =>
      if s.myClearTableOnPipeFinish then { s with myTable := s.myTable.clear } else s
  | .other => some s

/-- An insert into the table, whose listener is the current writer. -/
def insert (s : DataTableSupport) (order : EvalOrder) (key colName value : Str) :
    Option DataTableSupport :=
  match s.myWriter with
  | none => (s.myTable.insert silentListener order () key colName value).map fun (_, t, _) =>
      { s with myTable := t }
  | some w => (s.myTable.insert DataTableWriter.listener order w key colName value).map
      fun (_, t, w) => { s with myTable := t, myWriter := some w }

def step (s : DataTableSupport) : SupportEvent → Option DataTableSupport
  | .stateChanged newState => s.notify newState
  | .insert order key colName value => s.insert order key colName value

end DataTableSupport

/-! ### Writing over something left over -/

namespace DataTableWriter

/-- The last record of a write is that of its table. -/
theorem exists_record_of_write {w w' : DataTableWriter} {t : DataTable}
    (h : w.write t = some (true, w')) :
    ∃ r ∈ w'.history, r.table = t ∧ r.disk = w'.disk ∧ r.pos = w'.myOutStream.pos := by
  rw [write] at h
  split at h
  · simp only [Option.some.injEq, Prod.mk.injEq] at h
    obtain ⟨hok, hw'⟩ := h
    rw [if_pos hok] at hw'
    rw [← hw']
    exact ⟨_, List.mem_append_right _ (List.mem_singleton.mpr rfl), rfl, rfl, rfl⟩
  · obtain ⟨w'', _, hw'⟩ := Option.map_eq_some_iff.mp h
    simp only [Prod.mk.injEq, true_and] at hw'
    rw [← hw']
    exact ⟨_, List.mem_append_right _ (List.mem_singleton.mpr rfl), rfl, rfl, rfl⟩

/-- What holds of a writer that has found `junk` in its file, while the text of the table only grows:
it has written from the start to its put position, which is not behind the end of the text, and the
rest is still there. -/
structure Covers (junk : Str) (t : DataTable) (notes : List Str) (w : DataTableWriter) (f : Str) :
    Prop where
  notes_eq : notes = t.myTableNotes
  live : w.Live f
  marker : w.myWriteMarker = 0
  pos_le : w.myOutStream.pos ≤ (t.text myColumnDelimiter).length
  rest : f.drop w.myOutStream.pos = junk.drop w.myOutStream.pos
  records : ∀ r ∈ w.history, r.pos = (r.table.text myColumnDelimiter).length ∧
    r.disk = some (r.table.text myColumnDelimiter
      ++ junk.drop (r.table.text myColumnDelimiter).length)

/-- **A write covers the file up to the end of the text.** -/
theorem Covers.record {junk : Str} {t : DataTable} {notes : List Str} {w w' : DataTableWriter}
    {f bs : Str} (h : Covers junk t notes w f) (hw : w.Completes w' t f bs) :
    Covers junk t t.myTableNotes (w'.record t w) (overwrite NUL f w.startPos bs) := by
  have hpos : w'.myOutStream.pos = (t.text myColumnDelimiter).length :=
    (hw.length_text h.marker).symm
  have hrest : (overwrite NUL f w.startPos bs).drop w'.myOutStream.pos
      = junk.drop w'.myOutStream.pos := by
    have hle : w.myOutStream.pos ≤ w'.myOutStream.pos := hpos ▸ h.pos_le
    calc (overwrite NUL f w.startPos bs).drop w'.myOutStream.pos
        = f.drop w'.myOutStream.pos := by rw [hw.pos, drop_overwrite NUL h.live.startPos_le]
      _ = (f.drop w.myOutStream.pos).drop (w'.myOutStream.pos - w.myOutStream.pos) := by
          rw [List.drop_drop, Nat.add_sub_cancel' hle]
      _ = junk.drop w'.myOutStream.pos := by
          rw [h.rest, List.drop_drop, Nat.add_sub_cancel' hle]
  have htake : (overwrite NUL f w.startPos bs).take w'.myOutStream.pos
      = t.text myColumnDelimiter := by
    rw [← hw.written, written, hw.marker, h.marker]
    rfl
  have hfile : w'.disk = some (t.text myColumnDelimiter
      ++ junk.drop (t.text myColumnDelimiter).length) := by
    rw [hw.live.disk, ← List.take_append_drop w'.myOutStream.pos (overwrite NUL f w.startPos bs),
      htake, hrest, hpos]
  refine ⟨rfl, hw.live_record, hw.marker.trans h.marker, hpos.le, hrest, fun r hr => ?_⟩
  rcases (hw.mem_history r).mp hr with hr | rfl
  · exact h.records r hr
  · exact ⟨hpos, hfile⟩

theorem keeps_covers (junk : Str) : Keeps (Covers junk) where
  live := Covers.live
  countData h _ := ⟨h.notes_eq, ⟨h.live.isOpen, h.live.good, h.live.disk, h.live.marker_le,
    h.live.pos_le⟩, h.marker, h.pos_le, h.rest, h.records⟩
  requireFullWrite h := ⟨h.notes_eq, ⟨h.live.isOpen, h.live.good, h.live.disk, h.live.marker_le,
    h.live.pos_le⟩, h.marker, h.pos_le, h.rest, h.records⟩
  full h _ hw := h.record hw
  incremental := by
    intro t notes w w' f bs h _ _ hw
    rw [h.notes_eq] at hw ⊢
    exact h.record hw

end DataTableWriter

/-! ### Runs of the pipe -/

/-- An insert of a run. -/
structure Insertion where
  order : EvalOrder
  key : Str
  colName : Str
  value : Str
deriving DecidableEq, Repr

/-- The table of a run, before it is cleared. -/
def tableOf (inserts : List Insertion) : DataTable :=
  inserts.foldl (fun t i => t.put i.key i.colName i.value) {}

/-- No cell is overwritten. -/
def Fresh (inserts : List Insertion) : Prop := (inserts.map fun i => (i.key, i.colName)).Nodup

instance (inserts : List Insertion) : Decidable (Fresh inserts) :=
  inferInstanceAs (Decidable (List.Nodup _))

/-- What a run does before the pipe has finished. -/
def runningEvents (inserts : List Insertion) : List SupportEvent :=
  .stateChanged .running :: inserts.map fun i => .insert i.order i.key i.colName i.value

/-- A whole run. -/
def runEvents (inserts : List Insertion) : List SupportEvent :=
  runningEvents inserts ++ [.stateChanged .finished]

/-- What the destructor of the writer before leaves in the file of a new writer, if its put position
was `length`: zero bytes up to there, then a newline. -/
def leftover : Option ℕ → Str
  | none => []
  | some length => List.replicate length DataTableWriter.NUL ++ ['\n']

namespace DataTableSupport

/-- A support with a file name that clears its table. -/
structure Settings (s : DataTableSupport) : Prop where
  filename : s.myFilename ≠ []
  clears : s.myClearTableOnPipeFinish = true
  openable : s.openable = true

/-- Between two runs: the table is empty, and `length` is the put position of the last writer. -/
structure Idle (length : Option ℕ) (s : DataTableSupport) : Prop extends Settings s where
  table : s.myTable = {}
  live : ∀ w ∈ s.myWriter, ∃ f, w.Live f
  length_eq : s.myWriter.map (fun w => w.myOutStream.pos) = length

/-- In a run that has found `junk` in the file and has written the cells `done`. -/
structure InRun (junk : Str) (done : List (Str × Str)) (s : DataTableSupport) : Prop extends
    Settings s where
  consistent : s.myTable.Consistent
  blank : ∀ key colName, (key, colName) ∉ done →
    s.myTable.cell (s.myTable.coordsOf key colName) = []
  writer : ∃ w notes f, s.myWriter = some w ∧ DataTableWriter.Covers junk s.myTable notes w f ∧
    w.Tracks (s.myTable.withNotes notes) f

/-- **Two writers for a moment.**  The new writer finds what the old one leaves in the file. -/
theorem Idle.createWriter_eq {length : Option ℕ} {s : DataTableSupport} (h : Idle length s) :
    s.createWriter = { s with myWriter := some { DataTableWriter.initialise true 50 true s.file with
      disk := some (leftover length) } } := by
  obtain ⟨hsound, _⟩ := DataTableWriter.sound_initialise true 50 s.file
  have hfilename : s.myFilename.isEmpty = false := by simpa using h.filename
  rw [createWriter, h.openable, hfilename]
  cases hwriter : s.myWriter with
  | none =>
      rw [← h.length_eq, hwriter, Option.map_none, leftover, ← hsound.live.disk]
      rfl
  | some old =>
      obtain ⟨f, hlive⟩ := h.live old hwriter
      have hold : ({ old with disk := some [] } : DataTableWriter).destroy.disk
          = some (leftover (some old.myOutStream.pos)) := by
        rw [DataTableWriter.destroy, if_pos hlive.isOpen, DataTableWriter.emit, if_pos hlive.good]
        simp [overwrite, leftover]
      rw [← h.length_eq, hwriter, Option.map_some, ← hold, ← hsound.live.disk]
      rfl

/-- **A run starts.** -/
theorem Idle.running {length : Option ℕ} {s : DataTableSupport} (h : Idle length s) :
    ∃ s', s.step (.stateChanged .running) = some s' ∧ InRun (leftover length) [] s' ∧
      s'.myTable = {} := by
  obtain ⟨hsound, hfull, hhistory⟩ := DataTableWriter.sound_initialise true 50 s.file
  have hpos : (DataTableWriter.initialise true 50 true s.file).myOutStream.pos = 0 :=
    Nat.le_zero.mp hsound.live.pos_le
  refine ⟨s.createWriter, rfl, ?_, by rw [h.createWriter_eq, h.table]⟩
  rw [h.createWriter_eq]
  refine ⟨⟨h.filename, h.clears, h.openable⟩, ?_, fun key colName _ => ?_, _, [], leftover length,
    rfl, ?_, Or.inl hfull⟩
  · show s.myTable.Consistent
    rw [h.table]
    exact DataTable.consistent_empty
  · show s.myTable.cell _ = []
    rw [h.table]
    exact DataTable.cell_of_numRows_le (Nat.zero_le _)
  · rw [h.table]
    refine ⟨rfl, ⟨hsound.live.isOpen, hsound.live.good, rfl, hsound.live.marker_le, ?_⟩,
      hsound.marker, ?_, rfl, ?_⟩
    · exact hpos ▸ Nat.zero_le _
    · exact hpos ▸ Nat.zero_le _
    · intro r hr
      rw [show _ = [] from hhistory] at hr
      exact absurd hr List.not_mem_nil

/-- **An insert into a blank cell.** -/
theorem InRun.insert {junk : Str} {done : List (Str × Str)} {s : DataTableSupport}
    (h : InRun junk done s) (i : Insertion) (hnew : (i.key, i.colName) ∉ done) :
    ∃ s', s.step (.insert i.order i.key i.colName i.value) = some s' ∧
      InRun junk ((i.key, i.colName) :: done) s' ∧
      s'.myTable = s.myTable.put i.key i.colName i.value := by
  obtain ⟨hsettings, ht, hblank, w, notes, f, hw, hcovers, htracks⟩ := h
  have hnotes := DataTable.seenByColumn_notes i.order s.myTable i.key i.colName
  obtain ⟨w', notes', f', hw', hcovers', htracks'⟩ :=
    (DataTableWriter.keeps_covers junk).insert hcovers ht i.order i.key i.colName i.value
      (fun _ => htracks)
      (fun hJ _ => ⟨hJ.notes_eq.trans hnotes.symm, hJ.live, hJ.marker,
        hJ.pos_le.trans (DataTable.length_text_seenByColumn _ _ _ _ _), hJ.rest, hJ.records⟩)
      (fun hJ => ⟨hJ.notes_eq.trans (hnotes.trans (ht.put_notes _ _ _).symm), hJ.live, hJ.marker,
        hJ.pos_le.trans (ht.length_text_put i.order (hblank _ _ hnew) _ _), hJ.rest, hJ.records⟩)
  refine ⟨{ s with myTable := s.myTable.put i.key i.colName i.value, myWriter := some w' }, ?_,
    ⟨⟨hsettings.filename, hsettings.clears, hsettings.openable⟩, ht.put _ _ _, ?_, w', notes', f',
      rfl, hcovers', htracks'⟩, rfl⟩
  · simp only [step, DataTableSupport.insert, hw, hw', Option.map_some]
  · intro key colName hnotin
    have hne : (key, colName) ≠ (i.key, i.colName) := fun heq => hnotin (heq ▸ List.mem_cons_self)
    exact (ht.cell_coordsOf_put hne i.value).trans
      (hblank key colName fun hmem => hnotin (List.mem_cons_of_mem _ hmem))

/-- The inserts of a run, one after the other. -/
theorem InRun.inserts {junk : Str} {done : List (Str × Str)} {s : DataTableSupport}
    (h : InRun junk done s) (inserts : List Insertion) (hfresh : Fresh inserts)
    (hdone : ∀ i ∈ inserts, (i.key, i.colName) ∉ done) :
    ∃ s' done', run step s (inserts.map fun i => .insert i.order i.key i.colName i.value) = some s' ∧
      InRun junk done' s' ∧
      s'.myTable = inserts.foldl (fun t i => t.put i.key i.colName i.value) s.myTable := by
  induction inserts generalizing s done with
  | nil => exact ⟨s, done, rfl, h, rfl⟩
  | cons i inserts ih =>
      rw [Fresh, List.map_cons, List.nodup_cons] at hfresh
      obtain ⟨s₁, hs₁, hin₁, htable₁⟩ := h.insert i (hdone i List.mem_cons_self)
      obtain ⟨s₂, done₂, hs₂, hin₂, htable₂⟩ := ih hin₁ hfresh.2 fun j hj hmem => by
        rcases List.mem_cons.mp hmem with heq | hmem
        · exact hfresh.1 (heq ▸ List.mem_map_of_mem hj)
        · exact hdone j (List.mem_cons_of_mem _ hj) hmem
      refine ⟨s₂, done₂, ?_, hin₂, ?_⟩
      · rw [List.map_cons, run_cons, hs₁]
        exact hs₂
      · rw [htable₂, htable₁]
        rfl

/-- **The pipe has finished.**  The text of the table covers what was left over as far as it goes. -/
theorem InRun.finished {junk : Str} {done : List (Str × Str)} {s : DataTableSupport}
    (h : InRun junk done s) :
    ∃ s' w, s.step (.stateChanged .finished) = some s' ∧ s'.myWriter = some w ∧
      w.myWriteMarker = 0 ∧ w.disk = some (s.myTable.text [' ']
        ++ junk.drop (s.myTable.text [' ']).length) ∧
      Idle (some (s.myTable.text [' ']).length) s' := by
  obtain ⟨hsettings, ht, hblank, w, notes, f, hw, hcovers, htracks⟩ := h
  obtain ⟨w', notes', f', hw', hcovers', _⟩ :=
    (DataTableWriter.keeps_covers junk).write hcovers ht htracks
  obtain ⟨r, hr, htable, hdisk, hpos⟩ := DataTableWriter.exists_record_of_write hw'
  obtain ⟨hpos', hdisk'⟩ := hcovers'.records r hr
  rw [htable] at hpos' hdisk'
  refine ⟨{ s with myTable := {}, myWriter := some w' }, w', ?_, rfl, hcovers'.marker,
    hdisk.symm.trans hdisk', ⟨hsettings.filename, hsettings.clears, hsettings.openable⟩, rfl, ?_, ?_⟩
  · simp only [step, notify, writeTable, hw, hw', Option.map_some, hsettings.clears, if_true,
      DataTable.clear]
  · intro v hv
    exact ⟨f', Option.some.inj hv ▸ hcovers'.live⟩
  · exact congrArg some (hpos.symm.trans hpos')

/-- **One run.** -/
theorem Idle.run {length : Option ℕ} {s : DataTableSupport} (h : Idle length s)
    {inserts : List Insertion} (hfresh : Fresh inserts) :
    ∃ s₁ s₂ w, StepRuns.run step s (runningEvents inserts) = some s₁ ∧
      s₁.myTable = tableOf inserts ∧ s₁.step (.stateChanged .finished) = some s₂ ∧
      s₂.myWriter = some w ∧ w.myWriteMarker = 0 ∧
      w.disk = some ((tableOf inserts).text [' ']
        ++ (leftover length).drop ((tableOf inserts).text [' ']).length) ∧
      Idle (some ((tableOf inserts).text [' ']).length) s₂ := by
  obtain ⟨s₀, hs₀, hin₀, htable₀⟩ := h.running
  obtain ⟨s₁, done, hs₁, hin₁, htable₁⟩ := hin₀.inserts inserts hfresh fun _ _ => List.not_mem_nil
  obtain ⟨s₂, w, hs₂, hw, hmarker, hdisk, hidle⟩ := hin₁.finished
  rw [htable₀] at htable₁
  have htable : s₁.myTable = tableOf inserts := htable₁
  rw [htable] at hdisk hidle
  refine ⟨s₁, s₂, w, ?_, htable, hs₂, hw, hmarker, hdisk, hidle⟩
  rw [runningEvents, run_cons, hs₀]
  exact hs₁

/-- **All runs so far.** -/
theorem Idle.runs {s : DataTableSupport} (h : Idle none s) (runs : List (List Insertion))
    (hfresh : ∀ inserts ∈ runs, Fresh inserts) :
    ∃ s', StepRuns.run step s (runs.flatMap runEvents) = some s' ∧
      Idle (runs.getLast?.map fun inserts => ((tableOf inserts).text [' ']).length) s' := by
  induction runs using List.reverseRecOn with
  | nil => exact ⟨s, rfl, h⟩
  | append_singleton runs inserts ih =>
      obtain ⟨s₀, hs₀, hidle₀⟩ := ih fun inserts hmem => hfresh inserts (List.mem_append_left _ hmem)
      obtain ⟨s₁, s₂, w, hs₁, _, hs₂, _, _, _, hidle⟩ := hidle₀.run (hfresh inserts (by simp))
      refine ⟨s₂, ?_, by rwa [List.getLast?_concat, Option.map_some]⟩
      rw [List.flatMap_append, run_append, hs₀, List.flatMap_singleton, runEvents, Option.bind_some,
        run_append, hs₁, Option.bind_some, run_cons, hs₂]
      rfl

end DataTableSupport

/-! ### What is left over shows -/

/-- Nothing is left behind a text that is longer. -/
theorem drop_leftover_eq_nil_iff (length : Option ℕ) (n : ℕ) :
    (leftover length).drop n = [] ↔ ∀ m ∈ length, m < n := by
  rw [List.drop_eq_nil_iff]
  cases length with
  | none => simp [leftover]
  | some m => simp [leftover]

/-- At most the newline is left behind a text that is not shorter. -/
theorem drop_leftover_newline_iff (length : Option ℕ) (n : ℕ) :
    (leftover length).drop n = [] ∨ (leftover length).drop n = ['\n'] ↔ ∀ m ∈ length, m ≤ n := by
  cases length with
  | none => simp [leftover]
  | some m =>
      have hdrop : (leftover (some m)).length = m + 1 := by simp [leftover]
      simp only [Option.mem_def, Option.some.injEq, forall_eq']
      constructor
      · intro h
        have hlen : ((leftover (some m)).drop n).length ≤ 1 := by
          rcases h with h | h <;> rw [h] <;> simp
        rw [List.length_drop, hdrop] at hlen
        omega
      · intro hle
        rcases Nat.lt_or_eq_of_le hle with hlt | rfl
        · left
          rw [List.drop_eq_nil_iff, hdrop]
          exact hlt
        · right
          simp [leftover]

/-- **When the summary file is that of its run.**  A support with a file name makes any number of runs
in which no cell is overwritten.  After each of them the file from the write marker on is the text of
the table as it was before it was cleared, with at most one newline behind it, if and only if the
text of the run before was not longer; and it is this text alone, with nothing of the writer before,
if and only if that text was shorter. -/
theorem summary_file_iff (filename : Str) (hfilename : filename ≠ []) (disk : Disk)
    (runs : List (List Insertion)) (inserts : List Insertion)
    (hfresh : ∀ run ∈ runs ++ [inserts], Fresh run) :
    ∃ s₁ s₂ w, run DataTableSupport.step { myFilename := filename, disk := disk }
        (runs.flatMap runEvents ++ runningEvents inserts) = some s₁ ∧
      s₁.myTable = tableOf inserts ∧
      s₁.step (.stateChanged .finished) = some s₂ ∧ s₂.myWriter = some w ∧
      ((w.disk.getD []).drop w.myWriteMarker = s₁.myTable.text [' '] ∨
          (w.disk.getD []).drop w.myWriteMarker = s₁.myTable.text [' '] ++ ['\n'] ↔
        ∀ previous ∈ runs.getLast?,
          ((tableOf previous).text [' ']).length ≤ (s₁.myTable.text [' ']).length) ∧
      ((w.disk.getD []).drop w.myWriteMarker = s₁.myTable.text [' '] ↔
        ∀ previous ∈ runs.getLast?,
          ((tableOf previous).text [' ']).length < (s₁.myTable.text [' ']).length) := by
  have hidle : DataTableSupport.Idle none { myFilename := filename, disk := disk } :=
    ⟨⟨hfilename, rfl, rfl⟩, rfl, fun w hw => absurd hw (by simp), rfl⟩
  obtain ⟨s₀, hs₀, hidle₀⟩ := hidle.runs runs fun run hmem => hfresh run (List.mem_append_left _ hmem)
  obtain ⟨s₁, s₂, w, hs₁, htable, hs₂, hw, hmarker, hdisk, _⟩ := hidle₀.run (hfresh inserts (by simp))
  refine ⟨s₁, s₂, w, by rw [run_append, hs₀]; exact hs₁, htable, hs₂, hw, ?_, ?_⟩
  · rw [hmarker, List.drop_zero, hdisk, Option.getD_some, htable, List.append_right_eq_self,
      List.append_cancel_left_eq, drop_leftover_newline_iff]
    simp
  · rw [hmarker, List.drop_zero, hdisk, Option.getD_some, htable, List.append_right_eq_self,
      drop_leftover_eq_nil_iff]
    simp

/-- A run with one row, then a run with a longer one. -/
theorem summary_file_iff_at :
    ∃ s₁ s₂ w, run DataTableSupport.step { myFilename := ['f'], disk := some ['o', 'l', 'd'] }
        (runEvents [⟨.rowFirst, ['a'], ['x'], ['1']⟩]
          ++ runningEvents [⟨.colFirst, ['b'], ['x'], ['2', '3']⟩]) = some s₁ ∧
      s₁.step (.stateChanged .finished) = some s₂ ∧ s₂.myWriter = some w ∧
      (w.disk.getD []).drop w.myWriteMarker = s₁.myTable.text [' '] := by
  obtain ⟨s₁, s₂, w, hs₁, htable, hs₂, hw, _, halone⟩ := summary_file_iff ['f'] (by simp)
    (some ['o', 'l', 'd']) [[⟨.rowFirst, ['a'], ['x'], ['1']⟩]] [⟨.colFirst, ['b'], ['x'], ['2', '3']⟩]
    (by decide)
  refine ⟨s₁, s₂, w, hs₁, hs₂, hw, halone.mpr ?_⟩
  rw [htable]
  decide

/-- **The newline of the run before corrupts the file.**  The second run inserts nothing, so that its
text is the header alone; behind it come zero bytes and the newline of the destructor. -/
theorem shorter_run_keeps_leftover :
    ∃ s₁ s₂ w, run DataTableSupport.step { myFilename := ['f'], disk := none }
        (runEvents [⟨.rowFirst, ['a'], ['x'], ['1']⟩] ++ runningEvents []) = some s₁ ∧
      s₁.step (.stateChanged .finished) = some s₂ ∧ s₂.myWriter = some w ∧
      s₁.myTable.text [' '] = "# [key]".toList ∧
      (w.disk.getD []).drop w.myWriteMarker
        = "# [key]".toList ++ List.replicate 6 DataTableWriter.NUL ++ ['\n'] ∧
      (w.disk.getD []).drop w.myWriteMarker ≠ s₁.myTable.text [' '] ∧
      (w.disk.getD []).drop w.myWriteMarker ≠ s₁.myTable.text [' '] ++ ['\n'] :=
  ⟨_, _, _, rfl, rfl, rfl, rfl, rfl, by decide, by decide⟩

end StructurePipe.Utility
