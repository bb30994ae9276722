import StructurePipe.Utility.DataTableWriterSession

/-!
# The calls of `write()`

`write()` is called from outside and from both callbacks, so one insert may call it twice.  To speak
of every call, in whatever state it is entered, the writer is watched: `Watched.listener` does what the
writer does as a listener, and keeps the list of the calls.  It goes on when a call gets stuck, so no
call is missed.

The two paths share their bookkeeping.  It does not depend on what reaches the file, only on whether
the stream is there to write to (`ready`).

* `write_full`, `write_incremental` — **the bookkeeping after a write**, on any stream;
* `Session.step_insert`, `Session.writeCalls_insert` — what an insert leaves and which calls it makes,
  both read off one watched run of its two messages;
* `forall_calls_writeIfDue` — what holds of every call of a message.
-/

namespace StructurePipe.Utility

open StepRuns

namespace DataTableWriter

/-! ### The bookkeeping of a write -/

/-- The three fields that say what has been written and what has not. -/
structure Bookkeeping where
  myLastWriteCoords : Coords
  myFullWriteRequired : Bool
  myDataSinceWrite : ℕ
deriving DecidableEq, Repr

def books (w : DataTableWriter) : Bookkeeping :=
  ⟨w.myLastWriteCoords, w.myFullWriteRequired, w.myDataSinceWrite⟩

/-- The stream is good, or is closed and can be opened again. -/
def ready (w : DataTableWriter) : Bool :=
  if w.myOutStream.isOpen then w.myOutStream.good else w.myOutStream.openable && w.disk.isSome

@[simp] theorem ready_countData (w : DataTableWriter) (n : ℕ) : (w.countData n).ready = w.ready := rfl

@[simp] theorem ready_requireFullWrite (w : DataTableWriter) :
    w.requireFullWrite.ready = w.ready := rfl

/-- The check of the coordinates leaves all but the flag alone. -/
theorem checkCoords_rest (w : DataTableWriter) (c : Coords) :
    (w.checkCoords c).myDataSinceWrite = w.myDataSinceWrite ∧
      (w.checkCoords c).myWriteDelay = w.myWriteDelay ∧
      (w.checkCoords c).history = w.history ∧ (w.checkCoords c).ready = w.ready := by
  rw [checkCoords]
  split <;> exact ⟨rfl, rfl, rfl, rfl⟩

@[simp] theorem ready_checkCoords (w : DataTableWriter) (c : Coords) :
    (w.checkCoords c).ready = w.ready := (w.checkCoords_rest c).2.2.2

@[simp] theorem books_emit (w : DataTableWriter) (bs : Str) : (w.emit bs).books = w.books := by
  rw [emit]
  split <;> rfl

@[simp] theorem ready_emit (w : DataTableWriter) (bs : Str) : (w.emit bs).ready = w.ready := by
  rw [emit]
  split
  · simp [ready]
  · rfl

theorem books_setWidth (w : DataTableWriter) (n : ℕ) :
    (w.setWidth n).books = { w.books with myLastWriteCoords := (w.books.myLastWriteCoords.1, n) } := rfl

/-- The row loop remembers the width of the last row. -/
theorem books_writeRows (w : DataTableWriter) (rows : List (List Str)) :
    (w.writeRows rows).books = { w.books with myLastWriteCoords :=
      (w.books.myLastWriteCoords.1, lastWidth rows w.books.myLastWriteCoords.2) } := by
  induction rows generalizing w with
  | nil => rfl
  | cons row rows ih =>
      calc (w.writeRows (row :: rows)).books
          = (((w.emit ('\n' :: join row myColumnDelimiter)).setWidth row.length).writeRows rows).books :=
            rfl
        _ = { w.books with myLastWriteCoords :=
              (w.books.myLastWriteCoords.1, lastWidth rows row.length) } := by
            rw [ih, books_setWidth, books_emit]
        _ = _ := rfl

/-- A full write opens the stream if it is closed. -/
def reopen (w : DataTableWriter) : DataTableWriter :=
  if w.myOutStream.isOpen then w else (w.openStream .outIn).saveMarker

theorem writeFull_eq (w : DataTableWriter) (t : DataTable) :
    w.writeFull t =
      if w.resetCounter.reopen.myOutStream.good then
        (true, ((((w.resetCounter.reopen.seekp w.resetCounter.reopen.myWriteMarker).emit
          (t.headerText myColumnDelimiter)).emit t.notesText).writeRows t.myRows).upToDate t)
      else (false, w.resetCounter.reopen) := rfl

theorem reopen_spec (w : DataTableWriter) :
    w.reopen.myOutStream.good = w.ready ∧ w.reopen.books = w.books ∧ w.reopen.ready = w.ready := by
  rw [reopen]
  cases hopen : w.myOutStream.isOpen with
  | true => simp [ready, hopen]
  | false =>
      cases hopenable : w.myOutStream.openable with
      | false => simp [ready, openStream, saveMarker, books, hopen, hopenable]
      | true =>
          cases hdisk : w.disk with
          | none => simp [ready, openStream, saveMarker, books, hopen, hopenable, hdisk, OpenMode.openAt]
          | some f => simp [ready, openStream, saveMarker, books, hopen, hopenable, hdisk, OpenMode.openAt]

/-- **The bookkeeping of a full write.**  It is done if the stream is ready; if not, the counter alone
is reset. -/
theorem write_full {w : DataTableWriter} (t : DataTable) (hfull : w.myFullWriteRequired = true) :
    ∃ w', w.write t = some (w.ready, w') ∧
      w'.books = if w.ready then
        ⟨(sizePred t.numRows, lastWidth t.myRows w.myLastWriteCoords.2), false, 0⟩
      else { w.books with myDataSinceWrite := 0 } := by
  have hready : w.resetCounter.ready = w.ready := rfl
  have hreset : w.resetCounter.books = { w.books with myDataSinceWrite := 0 } := rfl
  obtain ⟨hgood, hbooks, _⟩ := w.resetCounter.reopen_spec
  rw [hready] at hgood
  rw [hreset] at hbooks
  generalize hv : w.resetCounter.reopen = v at hgood hbooks
  rw [write, if_pos hfull, writeFull_eq, hv, hgood]
  cases hw : w.ready with
  | false => exact ⟨v, rfl, hbooks⟩
  | true =>
      have hrows := books_writeRows (((v.seekp v.myWriteMarker).emit
        (t.headerText myColumnDelimiter)).emit t.notesText) t.myRows
      have hseek : (v.seekp v.myWriteMarker).books = v.books := rfl
      rw [books_emit, books_emit, hseek, hbooks] at hrows
      generalize hu : (((v.seekp v.myWriteMarker).emit (t.headerText myColumnDelimiter)).emit
        t.notesText).writeRows t.myRows = u at hrows
      refine ⟨(u.upToDate t).record t w, rfl, ?_⟩
      calc ((u.upToDate t).record t w).books
          = ⟨(sizePred t.numRows, u.books.myLastWriteCoords.2), false, u.books.myDataSinceWrite⟩ :=
            rfl
        _ = _ := by
            rw [hrows]
            rfl

/-- The state of an incremental write before its row loop. -/
def printRemainder (w : DataTableWriter) (coords : Coords) (row : List Str) : DataTableWriter :=
  if 0 < w.resetCounter.myLastWriteCoords.2 ∧ w.resetCounter.myLastWriteCoords.2 < row.length then
    (w.resetCounter.emit (myColumnDelimiter ++ join (row.drop coords.2) myColumnDelimiter)).setWidth
      row.length
  else w.resetCounter

theorem writeFrom_eq (w : DataTableWriter) (t : DataTable) (coords : Coords) :
    w.writeFrom t coords = t.myRows[coords.1]?.map fun row =>
      ((w.printRemainder coords row).writeRows (t.myRows.drop (coords.1 + 1))).upToDate t := rfl

theorem books_printRemainder {w : DataTableWriter} (coords : Coords) {row : List Str}
    (hpos : 0 < w.myLastWriteCoords.2) (hle : w.myLastWriteCoords.2 ≤ row.length) :
    (w.printRemainder coords row).books
      = ⟨(w.myLastWriteCoords.1, row.length), w.myFullWriteRequired, 0⟩ := by
  have hreset : w.resetCounter.myLastWriteCoords = w.myLastWriteCoords := rfl
  rw [printRemainder, hreset]
  split
  · rw [books_setWidth, books_emit]
    rfl
  · have hwidth : row.length = w.myLastWriteCoords.2 := by omega
    rw [books, hreset, hwidth]
    rfl

/-- **The bookkeeping of an incremental write**, which does not ask whether the stream is ready.  The
start row must exist. -/
theorem write_incremental {w : DataTableWriter} {t : DataTable} (hfull : w.myFullWriteRequired = false)
    {row : List Str} (hrow : t.myRows[w.myLastWriteCoords.1]? = some row)
    (hpos : 0 < w.myLastWriteCoords.2) (hle : w.myLastWriteCoords.2 ≤ row.length) :
    ∃ w', w.write t = some (true, w') ∧
      w'.books = ⟨(sizePred t.numRows,
        lastWidth (t.myRows.drop (w.myLastWriteCoords.1 + 1)) row.length), false, 0⟩ := by
  have hrows := (w.printRemainder w.myLastWriteCoords row).books_writeRows
    (t.myRows.drop (w.myLastWriteCoords.1 + 1))
  rw [books_printRemainder _ hpos hle] at hrows
  generalize hv : (w.printRemainder w.myLastWriteCoords row).writeRows
    (t.myRows.drop (w.myLastWriteCoords.1 + 1)) = v at hrows
  refine ⟨(v.upToDate t).record t w, ?_, ?_⟩
  · rw [write, if_neg (by simp [hfull]), writeFrom_eq, hrow, Option.map_some, hv, Option.map_some]
  · calc ((v.upToDate t).record t w).books
        = ⟨(sizePred t.numRows, v.books.myLastWriteCoords.2), false, v.books.myDataSinceWrite⟩ := rfl
      _ = _ := by rw [hrows]

/-! ### What every write keeps -/

/-- A property of the stream, its file and the delay that the parts of a write keep. -/
structure Lasting (P : DataTableWriter → Prop) : Prop where
  books : ∀ {w w'}, P w → w'.disk = w.disk → w'.myOutStream = w.myOutStream →
    w'.myWriteMarker = w.myWriteMarker → w'.myWriteDelay = w.myWriteDelay → P w'
  emit : ∀ {w}, P w → ∀ bs, P (w.emit bs)
  seek : ∀ {w}, P w → P (w.seekp w.myWriteMarker)
  reopen : ∀ {w}, P w → P w.reopen

namespace Lasting

variable {P : DataTableWriter → Prop} {w w' : DataTableWriter} {t : DataTable}

theorem writeRows (L : Lasting P) (h : P w) (rows : List (List Str)) : P (w.writeRows rows) := by
  induction rows generalizing w with
  | nil => exact h
  | cons row rows ih => exact ih (L.books (L.emit h _) rfl rfl rfl rfl)

theorem writeFull (L : Lasting P) (h : P w) (t : DataTable) : P (w.writeFull t).2 := by
  have hreopen : P w.resetCounter.reopen := L.reopen (L.books h rfl rfl rfl rfl)
  rw [writeFull_eq]
  split
  · exact L.books (L.writeRows (L.emit (L.emit (L.seek hreopen) _) _) t.myRows) rfl rfl rfl rfl
  · exact hreopen

theorem writeFrom (L : Lasting P) (h : P w) {coords : Coords} (hw' : w.writeFrom t coords = some w') :
    P w' := by
  have hreset : P w.resetCounter := L.books h rfl rfl rfl rfl
  rw [writeFrom_eq] at hw'
  obtain ⟨row, _, rfl⟩ := Option.map_eq_some_iff.mp hw'
  refine L.books (L.writeRows (?_ : P (w.printRemainder coords row)) _) rfl rfl rfl rfl
  rw [printRemainder]
  split
  · exact L.books (L.emit hreset _) rfl rfl rfl rfl
  · exact hreset

/-- **Every write keeps it**, whatever becomes of the write. -/
theorem write (L : Lasting P) (h : P w) {ok : Bool} (hw' : w.write t = some (ok, w')) : P w' := by
  rw [DataTableWriter.write] at hw'
  split at hw'
  · have heq : (if (w.writeFull t).1 then (w.writeFull t).2.record t w else (w.writeFull t).2) = w' :=
      congrArg Prod.snd (Option.some.inj hw')
    rw [← heq]
    split
    · exact L.books (L.writeFull h t) rfl rfl rfl rfl
    · exact L.writeFull h t
  · obtain ⟨v, hv, hvw⟩ := Option.map_eq_some_iff.mp hw'
    obtain ⟨_, rfl⟩ := Prod.mk.inj hvw
    exact L.books (L.writeFrom h hv) rfl rfl rfl rfl

theorem writeIfDue (L : Lasting P) (h : P w) (hw' : w.writeIfDue t = some w') : P w' := by
  rw [DataTableWriter.writeIfDue] at hw'
  split at hw'
  · obtain ⟨⟨ok, v⟩, hv, rfl⟩ := Option.map_eq_some_iff.mp hw'
    exact L.write h hv
  · exact Option.some.inj hw' ▸ h

theorem countData (L : Lasting P) (h : P w) (n : ℕ) : P (w.countData n) := L.books h rfl rfl rfl rfl

theorem requireFullWrite (L : Lasting P) (h : P w) : P w.requireFullWrite := L.books h rfl rfl rfl rfl

theorem checkCoords (L : Lasting P) (h : P w) (c : Coords) : P (w.checkCoords c) := by
  rw [DataTableWriter.checkCoords]
  split
  · exact L.requireFullWrite h
  · exact h

end Lasting

/-- Whether the stream is there to write to. -/
theorem lasting_ready (b : Bool) : Lasting fun w => w.ready = b where
  books := by
    intro w w' h hdisk hstream _ _
    rwa [ready, hdisk, hstream]
  emit h bs := (ready_emit _ bs).trans h
  seek h := h
  reopen h := (reopen_spec _).2.2.trans h

/-- The delay is a constant. -/
theorem lasting_delay (n : ℕ) : Lasting fun w => w.myWriteDelay = n where
  books h _ _ _ hdelay := hdelay.trans h
  emit := by
    intro w h bs
    rw [emit]
    split <;> exact h
  seek h := h
  reopen := by
    intro w h
    rw [reopen, openStream]
    split
    · exact h
    · split <;> exact h

/-- **A write that has somewhere to go is done**, and nothing is left to count. -/
theorem write_done {w w' : DataTableWriter} {t : DataTable} {ok : Bool} (hready : w.ready = true)
    (h : w.write t = some (ok, w')) : ok = true ∧ w'.myDataSinceWrite = 0 := by
  cases hfull : w.myFullWriteRequired with
  | true =>
      obtain ⟨v, hv, hbooks⟩ := write_full t hfull
      rw [hv, hready] at h
      rw [hready, if_pos rfl] at hbooks
      obtain ⟨rfl, rfl⟩ := Prod.mk.inj (Option.some.inj h)
      exact ⟨rfl, congrArg Bookkeeping.myDataSinceWrite hbooks⟩
  | false =>
      rw [write, if_neg (by simp [hfull])] at h
      obtain ⟨v, hv, hvw⟩ := Option.map_eq_some_iff.mp h
      obtain ⟨rfl, rfl⟩ := Prod.mk.inj hvw
      rw [writeFrom_eq] at hv
      obtain ⟨row, _, rfl⟩ := Option.map_eq_some_iff.mp hv
      have hcount : (w.printRemainder w.myLastWriteCoords row).books.myDataSinceWrite = 0 := by
        rw [printRemainder]
        split
        · rw [books_setWidth, books_emit]
          rfl
        · rfl
      have hrows := (w.printRemainder w.myLastWriteCoords row).books_writeRows
        (t.myRows.drop (w.myLastWriteCoords.1 + 1))
      exact ⟨rfl, (congrArg Bookkeeping.myDataSinceWrite hrows).trans hcount⟩

/-! ### The messages -/

theorem listener_value (t : DataTable) (coords : Coords) (oldValue newValue : Str)
    (w : DataTableWriter) :
    listener.onDataTableValueChanged t coords oldValue newValue w
      = ((w.countData (diff oldValue newValue)).checkCoords coords).writeIfDue t := by
  rw [← onDataTableValueChanged, listener]

theorem listener_column (t : DataTable) (index : ℕ) (oldValue newValue : Str)
    (w : DataTableWriter) :
    listener.onDataTableColumnChanged t index oldValue newValue w
      = ((w.countData (diff oldValue newValue)).requireFullWrite).writeIfDue t := by
  rw [← onDataTableColumnChanged.eq_1 t index, listener]

end DataTableWriter

/-! ### Watching the writer -/

/-- A call of `write()`: the table and the writer as it finds them. -/
structure WriteCall where
  table : DataTable
  writer : DataTableWriter

/-- A writer, or none once a call has got stuck, with the calls of `write()` so far. -/
structure Watched where
  writer : Option DataTableWriter
  calls : List WriteCall

namespace Watched

/-- A change of the writer that is not a write. -/
def map (g : DataTableWriter → DataTableWriter) (x : Watched) : Watched :=
  { x with writer := x.writer.map g }

/-- `DataTableWriter.writeIfDue`, watched. -/
def writeIfDue (x : Watched) (t : DataTable) : Watched :=
  match x.writer with
  | none => x
  | some w =>
      if w.myWriteDelay < w.myDataSinceWrite then
        ⟨(w.write t).map Prod.snd, x.calls ++ [⟨t, w⟩]⟩
      else x

/-- `DataTableWriter.listener`, watched. -/
def listener : Listener Watched where
  onDataTableValueChanged t coords oldValue newValue x :=
    some ((x.map fun w => (w.countData (DataTableWriter.diff oldValue newValue)).checkCoords
      coords).writeIfDue t)
  onDataTableColumnChanged t _ oldValue newValue x :=
    some ((x.map fun w => (w.countData (DataTableWriter.diff oldValue newValue)).requireFullWrite
      ).writeIfDue t)

theorem listener_value (t : DataTable) (coords : Coords) (oldValue newValue : Str) (x : Watched) :
    listener.onDataTableValueChanged t coords oldValue newValue x
      = some ((x.map fun w => (w.countData (DataTableWriter.diff oldValue newValue)).checkCoords
          coords).writeIfDue t) := by
  simp only [listener]

theorem listener_column (t : DataTable) (index : ℕ) (oldValue newValue : Str) (x : Watched) :
    listener.onDataTableColumnChanged t index oldValue newValue x
      = some ((x.map fun w => (w.countData (DataTableWriter.diff oldValue newValue)
          ).requireFullWrite).writeIfDue t) := by
  simp only [listener]

@[simp] theorem map_writer (x : Watched) (g : DataTableWriter → DataTableWriter) :
    (x.map g).writer = x.writer.map g := rfl

@[simp] theorem map_calls (x : Watched) (g : DataTableWriter → DataTableWriter) :
    (x.map g).calls = x.calls := rfl

/-- **Watching changes nothing.** -/
theorem writeIfDue_writer (x : Watched) (t : DataTable) :
    (x.writeIfDue t).writer = x.writer.bind fun w => w.writeIfDue t := by
  rw [writeIfDue]
  cases hx : x.writer with
  | none => exact hx
  | some w =>
      simp only [Option.bind_some, DataTableWriter.writeIfDue]
      split
      · rfl
      · exact hx

/-- Within the delay there is no call. -/
theorem writeIfDue_of_le {x : Watched} {w : DataTableWriter} (hx : x.writer = some w)
    (hle : w.myDataSinceWrite ≤ w.myWriteDelay) (t : DataTable) : x.writeIfDue t = x := by
  rw [writeIfDue, hx]
  exact if_neg (by omega)

/-- What holds of every call. -/
theorem forall_calls_writeIfDue (x : Watched) (t : DataTable) (P : WriteCall → Prop) :
    (∀ call ∈ (x.writeIfDue t).calls, P call) ↔
      (∀ call ∈ x.calls, P call) ∧
        ∀ w ∈ x.writer, w.myWriteDelay < w.myDataSinceWrite → P ⟨t, w⟩ := by
  rw [writeIfDue]
  cases hx : x.writer with
  | none => simp
  | some w =>
      by_cases hdue : w.myWriteDelay < w.myDataSinceWrite
      · simp only [hdue, if_true, List.forall_mem_append, List.forall_mem_singleton,
          Option.mem_some_iff, forall_eq', true_imp_iff]
      · simp only [hdue, if_false, Option.mem_some_iff, forall_eq', false_imp_iff, and_true]

/-- A new column that leaves the counter within the delay, after `n` more characters. -/
theorem writeIfDue_column {w : DataTableWriter} (t : DataTable) {n : ℕ}
    (hle : w.myDataSinceWrite + n ≤ w.myWriteDelay) :
    ∃ v, Watched.writeIfDue ⟨some (w.countData n).requireFullWrite, []⟩ t = ⟨some v, []⟩ ∧
      v.ready = w.ready ∧ v.history = w.history ∧
      v.myDataSinceWrite = w.myDataSinceWrite + n ∧ v.myWriteDelay = w.myWriteDelay :=
  ⟨_, Watched.writeIfDue_of_le rfl hle t, rfl, rfl, rfl, rfl⟩

end Watched

namespace Session

/-- The calls of `write()` that a step makes, in their order. -/
def writeCalls (s : Session) : SessionOp → List WriteCall
  | .table op =>
      ((op.apply Watched.listener (s.table, ⟨some s.writer, []⟩)).map fun x => x.2.calls).getD []
  | .write => [⟨s.table, s.writer⟩]
  | .streamFails => []

/-- The column half of an insert: the table is that after `col`. -/
def columnHalf (s : Session) (order : EvalOrder) (key colName : Str) : Watched :=
  if colName ∈ s.table.cols then ⟨some s.writer, []⟩
  else Watched.writeIfDue
    ⟨some (s.writer.countData (DataTableWriter.diff [] colName)).requireFullWrite, []⟩
    ((DataTable.seenByColumn order s.table key).withColumn colName)

/-- What a column adds to the counter. -/
def columnCount (s : Session) (colName : Str) : ℕ :=
  if colName ∈ s.table.cols then 0 else DataTableWriter.diff [] colName

/-- Both halves. -/
def bothHalves (s : Session) (order : EvalOrder) (key colName value : Str) : Watched :=
  ((s.columnHalf order key colName).map fun w =>
    (w.countData (DataTableWriter.diff (s.table.oldValue key colName value) value)).checkCoords
      (s.table.coordsOf key colName)).writeIfDue (s.table.put key colName value)

theorem columnMessage_watched (s : Session) (order : EvalOrder) (key colName : Str) :
    (DataTable.seenByColumn order s.table key).columnMessage Watched.listener ⟨some s.writer, []⟩ colName
      = some (s.columnHalf order key colName) := by
  have hcols := DataTable.seenByColumn_cols order s.table key
  rw [DataTable.columnMessage, columnHalf, hcols]
  by_cases hcol : colName ∈ s.table.cols
  · rw [if_pos hcol, if_pos hcol]
  · rw [if_neg hcol, if_neg hcol, DataTable.withColumn, hcols, if_neg hcol]
    rw [Watched.listener_column]
    rfl

theorem columnMessage_eq (s : Session) (order : EvalOrder) (key colName : Str) :
    (DataTable.seenByColumn order s.table key).columnMessage DataTableWriter.listener s.writer colName
      = (s.columnHalf order key colName).writer := by
  have hcols := DataTable.seenByColumn_cols order s.table key
  rw [DataTable.columnMessage, columnHalf, hcols]
  by_cases hcol : colName ∈ s.table.cols
  · rw [if_pos hcol, if_pos hcol]
  · rw [if_neg hcol, if_neg hcol, DataTable.withColumn, hcols, if_neg hcol, Watched.writeIfDue_writer,
      Option.bind_some, DataTableWriter.listener_column]

/-- The column half of an insert that stays within the delay. -/
theorem columnHalf_of_le {s : Session} (order : EvalOrder) (key : Str) {colName : Str}
    (hle : s.writer.myDataSinceWrite + s.columnCount colName ≤ s.writer.myWriteDelay) :
    ∃ w, s.columnHalf order key colName = ⟨some w, []⟩ ∧ w.ready = s.writer.ready ∧
      w.history = s.writer.history ∧
      w.myDataSinceWrite = s.writer.myDataSinceWrite + s.columnCount colName ∧
      w.myWriteDelay = s.writer.myWriteDelay := by
  rw [columnCount] at hle ⊢
  rw [columnHalf]
  by_cases hcol : colName ∈ s.table.cols
  · rw [if_pos hcol, if_pos hcol]
    exact ⟨s.writer, rfl, rfl, rfl, rfl, rfl⟩
  · rw [if_neg hcol] at hle
    rw [if_neg hcol, if_neg hcol]
    exact Watched.writeIfDue_column _ hle

/-- **What an insert leaves.** -/
theorem step_insert {s : Session} (ht : s.table.Consistent) (order : EvalOrder)
    (key colName value : Str) :
    s.step (.table (.insert order key colName value))
      = (s.bothHalves order key colName value).writer.map
          fun w => ⟨s.table.put key colName value, w⟩ := by
  rw [step, TableOp.apply, ht.insert_eq, columnMessage_eq, bothHalves, Watched.writeIfDue_writer,
    Watched.map_writer]
  cases (s.columnHalf order key colName).writer with
  | none => rfl
  | some w =>
      simp only [Option.bind_some, Option.map_some, Option.map_map, DataTableWriter.listener_value]
      rfl

/-- **Which calls an insert makes.** -/
theorem writeCalls_insert {s : Session} (ht : s.table.Consistent) (order : EvalOrder)
    (key colName value : Str) :
    s.writeCalls (.table (.insert order key colName value))
      = (s.bothHalves order key colName value).calls := by
  rw [writeCalls, TableOp.apply, ht.insert_eq, columnMessage_watched, bothHalves]
  rw [Option.bind_some, Watched.listener_value]
  rfl

/-- The table stays consistent, whatever the writer does. -/
theorem consistent_step {s s' : Session} (h : s.table.Consistent) {op : SessionOp}
    (hstep : s.step op = some s') : s'.table.Consistent := by
  cases op with
  | table op =>
      obtain ⟨⟨t, w⟩, hw, rfl⟩ := Option.map_eq_some_iff.mp hstep
      have htable : t = op.onTable s.table :=
        TableOp.apply_table DataTableWriter.listener (s := (s.table, s.writer)) h hw
      rw [htable]
      exact h.onTable op
  | write =>
      obtain ⟨⟨ok, w⟩, _, rfl⟩ := Option.map_eq_some_iff.mp hstep
      exact h
  | streamFails =>
      rw [← Option.some.inj hstep]
      exact h

/-- **What every write keeps, every step keeps**, as long as the stream does not fail from outside. -/
theorem step_keeps {P : DataTableWriter → Prop} (L : DataTableWriter.Lasting P) {s s' : Session}
    {op : SessionOp} (hfails : op ≠ .streamFails) (h : P s.writer) (hstep : s.step op = some s') :
    P s'.writer := by
  cases op with
  | table op =>
      obtain ⟨⟨t, w⟩, hw, rfl⟩ := Option.map_eq_some_iff.mp hstep
      cases op with
      | insert order key colName value =>
          obtain ⟨⟨c, t', w'⟩, hi, heq⟩ := Option.map_eq_some_iff.mp hw
          obtain ⟨_, rfl⟩ := Prod.mk.inj heq
          refine DataTable.insert_keeps DataTableWriter.listener ?_ ?_ h hi
          · intro t i o n w w' hP hw'
            rw [DataTableWriter.listener_column] at hw'
            exact L.writeIfDue (L.requireFullWrite (L.countData hP _)) hw'
          · intro t c o n w w' hP hw'
            rw [DataTableWriter.listener_value] at hw'
            exact L.writeIfDue (L.checkCoords (L.countData hP _) c) hw'
      | addTableNote note => exact (Prod.mk.inj (Option.some.inj hw)).2 ▸ h
      | clear => exact (Prod.mk.inj (Option.some.inj hw)).2 ▸ h
  | write =>
      obtain ⟨⟨ok, w⟩, hw, rfl⟩ := Option.map_eq_some_iff.mp hstep
      exact L.write h hw
  | streamFails => exact absurd rfl hfails

end Session

end StructurePipe.Utility
