import StructurePipe.Lib.OverwrittenFile
import StructurePipe.Utility.DataTable

/-!
# The data table writer

`DataTableWriter` keeps a text file in step with a table.  A full write seeks back to the write
marker and prints the whole table; an incremental write (`writeFrom`) appends what has come since
the coordinates remembered from the last write.  Both are triggered by the listener callbacks once
more than `myWriteDelay` characters have changed, possibly in the middle of an insert.

The stream has its own put position, and writes where it stands without truncating.  The state
carries the file at the output path (`disk`) and, for the statements about it, the list of writes
completed so far (`history`), which the code does not have and nothing here reads.

`writeFrom` starts from an iterator at `myLastWriteCoords.first`; a start that is not a row of the
table is undefined behaviour and is `none` here.  `numRows() - 1` is computed in `size_t`, so it wraps
around on an empty table.

* `Live.writeFull`, `Live.writeFrom` — **what the two paths leave in the file of a stream that has
  not failed**, as one write of one text each.
-/

namespace StructurePipe.Utility

open OverwrittenFile

/-- The largest `size_t`. -/
def SIZE_MAX : ℕ := 2 ^ 64 - 1

/-- `n - 1` on a `size_t`. -/
def sizePred (n : ℕ) : ℕ := if n = 0 then SIZE_MAX else n - 1

/-- `static_cast<int>` of a `size_t`. -/
def toInt (n : ℕ) : ℤ := (n : ℤ).bmod (2 ^ 32)

/-- The content of the file at the output path, `none` while there is no such file. -/
abbrev Disk := Option Str

/-- The modes the writer opens its file with: `out`, `out | ate`, `out | in`. -/
inductive OpenMode where
  | out
  | outAte
  | outIn
deriving DecidableEq, Repr

/-- Content of the file and put position after a successful open.  Without `in` or `app` the file is
created or truncated, also when `ate` then seeks to its end; with `in` it must exist. -/
def OpenMode.openAt : OpenMode → Disk → Option (Str × ℕ)
  | .out, _ => some ([], 0)
  | .outAte, _ => some ([], 0)
  | .outIn, disk => disk.map fun content => (content, 0)

/-- An output file stream: its state, its put position, and whether the environment lets the path
be opened. -/
structure OutStream where
  isOpen : Bool
  good : Bool
  openable : Bool
  pos : ℕ
deriving DecidableEq, Repr

/-- A completed write as an observer sees it: the table written, which path was taken, the file
before and after, the write marker and the put position. -/
structure WriteRecord where
  table : DataTable
  full : Bool
  diskBefore : Disk
  disk : Disk
  marker : ℕ
  pos : ℕ

structure DataTableWriter where
  myAppend : Bool
  myWriteDelay : ℕ
  myDataSinceWrite : ℕ
  myOutStream : OutStream
  myWriteMarker : ℕ
  myLastWriteCoords : Coords
  myFullWriteRequired : Bool
  disk : Disk
  history : List WriteRecord

namespace DataTableWriter

def myColumnDelimiter : Str := [' ']

/-- The byte a gap in a file is filled with. -/
def NUL : Char := Char.ofNat 0

/-- `myOutStream.open`: clears the error state on success, sets it on failure. -/
def openStream (w : DataTableWriter) (mode : OpenMode) : DataTableWriter :=
  match w.myOutStream.openable, mode.openAt w.disk with
  | true, some (content, pos) =>
      { w with
        disk := some content
        myOutStream := { w.myOutStream with isOpen := true, good := true, pos := pos } }
  | _, _ => { w with myOutStream := { w.myOutStream with good := false } }

/-- Save the write marker: `myWriteMarker = myOutStream.tellp()`.  The `-1` of a stream that failed
is left out, since no write seeks on such a stream. -/
def saveMarker (w : DataTableWriter) : DataTableWriter :=
  { w with myWriteMarker := w.myOutStream.pos }

def seekp (w : DataTableWriter) (pos : ℕ) : DataTableWriter :=
  { w with myOutStream := { w.myOutStream with pos := pos } }

/-- `myOutStream << bs`: nothing happens on a stream that has failed. -/
def emit (w : DataTableWriter) (bs : Str) : DataTableWriter :=
  if w.myOutStream.good then
    { w with
      disk := w.disk.map fun content => overwrite NUL content w.myOutStream.pos bs
      myOutStream := { w.myOutStream with pos := w.myOutStream.pos + bs.length } }
  else w

def resetCounter (w : DataTableWriter) : DataTableWriter := { w with myDataSinceWrite := 0 }

/-- `myLastWriteCoords.second = width`. -/
def setWidth (w : DataTableWriter) (width : ℕ) : DataTableWriter :=
  { w with myLastWriteCoords := (w.myLastWriteCoords.1, width) }

/-- What both paths end with: the last row is remembered, a full write is no longer required. -/
def upToDate (w : DataTableWriter) (t : DataTable) : DataTableWriter :=
  { w with
    myLastWriteCoords := (sizePred t.numRows, w.myLastWriteCoords.2)
    myFullWriteRequired := false }

/-- The loop over rows of both write paths. -/
def writeRows (w : DataTableWriter) (rows : List (List Str)) : DataTableWriter :=
  rows.foldl (fun w row => (w.emit ('\n' :: join row myColumnDelimiter)).setWidth row.length) w

def writeFull (w : DataTableWriter) (t : DataTable) : Bool × DataTableWriter :=
  let w := w.resetCounter
  let w := if w.myOutStream.isOpen then w else (w.openStream .outIn).saveMarker
  if w.myOutStream.good then
    let w := w.seekp w.myWriteMarker
    let w := w.emit (t.headerText myColumnDelimiter)
    let w := w.emit t.notesText
    let w := w.writeRows t.myRows
    (true, w.upToDate t)
  else (false, w)

/-- The incremental path.  The start row must exist. -/
def writeFrom (w : DataTableWriter) (t : DataTable) (coords : Coords) : Option DataTableWriter :=
  let w := w.resetCounter
  t.myRows[coords.1]?.map fun row =>
    -- is there a remainder of a row to print?
    let w :=
      if 0 < w.myLastWriteCoords.2 ∧ w.myLastWriteCoords.2 < row.length then
        (w.emit (myColumnDelimiter ++ join (row.drop coords.2) myColumnDelimiter)).setWidth row.length
      else w
    let w := w.writeRows (t.myRows.drop (coords.1 + 1))
    w.upToDate t

/-- Keep the record of a completed write of the table `t` that started in state `w₀`. -/
def record (w : DataTableWriter) (t : DataTable) (w₀ : DataTableWriter) : DataTableWriter :=
  { w with
    history := w.history ++ [{
      table := t
      full := w₀.myFullWriteRequired
      diskBefore := w₀.disk
      disk := w.disk
      marker := w.myWriteMarker
      pos := w.myOutStream.pos }] }

/-- `DataTableWriter::write`: its result and the state after it. -/
def write (w : DataTableWriter) (t : DataTable) : Option (Bool × DataTableWriter) :=
  if w.myFullWriteRequired then
    let (ok, w') := w.writeFull t
    some (ok, if ok then w'.record t w else w')
  else (w.writeFrom t w.myLastWriteCoords).map fun w' => (true, w'.record t w)

/-- How many characters differ, position by position, plus the difference in length. -/
def diff (v₁ v₂ : Str) : ℕ :=
  (v₁.zip v₂).countP (fun p => p.1 != p.2) + (toInt v₁.length - toInt v₂.length).natAbs

/-- The write that ends both callbacks. -/
def writeIfDue (w : DataTableWriter) (t : DataTable) : Option DataTableWriter :=
  if w.myWriteDelay < w.myDataSinceWrite then (w.write t).map Prod.snd else some w

/-- `myDataSinceWrite += n`. -/
def countData (w : DataTableWriter) (n : ℕ) : DataTableWriter :=
  { w with myDataSinceWrite := w.myDataSinceWrite + n }

/-- `myFullWriteRequired = true`. -/
def requireFullWrite (w : DataTableWriter) : DataTableWriter := { w with myFullWriteRequired := true }

/-- A changed cell before the remembered coordinates cannot be appended. -/
def checkCoords (w : DataTableWriter) (coords : Coords) : DataTableWriter :=
  if !w.myFullWriteRequired && decide (coords.lt w.myLastWriteCoords) then w.requireFullWrite else w

def onDataTableValueChanged (t : DataTable) (coords : Coords) (oldValue newValue : Str)
    (w : DataTableWriter) : Option DataTableWriter :=
  ((w.countData (diff oldValue newValue)).checkCoords coords).writeIfDue t

def onDataTableColumnChanged (t : DataTable) (_index : ℕ) (oldValue newValue : Str)
    (w : DataTableWriter) : Option DataTableWriter :=
  ((w.countData (diff oldValue newValue)).requireFullWrite).writeIfDue t

/-- The writer as the table's listener. -/
def listener : Listener DataTableWriter where
  onDataTableValueChanged := onDataTableValueChanged
  onDataTableColumnChanged := onDataTableColumnChanged

/-- The constructor: `initialise` opens the file and saves the write marker. -/
def initialise (append : Bool) (writeDelay : ℕ) (openable : Bool) (disk : Disk) :
    DataTableWriter :=
  let w : DataTableWriter := {
    myAppend := append
    myWriteDelay := writeDelay
    myDataSinceWrite := 0
    myOutStream := { isOpen := false, good := true, openable := openable, pos := 0 }
    myWriteMarker := 0
    myLastWriteCoords := (0, 0)
    myFullWriteRequired := true
    disk := disk
    history := [] }
  (w.openStream (if disk.isSome && append then .outAte else .out)).saveMarker

/-! ### A stream that has not failed -/

/-- The writer's stream is open and good, its file holds `f`, and its put position lies in the file
at or behind the write marker. -/
structure Live (w : DataTableWriter) (f : Str) : Prop where
  isOpen : w.myOutStream.isOpen = true
  good : w.myOutStream.good = true
  disk : w.disk = some f
  marker_le : w.myWriteMarker ≤ w.myOutStream.pos
  pos_le : w.myOutStream.pos ≤ f.length

/-- What is in the file between the write marker and the put position. -/
def written (w : DataTableWriter) (f : Str) : Str := window f w.myWriteMarker w.myOutStream.pos

/-- The state after one write of `bs` at the put position. -/
def wrote (w : DataTableWriter) (f bs : Str) : DataTableWriter :=
  { w with
    disk := some (overwrite NUL f w.myOutStream.pos bs)
    myOutStream := { w.myOutStream with pos := w.myOutStream.pos + bs.length } }

@[simp] theorem wrote_setWidth (w : DataTableWriter) (f bs : Str) (n : ℕ) :
    (w.setWidth n).wrote f bs = (w.wrote f bs).setWidth n := rfl

@[simp] theorem wrote_resetCounter (w : DataTableWriter) (f bs : Str) :
    w.resetCounter.wrote f bs = (w.wrote f bs).resetCounter := rfl

@[simp] theorem setWidth_setWidth (w : DataTableWriter) (m n : ℕ) :
    (w.setWidth m).setWidth n = w.setWidth n := rfl

theorem Live.resetCounter {w : DataTableWriter} {f : Str} (h : w.Live f) : w.resetCounter.Live f :=
  ⟨h.isOpen, h.good, h.disk, h.marker_le, h.pos_le⟩

theorem Live.setWidth {w : DataTableWriter} {f : Str} (h : w.Live f) (n : ℕ) :
    (w.setWidth n).Live f :=
  ⟨h.isOpen, h.good, h.disk, h.marker_le, h.pos_le⟩

theorem Live.upToDate {w : DataTableWriter} {f : Str} (h : w.Live f) (t : DataTable) :
    (w.upToDate t).Live f :=
  ⟨h.isOpen, h.good, h.disk, h.marker_le, h.pos_le⟩

theorem Live.seek_marker {w : DataTableWriter} {f : Str} (h : w.Live f) :
    (w.seekp w.myWriteMarker).Live f :=
  ⟨h.isOpen, h.good, h.disk, le_rfl, h.marker_le.trans h.pos_le⟩

theorem Live.emit {w : DataTableWriter} {f : Str} (h : w.Live f) (bs : Str) :
    w.emit bs = w.wrote f bs := by
  rw [DataTableWriter.emit, if_pos h.good, h.disk]
  rfl

theorem Live.wrote {w : DataTableWriter} {f : Str} (h : w.Live f) (bs : Str) :
    (w.wrote f bs).Live (overwrite NUL f w.myOutStream.pos bs) where
  isOpen := h.isOpen
  good := h.good
  disk := rfl
  marker_le := h.marker_le.trans (Nat.le_add_right _ _)
  pos_le := by
    rw [length_overwrite NUL h.pos_le]
    exact le_max_right _ _

theorem Live.wrote_wrote {w : DataTableWriter} {f : Str} (h : w.Live f) (as bs : Str) :
    (w.wrote f as).wrote (overwrite NUL f w.myOutStream.pos as) bs = w.wrote f (as ++ bs) := by
  simp only [DataTableWriter.wrote, overwrite_overwrite NUL h.pos_le, List.length_append,
    Nat.add_assoc]

theorem Live.wrote_nil {w : DataTableWriter} {f : Str} (h : w.Live f) : w.wrote f [] = w := by
  simp [DataTableWriter.wrote, ← h.disk]

/-- The width of the last row printed, the old one if none was. -/
def lastWidth (rows : List (List Str)) (width : ℕ) : ℕ := rows.foldl (fun _ row => row.length) width

@[simp] theorem lastWidth_concat (rows : List (List Str)) (row : List Str) (width : ℕ) :
    lastWidth (rows ++ [row]) width = row.length := by
  simp [lastWidth]

/-- **The row loop is one write** of the text of its rows. -/
theorem Live.writeRows {w : DataTableWriter} {f : Str} (h : w.Live f) (rows : List (List Str)) :
    w.writeRows rows = (w.wrote f (DataTable.rowsText rows myColumnDelimiter)).setWidth
      (lastWidth rows w.myLastWriteCoords.2) := by
  induction rows generalizing w f with
  | nil =>
      show w = (w.wrote f []).setWidth w.myLastWriteCoords.2
      rw [h.wrote_nil]
      rfl
  | cons row rows ih =>
      have hlive := (h.wrote ('\n' :: join row myColumnDelimiter)).setWidth row.length
      calc w.writeRows (row :: rows)
          = ((w.wrote f ('\n' :: join row myColumnDelimiter)).setWidth row.length).writeRows rows := by
            rw [← h.emit]; rfl
        _ = ((w.wrote f (('\n' :: join row myColumnDelimiter)
              ++ DataTable.rowsText rows myColumnDelimiter))).setWidth
                (lastWidth rows row.length) := by
            rw [ih hlive, wrote_setWidth, h.wrote_wrote, setWidth_setWidth]
            rfl
        _ = _ := rfl

/-- **The full path is one write of the whole text at the write marker.** -/
theorem Live.writeFull {w : DataTableWriter} {f : Str} (h : w.Live f) (t : DataTable) :
    w.writeFull t = (true,
      (((w.resetCounter.seekp w.myWriteMarker).wrote f (t.text myColumnDelimiter)).setWidth
        (lastWidth t.myRows w.myLastWriteCoords.2)).upToDate t) := by
  have hseek := h.resetCounter.seek_marker
  have hheader := hseek.wrote (t.headerText myColumnDelimiter)
  have hnotes := hheader.wrote t.notesText
  have hopen : w.resetCounter.myOutStream.isOpen = true := h.isOpen
  have hgood : w.resetCounter.myOutStream.good = true := h.good
  simp only [DataTableWriter.writeFull, hopen, if_true, hgood]
  rw [hseek.emit, hheader.emit, hnotes.writeRows, hheader.wrote_wrote, hseek.wrote_wrote,
    ← List.append_assoc]
  rfl

/-- What the incremental path prints: the rest of the start row, then the rows behind it. -/
def pendingText (t : DataTable) (coords : Coords) (row : List Str) : Str :=
  (if coords.2 < row.length then
    myColumnDelimiter ++ join (row.drop coords.2) myColumnDelimiter else [])
    ++ DataTable.rowsText (t.myRows.drop (coords.1 + 1)) myColumnDelimiter

/-- **The incremental path is one write of the pending text at the put position.** -/
theorem Live.writeFrom {w : DataTableWriter} {f : Str} (h : w.Live f) {t : DataTable}
    {row : List Str} (hrow : t.myRows[w.myLastWriteCoords.1]? = some row)
    (hpos : 0 < w.myLastWriteCoords.2) (hle : w.myLastWriteCoords.2 ≤ row.length) :
    w.writeFrom t w.myLastWriteCoords = some
      (((w.wrote f (pendingText t w.myLastWriteCoords row)).resetCounter.setWidth
        (lastWidth (t.myRows.drop (w.myLastWriteCoords.1 + 1)) row.length)).upToDate t) := by
  have h₀ := h.resetCounter
  have hcoords : w.resetCounter.myLastWriteCoords = w.myLastWriteCoords := rfl
  simp only [DataTableWriter.writeFrom, hrow, Option.map_some, pendingText, hcoords]
  rcases Nat.lt_or_ge w.myLastWriteCoords.2 row.length with hlt | hge
  · rw [if_pos ⟨hpos, hlt⟩, if_pos hlt, h₀.emit]
    have hrest := (h₀.wrote
      (myColumnDelimiter ++ join (row.drop w.myLastWriteCoords.2) myColumnDelimiter)).setWidth
        row.length
    rw [hrest.writeRows, wrote_setWidth, h₀.wrote_wrote, setWidth_setWidth, wrote_resetCounter]
    rfl
  · have hwidth : w.myLastWriteCoords.2 = row.length := le_antisymm hle hge
    rw [if_neg (by omega), if_neg (by omega), h₀.writeRows, List.nil_append, ← hwidth,
      wrote_resetCounter]
    rfl

end DataTableWriter

end StructurePipe.Utility
