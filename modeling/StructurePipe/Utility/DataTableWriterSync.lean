import StructurePipe.Utility.DataTableText

/-!
# Incremental writes agree with full writes

The writer decides from its listener messages alone whether the rest of the table can simply be
appended.  What makes this right is one invariant: either a full write is pending, or the bytes
between the write marker and the put position are the table up to the remembered coordinates
(`UpTo`).  A changed cell at or behind these coordinates, a new row and the rest of a row leave that
text alone; a cell before them and a new column set the flag.

A write may fall between the two halves of an insert.  If `col` runs first on a table without rows, a
full write there remembers the row `numRows() - 1`, which wraps around; the value message that
follows is at row `0`, so it sets the flag again (`MidInsert`).

What else holds of the writer, and is wanted of its writes, comes in as a relation `J` that the writer
keeps (`Keeps`); the notes in the file are an argument of its own, since no message is sent about them.

* `Keeps.write` — **a write, on either path, leaves the whole text in the window;**
* `Keeps.columnMessage`, `Keeps.valueChanged` — the two halves of an insert keep the invariant;
* `Keeps.insert` — **so does an insert;**
* `keeps_sound` — what holds of a writer on its own is such a relation.
-/

namespace StructurePipe.Utility

open OverwrittenFile

namespace DataTableWriter

/-! ### The invariant -/

/-- What is in the file between the write marker and the put position is the table up to the
remembered coordinates, which are a position in the table. -/
structure UpTo (w : DataTableWriter) (t : DataTable) (f : Str) : Prop where
  row_lt : w.myLastWriteCoords.1 < t.numRows
  width_pos : 0 < w.myLastWriteCoords.2
  width_le : w.myLastWriteCoords.2 ≤ (t.myRows.getD w.myLastWriteCoords.1 []).length
  written_eq : w.written f = t.textUpTo myColumnDelimiter w.myLastWriteCoords

/-- A full write is pending, or the file is up to date with what the coordinates say. -/
def Tracks (w : DataTableWriter) (t : DataTable) (f : Str) : Prop :=
  w.myFullWriteRequired = true ∨ w.UpTo t f

/-- Between the messages of an insert the table may also have been written without any row. -/
def MidInsert (w : DataTableWriter) (t : DataTable) (f : Str) : Prop :=
  w.Tracks t f ∨ t.numRows = 0 ∧ w.myLastWriteCoords.1 = SIZE_MAX

end DataTableWriter

namespace WriteRecord

/-- The bytes between the write marker and the put position are the table. -/
def ShowsTable (r : WriteRecord) : Prop :=
  window (r.disk.getD []) r.marker r.pos ++ ['\n']
    = r.table.writeToFile DataTableWriter.myColumnDelimiter

/-- The file is the table and nothing else. -/
def HoldsTableOnly (r : WriteRecord) : Prop :=
  r.disk = some (r.table.text DataTableWriter.myColumnDelimiter)

/-- If this is a full write, the file it finds is not longer than the table it prints. -/
def Fits (r : WriteRecord) : Prop :=
  r.full = true →
    (r.diskBefore.getD []).length ≤ (r.table.text DataTableWriter.myColumnDelimiter).length

end WriteRecord

namespace DataTableWriter

/-- What holds of the writer on its own: its stream works, its writes so far have shown the table,
as long as there was none a full write is pending, a full write has left the table alone in the file
if and only if it fitted, and if all did the put position is the end of the file. -/
structure Sound (w : DataTableWriter) (f : Str) : Prop where
  live : w.Live f
  marker : w.myWriteMarker = 0
  shows : ∀ r ∈ w.history, r.ShowsTable
  fresh : w.history = [] → w.myFullWriteRequired = true
  fits_of_only : ∀ r ∈ w.history, r.HoldsTableOnly → r.Fits
  only_of_fits : (∀ r ∈ w.history, r.Fits) → ∀ r ∈ w.history, r.HoldsTableOnly
  at_end : (∀ r ∈ w.history, r.Fits) → w.myOutStream.pos = f.length

theorem UpTo.position {w : DataTableWriter} {t : DataTable} {f : Str} (h : w.UpTo t f) :
    t.Position w.myLastWriteCoords := ⟨h.row_lt, h.width_pos, h.width_le⟩

theorem UpTo.of_prefix {w : DataTableWriter} {t t' : DataTable} {f : Str} (h : w.UpTo t f)
    (hhead : t.SameHead t') (hrows : t.myRows <+: t'.myRows) : w.UpTo t' f := by
  obtain ⟨hlt, hpos, hle⟩ := h.position.mono hrows
  exact ⟨hlt, hpos, hle, by rw [h.written_eq, hhead.textUpTo_of_prefix hrows h.row_lt]⟩

theorem UpTo.insertValue {w : DataTableWriter} {t : DataTable} {f : Str} (h : w.UpTo t f)
    {c : Coords} (hc : c.1 < t.numRows) (hle : ¬ c.lt w.myLastWriteCoords) (value : Str) :
    w.UpTo (t.insertValue c value).2 f := by
  obtain ⟨hlt, hpos, hwidth⟩ := h.position.insertValue hc value
  exact ⟨hlt, hpos, hwidth, by rw [h.written_eq, DataTable.textUpTo_insertValue hc hle h.width_le]⟩

/-! ### What a write leaves behind -/

theorem lastWidth_eq {rows : List (List Str)} (h : 0 < rows.length) (width : ℕ) :
    lastWidth rows width = (rows.getD (rows.length - 1) []).length := by
  obtain ⟨init, row, rfl⟩ := List.eq_nil_or_concat rows |>.resolve_left (List.length_pos_iff.mp h)
  rw [List.concat_eq_append, lastWidth_concat, List.length_append, List.length_singleton,
    Nat.add_sub_cancel, List.getD_append_right _ _ _ _ le_rfl, Nat.sub_self]
  rfl

/-- The row loop of the incremental path ends with the same width as that of the full path. -/
theorem lastWidth_drop {t : DataTable} {i : ℕ} (hi : i < t.numRows) (width : ℕ) :
    lastWidth (t.myRows.drop (i + 1)) (t.myRows.getD i []).length = lastWidth t.myRows width := by
  conv_rhs => rw [DataTable.myRows_split hi]
  rw [lastWidth, lastWidth, List.foldl_append]
  rfl

/-- The coordinates both paths end with are those of the end of the last row. -/
theorem coords_end {t : DataTable} (hrows : 0 < t.numRows) (width : ℕ) :
    (sizePred t.numRows, lastWidth t.myRows width)
      = (t.numRows - 1, (t.myRows.getD (t.numRows - 1) []).length) := by
  rw [sizePred, if_neg (by omega), lastWidth_eq hrows]
  rfl

theorem position_end {t : DataTable} (ht : t.Consistent) (hrows : 0 < t.numRows) (width : ℕ) :
    t.Position (sizePred t.numRows, lastWidth t.myRows width) := by
  have hlen : t.numRows - 1 < t.myRows.length := Nat.sub_lt hrows one_pos
  rw [coords_end hrows]
  refine ⟨hlen, ?_, le_rfl⟩
  show 0 < (t.myRows.getD (t.numRows - 1) []).length
  rw [List.getD_eq_getElem _ _ hlen]
  exact ht.length_pos (List.getElem_mem hlen)

/-- Coordinates at the end of the last row, and the whole table in the window. -/
theorem UpTo.of_whole {w : DataTableWriter} {t : DataTable} {f : Str} (ht : t.Consistent)
    (hrows : 0 < t.numRows) {width : ℕ}
    (hcoords : w.myLastWriteCoords = (sizePred t.numRows, lastWidth t.myRows width))
    (hwritten : w.written f = t.text myColumnDelimiter) : w.UpTo t f := by
  have hend := position_end ht hrows width
  rw [coords_end hrows] at hcoords hend
  obtain ⟨hlt, hpos, hle⟩ := hend
  have hpending : pendingText t (t.numRows - 1, (t.myRows.getD (t.numRows - 1) []).length)
      (t.myRows.getD (t.numRows - 1) []) = [] := by
    rw [pendingText, if_neg (lt_irrefl _), List.drop_eq_nil_of_le (by
      show t.numRows ≤ t.numRows - 1 + 1
      omega)]
    rfl
  have hsplit := textUpTo_append_pending hlt hpos hle
  rw [hpending, List.append_nil] at hsplit
  refine ⟨?_, ?_, ?_, ?_⟩
  · rw [hcoords]; exact hlt
  · rw [hcoords]; exact hpos
  · rw [hcoords]
  · rw [hwritten, hcoords, hsplit]

/-- Where the next write starts. -/
def startPos (w : DataTableWriter) : ℕ :=
  if w.myFullWriteRequired then w.myWriteMarker else w.myOutStream.pos

/-- The state `w'` of a writer whose write of the table `t` from the state `w` has put the bytes `bs`
into the file `f`. -/
structure Completes (w w' : DataTableWriter) (t : DataTable) (f bs : Str) : Prop where
  live : w'.Live (overwrite NUL f w.startPos bs)
  history : w'.history = w.history
  marker : w'.myWriteMarker = w.myWriteMarker
  pos : w'.myOutStream.pos = w.startPos + bs.length
  written : w'.written (overwrite NUL f w.startPos bs) = t.text myColumnDelimiter
  coords : w'.myLastWriteCoords.1 = sizePred t.numRows
  upTo : 0 < t.numRows → w'.UpTo t (overwrite NUL f w.startPos bs)

/-- **What the full path does.** -/
theorem Live.completes_full {w : DataTableWriter} {t : DataTable} {f : Str} (h : w.Live f)
    (ht : t.Consistent) (hfull : w.myFullWriteRequired = true) :
    ∃ w', w.write t = some (true, w'.record t w) ∧
      w.Completes w' t f (t.text myColumnDelimiter) := by
  have hseek := h.resetCounter.seek_marker
  have hstart : w.startPos = w.myWriteMarker := by rw [startPos, if_pos hfull]
  have hwritten : ((w.resetCounter.seekp w.myWriteMarker).wrote f
      (t.text myColumnDelimiter)).written
        (overwrite NUL f w.myWriteMarker (t.text myColumnDelimiter))
      = t.text myColumnDelimiter :=
    window_overwrite NUL hseek.pos_le _
  refine ⟨((((w.resetCounter.seekp w.myWriteMarker).wrote f (t.text myColumnDelimiter)).setWidth
    (lastWidth t.myRows w.myLastWriteCoords.2)).upToDate t), ?_, ?_⟩
  · rw [DataTableWriter.write, hfull, if_pos rfl, h.writeFull]
    rfl
  · refine ⟨?_, rfl, rfl, ?_, ?_, rfl, fun hrows => ?_⟩
    · rw [hstart]
      exact ((hseek.wrote (t.text myColumnDelimiter)).setWidth _).upToDate t
    · rw [hstart]; rfl
    · rw [hstart]; exact hwritten
    · rw [hstart]; exact UpTo.of_whole ht hrows rfl hwritten

/-- **What the incremental path does.**  It does not look at the notes: if the file is up to date with
the table with other notes, it stays so. -/
theorem Live.completes_incremental {w : DataTableWriter} {t : DataTable} {notes : List Str} {f : Str}
    (h : w.Live f) (ht : t.Consistent) (hfull : w.myFullWriteRequired = false)
    (hup : w.UpTo (t.withNotes notes) f) :
    ∃ w' bs, w.write t = some (true, w'.record t w) ∧
      w.Completes w' (t.withNotes notes) f bs := by
  have hstart : w.startPos = w.myOutStream.pos := by rw [startPos, if_neg (by simp [hfull])]
  have hsplit := textUpTo_append_pending hup.row_lt hup.width_pos hup.width_le
  have hrun := h.writeFrom (t := t) hup.position.row_eq hup.width_pos hup.width_le
  have hwidth := lastWidth_drop hup.row_lt 0
  rw [DataTable.withNotes_myRows] at hrun hwidth hsplit
  rw [hwidth] at hrun
  have hpending : pendingText (t.withNotes notes) w.myLastWriteCoords
      (t.myRows.getD w.myLastWriteCoords.1 [])
      = pendingText t w.myLastWriteCoords (t.myRows.getD w.myLastWriteCoords.1 []) := rfl
  rw [hpending] at hsplit
  generalize pendingText t w.myLastWriteCoords
    (t.myRows.getD w.myLastWriteCoords.1 []) = pending at hsplit hrun
  have hwritten : (w.wrote f pending).written (overwrite NUL f w.myOutStream.pos pending)
      = (t.withNotes notes).text myColumnDelimiter := by
    calc (w.wrote f pending).written (overwrite NUL f w.myOutStream.pos pending)
        = w.written f ++ pending := window_overwrite_append NUL h.marker_le h.pos_le pending
      _ = (t.withNotes notes).text myColumnDelimiter := by rw [hup.written_eq, hsplit]
  refine ⟨((w.wrote f pending).resetCounter.setWidth (lastWidth t.myRows 0)).upToDate t, pending,
    ?_, ?_⟩
  · rw [DataTableWriter.write, hfull, if_neg (by simp), hrun]
    rfl
  · refine ⟨?_, rfl, rfl, ?_, ?_, rfl, fun hrows => ?_⟩
    · rw [hstart]
      exact ((h.wrote pending).resetCounter.setWidth _).upToDate t
    · rw [hstart]; rfl
    · rw [hstart]; exact hwritten
    · rw [hstart]; exact UpTo.of_whole (ht.withNotes notes) hrows rfl hwritten

/-- The history after a write. -/
theorem Completes.mem_history {w w' : DataTableWriter} {t T : DataTable} {f bs : Str}
    (h : w.Completes w' T f bs) (r : WriteRecord) :
    r ∈ (w'.record t w).history ↔ r ∈ w.history ∨ r = ⟨t, w.myFullWriteRequired, w.disk, w'.disk,
      w'.myWriteMarker, w'.myOutStream.pos⟩ := by
  rw [DataTableWriter.record, h.history, List.mem_append, List.mem_singleton]

theorem Completes.live_record {w w' : DataTableWriter} {t T : DataTable} {f bs : Str}
    (h : w.Completes w' T f bs) : (w'.record t w).Live (overwrite NUL f w.startPos bs) :=
  ⟨h.live.isOpen, h.live.good, h.live.disk, h.live.marker_le, h.live.pos_le⟩

/-- After a write the file is up to date, or there is no row. -/
theorem Completes.midInsert_record {w w' : DataTableWriter} {t T : DataTable} {f bs : Str}
    (h : w.Completes w' T f bs) :
    (w'.record t w).MidInsert T (overwrite NUL f w.startPos bs) := by
  rcases Nat.eq_zero_or_pos T.numRows with hzero | hpos
  · refine Or.inr ⟨hzero, ?_⟩
    show w'.myLastWriteCoords.1 = SIZE_MAX
    rw [h.coords, sizePred, if_pos hzero]
  · obtain ⟨hlt, hwidth, hle, hwritten⟩ := h.upTo hpos
    exact Or.inl (Or.inr ⟨hlt, hwidth, hle, hwritten⟩)

/-! ### A rule for whatever the writer keeps -/

/-- A relation of the table, the notes in the file, the writer and its file that the writer keeps:
counting and setting the flag do no harm, a full write restores it with the notes of the table, and
an incremental write with the notes that were in the file before. -/
structure Keeps (J : DataTable → List Str → DataTableWriter → Str → Prop) : Prop where
  live : ∀ {t notes w f}, J t notes w f → w.Live f
  countData : ∀ {t notes w f}, J t notes w f → ∀ n, J t notes (w.countData n) f
  requireFullWrite : ∀ {t notes w f}, J t notes w f → J t notes w.requireFullWrite f
  full : ∀ {t notes} {w w' : DataTableWriter} {f bs : Str}, J t notes w f →
    w.myFullWriteRequired = true → w.Completes w' t f bs →
      J t t.myTableNotes (w'.record t w) (overwrite NUL f w.startPos bs)
  incremental : ∀ {t : DataTable} {notes} {w w' : DataTableWriter} {f bs : Str}, J t notes w f →
    w.myFullWriteRequired = false → 0 < t.numRows → w.Completes w' (t.withNotes notes) f bs →
      J t notes (w'.record t w) (overwrite NUL f w.startPos bs)

namespace Keeps

variable {J : DataTable → List Str → DataTableWriter → Str → Prop} {t : DataTable}
  {notes : List Str} {w : DataTableWriter} {f : Str}

/-- **A write, on either path, leaves the whole table in the window**, with the notes of the file. -/
theorem write (K : Keeps J) (h : J t notes w f) (ht : t.Consistent)
    (htracks : w.Tracks (t.withNotes notes) f) :
    ∃ w' notes' f', w.write t = some (true, w') ∧ J t notes' w' f' ∧
      w'.MidInsert (t.withNotes notes') f' := by
  cases hfull : w.myFullWriteRequired with
  | true =>
      obtain ⟨w', hw', hcompletes⟩ := (K.live h).completes_full ht hfull
      exact ⟨_, t.myTableNotes, _, hw', K.full h hfull hcompletes, hcompletes.midInsert_record⟩
  | false =>
      have hup := htracks.resolve_left (by simp [hfull])
      obtain ⟨w', bs, hw', hcompletes⟩ := (K.live h).completes_incremental ht hfull hup
      have hrows : 0 < t.numRows := (Nat.zero_le _).trans_lt hup.row_lt
      exact ⟨_, notes, _, hw', K.incremental h hfull hrows hcompletes, hcompletes.midInsert_record⟩

theorem writeIfDue (K : Keeps J) (h : J t notes w f) (ht : t.Consistent)
    (htracks : w.Tracks (t.withNotes notes) f) :
    ∃ w' notes' f', w.writeIfDue t = some w' ∧ J t notes' w' f' ∧
      w'.MidInsert (t.withNotes notes') f' := by
  rw [DataTableWriter.writeIfDue]
  split
  · obtain ⟨w', notes', f', hw', hJ, hmid⟩ := K.write h ht htracks
    exact ⟨w', notes', f', by rw [hw']; rfl, hJ, hmid⟩
  · exact ⟨w, notes, f, rfl, h, Or.inl htracks⟩

theorem checkCoords (K : Keeps J) (h : J t notes w f) (c : Coords) :
    J t notes (w.checkCoords c) f := by
  rw [DataTableWriter.checkCoords]
  split
  · exact K.requireFullWrite h
  · exact h

/-- **The message about a column.** -/
theorem columnMessage (K : Keeps J) (h : J t notes w f) {seen : DataTable} (ht : seen.Consistent)
    {name : Str} (htracks : name ∈ seen.cols → w.Tracks (seen.withNotes notes) f)
    (hcolumn : ∀ {w : DataTableWriter} {f}, J t notes w f →
      name ∈ seen.cols ∨ w.myFullWriteRequired = true → J (seen.withColumn name) notes w f) :
    ∃ w' notes' f', seen.columnMessage listener w name = some w' ∧
      J (seen.withColumn name) notes' w' f' ∧
      w'.MidInsert ((seen.withColumn name).withNotes notes') f' := by
  by_cases hname : name ∈ seen.cols
  · refine ⟨w, notes, f, by rw [DataTable.columnMessage, if_pos hname], hcolumn h (Or.inl hname), ?_⟩
    rw [DataTable.withColumn, if_pos hname]
    exact Or.inl (htracks hname)
  · have htable : seen.withColumn name = seen.addColumn name := by
      rw [DataTable.withColumn, if_neg hname]
    rw [DataTable.columnMessage, if_neg hname]
    simp only [listener, onDataTableColumnChanged]
    generalize diff [] name = n
    have hJ := hcolumn (K.requireFullWrite (K.countData h n)) (Or.inr rfl)
    rw [htable] at hJ ⊢
    exact K.writeIfDue hJ (ht.addColumn hname) (Or.inl rfl)

end Keeps

/-- **What the comparison of the coordinates decides.** -/
theorem checkCoords_cases (w : DataTableWriter) (c : Coords) :
    (w.checkCoords c).myFullWriteRequired = true ∨
      w.myFullWriteRequired = false ∧ ¬ c.lt w.myLastWriteCoords ∧ w.checkCoords c = w := by
  rw [DataTableWriter.checkCoords]
  cases hfull : w.myFullWriteRequired with
  | true => exact Or.inl hfull
  | false =>
      by_cases hlt : c.lt w.myLastWriteCoords
      · rw [if_pos (by simp [hlt])]
        exact Or.inl rfl
      · rw [if_neg (by simp [hlt])]
        exact Or.inr ⟨rfl, hlt, rfl⟩

/-- Row `0` is before a row number that has wrapped around. -/
theorem lt_of_wrapped {w : DataTableWriter} {c : Coords} (hmax : w.myLastWriteCoords.1 = SIZE_MAX)
    (hc : c.1 = 0) : c.lt w.myLastWriteCoords := by
  refine Or.inl ?_
  rw [hmax, hc]
  norm_num [SIZE_MAX]

/-- **The comparison of the coordinates is enough.**  The table `t` is the one the writer has last
seen, `T` has the row and the column of the cell registered. -/
theorem MidInsert.checkCoords {w : DataTableWriter} {t T : DataTable} {f : Str}
    (hmid : w.MidInsert t f) (hhead : t.SameHead T) (hrows : t.myRows <+: T.myRows) {c : Coords}
    (hc : c.1 < T.numRows) (hc' : c.1 ≤ t.numRows) (value : Str) :
    (w.checkCoords c).Tracks (T.insertValue c value).2 f := by
  rcases w.checkCoords_cases c with hset | ⟨hfull, hlt, heq⟩
  · exact Or.inl hset
  · rw [heq]
    rcases hmid with (hw | hup) | ⟨hzero, hmax⟩
    · exact absurd hw (by simp [hfull])
    · exact Or.inr ((hup.of_prefix hhead hrows).insertValue hc hlt value)
    · exact absurd (lt_of_wrapped hmax (by omega)) hlt

theorem MidInsert.countData {w : DataTableWriter} {t : DataTable} {f : Str} (h : w.MidInsert t f)
    (n : ℕ) : (w.countData n).MidInsert t f :=
  h.imp (fun h => h.imp id fun hup => ⟨hup.row_lt, hup.width_pos, hup.width_le, hup.written_eq⟩) id

namespace Keeps

variable {J : DataTable → List Str → DataTableWriter → Str → Prop} {t : DataTable}
  {notes : List Str} {w : DataTableWriter} {f : Str}

/-- **The message about a value.** -/
theorem valueChanged (K : Keeps J) (h : J t notes w f) (hmid : w.MidInsert (t.withNotes notes) f)
    {T : DataTable} (hhead : t.SameHead T) (hrows : t.myRows <+: T.myRows) {c : Coords}
    (hc : c.1 < T.numRows) (hc' : c.1 ≤ t.numRows) {value : Str}
    (hT : (T.insertValue c value).2.Consistent)
    (hvalue : ∀ {w : DataTableWriter} {f}, J t notes w f → J (T.insertValue c value).2 notes w f)
    (oldValue : Str) :
    ∃ w' notes' f', onDataTableValueChanged (T.insertValue c value).2 c oldValue value w = some w' ∧
      J (T.insertValue c value).2 notes' w' f' ∧
      w'.Tracks ((T.insertValue c value).2.withNotes notes') f' := by
  rw [onDataTableValueChanged]
  generalize diff oldValue value = n
  have htracks : ((w.countData n).checkCoords c).Tracks
      ((T.insertValue c value).2.withNotes notes) f := by
    rw [← DataTable.insertValue_withNotes]
    exact (hmid.countData n).checkCoords (hhead.withNotes notes) hrows hc hc' value
  obtain ⟨w', notes', f', hw', hJ, hmid'⟩ :=
    K.writeIfDue (hvalue (K.checkCoords (K.countData h n) c)) hT htracks
  refine ⟨w', notes', f', hw', hJ, hmid'.resolve_right ?_⟩
  rintro ⟨hzero, _⟩
  rw [DataTable.withNotes_numRows, DataTable.numRows_insertValue hc] at hzero
  omega

/-- **An insert keeps the writer in step**, wherever in it a write falls.  If its column is known the
writer has to be in step before; a new column makes the next write a full one. -/
theorem insert (K : Keeps J) (h : J t notes w f) (ht : t.Consistent) (order : EvalOrder)
    (key colName value : Str) (htracks : colName ∈ t.cols → w.Tracks (t.withNotes notes) f)
    (hcolumn : ∀ {w : DataTableWriter} {f}, J t notes w f →
      colName ∈ t.cols ∨ w.myFullWriteRequired = true →
        J ((DataTable.seenByColumn order t key).withColumn colName) notes w f)
    (hvalue : ∀ {notes} {w : DataTableWriter} {f},
      J ((DataTable.seenByColumn order t key).withColumn colName) notes w f →
        J (t.put key colName value) notes w f) :
    ∃ w' notes' f', t.insert listener order w key colName value
        = some (t.coordsOf key colName, t.put key colName value, w') ∧
      J (t.put key colName value) notes' w' f' ∧
      w'.Tracks ((t.put key colName value).withNotes notes') f' := by
  have hcols := DataTable.seenByColumn_cols order t key
  have hseen : colName ∈ (DataTable.seenByColumn order t key).cols →
      w.Tracks ((DataTable.seenByColumn order t key).withNotes notes) f := by
    intro hmem
    have h := htracks (hcols ▸ hmem)
    cases order with
    | rowFirst =>
        exact h.imp id fun hup => hup.of_prefix
          ((DataTable.sameHead_withRow t key).withNotes notes) (DataTable.prefix_withRow t key)
    | colFirst => exact h
  obtain ⟨w₁, notes₁, f₁, hw₁, hJ₁, hmid₁⟩ := K.columnMessage h (ht.seenByColumn order key) hseen
    (hcols.symm ▸ hcolumn)
  obtain ⟨hhead, hrows⟩ := DataTable.seenByColumn_withColumn order t key colName
  obtain ⟨w₂, notes₂, f₂, hw₂, hJ₂, htracks₂⟩ :=
    K.valueChanged hJ₁ hmid₁ hhead hrows (ht.coordsOf_fst_lt key colName)
      (ht.coordsOf_fst_le order key colName) (ht.put key colName value) hvalue
      (t.oldValue key colName value)
  refine ⟨w₂, notes₂, f₂, ?_, hJ₂, htracks₂⟩
  have hmessage : listener.onDataTableValueChanged (t.put key colName value)
      (t.coordsOf key colName) (t.oldValue key colName value) value w₁ = some w₂ := hw₂
  rw [ht.insert_eq, hw₁, Option.bind_some, hmessage]
  rfl

end Keeps

/-! ### What holds of a writer and its writes -/

theorem Live.startPos_le {w : DataTableWriter} {f : Str} (h : w.Live f) :
    w.startPos ≤ f.length := by
  rw [startPos]
  split
  · exact h.marker_le.trans h.pos_le
  · exact h.pos_le

theorem Completes.length_text {w w' : DataTableWriter} {t : DataTable} {f bs : Str}
    (h : w.Completes w' t f bs) (hmarker : w.myWriteMarker = 0) :
    (t.text myColumnDelimiter).length = w'.myOutStream.pos := by
  rw [← h.written, DataTableWriter.written, length_window h.live.pos_le, h.marker, hmarker, Nat.sub_zero]

/-- The file grows to the put position, and never shrinks. -/
theorem Completes.length_file {w w' : DataTableWriter} {t : DataTable} {f bs : Str}
    (h : w.Completes w' t f bs) (hsound : w.Sound f) :
    (overwrite NUL f w.startPos bs).length = max f.length (t.text myColumnDelimiter).length := by
  rw [length_overwrite NUL hsound.live.startPos_le, h.length_text hsound.marker, h.pos]

/-- **A write leaves the table alone in the file if and only if the file was not longer.** -/
theorem Completes.alone_iff {w w' : DataTableWriter} {t : DataTable} {f bs : Str}
    (h : w.Completes w' t f bs) (hsound : w.Sound f) :
    w'.disk = some (t.text myColumnDelimiter) ↔ f.length ≤ (t.text myColumnDelimiter).length := by
  have hlength := h.length_file hsound
  have htake : (overwrite NUL f w.startPos bs).take (t.text myColumnDelimiter).length
      = t.text myColumnDelimiter := by
    conv_rhs => rw [← h.written, DataTableWriter.written, h.marker, hsound.marker, window,
      List.drop_zero, Nat.sub_zero, ← h.length_text hsound.marker]
  rw [h.live.disk, Option.some_inj]
  constructor
  · intro heq
    rw [heq] at hlength
    exact hlength ▸ le_max_left _ _
  · intro hle
    rw [max_eq_right hle] at hlength
    rw [← htake, ← hlength, List.take_length]

/-- If every write so far has fitted, an incremental write starts at the end of the file. -/
theorem Completes.fits_of_incremental {w w' : DataTableWriter} {t : DataTable} {f bs : Str}
    (h : w.Completes w' t f bs) (hsound : w.Sound f) (hfits : ∀ r ∈ w.history, r.Fits)
    (hfull : w.myFullWriteRequired = false) : f.length ≤ (t.text myColumnDelimiter).length := by
  rw [h.length_text hsound.marker, h.pos, startPos, if_neg (by simp [hfull]), hsound.at_end hfits]
  exact Nat.le_add_right _ _

/-- All writes have fitted if those before have and the last one found a file that was not longer. -/
theorem Completes.fits_record {w w' : DataTableWriter} {t : DataTable} {f bs : Str}
    (h : w.Completes w' t f bs) (hsound : w.Sound f)
    (hfits : ∀ r ∈ (w'.record t w).history, r.Fits) :
    (∀ r ∈ w.history, r.Fits) ∧ f.length ≤ (t.text myColumnDelimiter).length := by
  have hold : ∀ r ∈ w.history, r.Fits := fun r hr => hfits r ((h.mem_history r).mpr (Or.inl hr))
  refine ⟨hold, ?_⟩
  cases hfull : w.myFullWriteRequired with
  | true =>
      have hlast := hfits _ ((h.mem_history _).mpr (Or.inr rfl)) hfull
      rwa [hsound.live.disk] at hlast
  | false => exact h.fits_of_incremental hsound hold hfull

/-- **A write keeps what holds of the writer on its own.** -/
theorem Sound.record {w w' : DataTableWriter} {t : DataTable} {f bs : Str} (h : w.Sound f)
    (hw : w.Completes w' t f bs) : (w'.record t w).Sound (overwrite NUL f w.startPos bs) where
  live := hw.live_record
  marker := hw.marker.trans h.marker
  shows := by
    intro r hr
    rcases (hw.mem_history r).mp hr with hr | rfl
    · exact h.shows r hr
    · show window (w'.disk.getD []) w'.myWriteMarker w'.myOutStream.pos ++ ['\n'] = _
      rw [hw.live.disk, Option.getD_some, DataTable.writeToFile, ← hw.written]
      rfl
  fresh := fun hnil => absurd ((hw.mem_history _).mpr (Or.inr rfl)) (hnil ▸ List.not_mem_nil)
  fits_of_only := by
    intro r hr honly
    rcases (hw.mem_history r).mp hr with hr | rfl
    · exact h.fits_of_only r hr honly
    · intro _
      show (w.disk.getD []).length ≤ _
      rw [h.live.disk]
      exact (hw.alone_iff h).mp honly
  only_of_fits := by
    intro hfits r hr
    obtain ⟨hold, hlast⟩ := hw.fits_record h hfits
    rcases (hw.mem_history r).mp hr with hr | rfl
    · exact h.only_of_fits hold r hr
    · exact (hw.alone_iff h).mpr hlast
  at_end := by
    intro hfits
    show w'.myOutStream.pos = _
    rw [hw.length_file h, max_eq_right (hw.fits_record h hfits).2, hw.length_text h.marker]

/-- **The writer keeps what holds of it on its own.** -/
theorem keeps_sound : Keeps fun t notes w f => notes = t.myTableNotes ∧ w.Sound f where
  live h := h.2.live
  countData := fun ⟨hnotes, h⟩ _ =>
    ⟨hnotes, ⟨h.live.isOpen, h.live.good, h.live.disk, h.live.marker_le, h.live.pos_le⟩, h.marker,
      h.shows, h.fresh, h.fits_of_only, h.only_of_fits, h.at_end⟩
  requireFullWrite := fun ⟨hnotes, h⟩ =>
    ⟨hnotes, ⟨h.live.isOpen, h.live.good, h.live.disk, h.live.marker_le, h.live.pos_le⟩, h.marker,
      h.shows, fun _ => rfl, h.fits_of_only, h.only_of_fits, h.at_end⟩
  full := fun ⟨_, h⟩ _ hcompletes => ⟨rfl, h.record hcompletes⟩
  incremental := by
    rintro t notes w w' f bs ⟨rfl, h⟩ _ _ hcompletes
    exact ⟨rfl, h.record hcompletes⟩

end DataTableWriter

end StructurePipe.Utility
