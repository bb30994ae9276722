import StructurePipe.Utility.DataTableWriterSession

/-!
# Notes and clearing after the first write

`addTableNote` and `clear` send no message, so the writer does not know that its file is out of date.
A cleared table does no harm as long as it is not written at once: the first insert into it brings a
new column, which makes the next write a full one.  A note is missed by every incremental write that
follows it.

In this file a session is any sequence of calls on the table and of writes.  The invariant is the rule
of `DataTableWriterSync` with the notes that are in the file, which are the first notes of the table
as long as no full write is pending.

* `text_withNotes_eq_iff` — a table with fewer notes has another text;
* `changes_reach_writer_iff` — **every write shows the table if and only if no note is added before an
  incremental write.**
-/

namespace StructurePipe.Utility

open OverwrittenFile StepRuns

namespace DataTable

/-- **A table with fewer notes has another text.** -/
theorem text_withNotes_eq_iff {t : DataTable} {notes : List Str} (h : notes <+: t.myTableNotes)
    (d : Str) : (t.withNotes notes).text d = t.text d ↔ notes = t.myTableNotes := by
  constructor
  · intro htext
    obtain ⟨more, hmore⟩ := h
    have hnotes : (t.withNotes notes).notesText = t.notesText :=
      List.append_cancel_left (List.append_cancel_right htext)
    rw [notesText_eq, notesText_eq, ← hmore, List.flatMap_append] at hnotes
    have hnil := List.self_eq_append_right.mp hnotes
    cases more with
    | nil => rw [← hmore, List.append_nil]
    | cons note more => simp at hnil
  · rintro rfl
    rfl

end DataTable

/-- The second write is a full one or finds the notes that the first one found. -/
def WriteRecord.SameNotes (r r' : WriteRecord) : Prop :=
  r'.full = false → r'.table.myTableNotes = r.table.myTableNotes

instance (r r' : WriteRecord) : Decidable (r.SameNotes r') := inferInstanceAs (Decidable (_ → _))

namespace DataTableWriter

/-- A record shows its table exactly if the text in the window is the text of the table. -/
theorem Completes.showsTable_iff {w w' : DataTableWriter} {t T : DataTable} {f bs : Str}
    (h : w.Completes w' T f bs) :
    WriteRecord.ShowsTable ⟨t, w.myFullWriteRequired, w.disk, w'.disk, w'.myWriteMarker,
        w'.myOutStream.pos⟩ ↔ T.text myColumnDelimiter = t.text myColumnDelimiter := by
  have hwindow : window (w'.disk.getD []) w'.myWriteMarker w'.myOutStream.pos
      = T.text myColumnDelimiter := by
    rw [h.live.disk, ← h.written]
    rfl
  show _ ++ ['\n'] = t.text myColumnDelimiter ++ ['\n'] ↔ _
  rw [hwindow]
  exact List.append_left_inj ['\n']

/-- What holds of a writer, its writes and the notes in its file at any time.  All writes have shown
their tables exactly if each incremental one has found the notes of the write before; if so, these
are the notes in the file.  Unless a full write is pending, the table has more notes at most. -/
structure Noted (t : DataTable) (notes : List Str) (w : DataTableWriter) (f : Str) : Prop where
  live : w.Live f
  fresh : w.history = [] → w.myFullWriteRequired = true
  shows_iff : (∀ r ∈ w.history, r.ShowsTable) ↔ w.history.IsChain WriteRecord.SameNotes
  last : (∀ r ∈ w.history, r.ShowsTable) → ∀ r ∈ w.history.getLast?, r.table.myTableNotes = notes
  more : w.myFullWriteRequired = false → t.cols ≠ [] → notes <+: t.myTableNotes
  cols : 0 < t.numRows → t.cols ≠ []

/-- One more record. -/
theorem shows_iff_concat {history : List WriteRecord} {r : WriteRecord}
    (h : (∀ r ∈ history, r.ShowsTable) ↔ history.IsChain WriteRecord.SameNotes)
    (hr : (∀ r ∈ history, r.ShowsTable) → (r.ShowsTable ↔ ∀ x ∈ history.getLast?, x.SameNotes r)) :
    (∀ x ∈ history ++ [r], x.ShowsTable) ↔ (history ++ [r]).IsChain WriteRecord.SameNotes := by
  have hlast : (∀ x ∈ history.getLast?, ∀ y ∈ [r].head?, x.SameNotes y)
      ↔ ∀ x ∈ history.getLast?, x.SameNotes r := by simp
  rw [List.forall_mem_append, List.forall_mem_singleton, List.isChain_append, hlast, ← h]
  constructor
  · rintro ⟨hall, hshows⟩
    exact ⟨hall, List.isChain_singleton r, (hr hall).mp hshows⟩
  · rintro ⟨hall, _, hsame⟩
    exact ⟨hall, (hr hall).mpr hsame⟩

theorem keeps_noted : Keeps Noted where
  live := Noted.live
  countData h _ := ⟨⟨h.live.isOpen, h.live.good, h.live.disk, h.live.marker_le, h.live.pos_le⟩,
    h.fresh, h.shows_iff, h.last, h.more, h.cols⟩
  requireFullWrite h := ⟨⟨h.live.isOpen, h.live.good, h.live.disk, h.live.marker_le, h.live.pos_le⟩,
    fun _ => rfl, h.shows_iff, h.last, fun hfull => absurd hfull (by simp [requireFullWrite]), h.cols⟩
  full := by
    intro t notes w w' f bs h hfull hcompletes
    refine ⟨hcompletes.live_record, fun hnil => absurd hnil (by simp [record]), ?_, ?_,
      fun _ _ => List.prefix_rfl, h.cols⟩
    · rw [record, hcompletes.history]
      refine shows_iff_concat h.shows_iff fun _ => iff_of_true ?_ fun x _ hincremental => ?_
      · exact hcompletes.showsTable_iff.mpr rfl
      · exact absurd hincremental (by simp [hfull])
    · intro _ r hr
      rw [record, List.getLast?_concat, Option.mem_some_iff] at hr
      rw [← hr]
  incremental := by
    intro t notes w w' f bs h hfull hrows hcompletes
    have hmore := h.more hfull (h.cols hrows)
    have hshown := hcompletes.showsTable_iff (t := t)
    rw [DataTable.text_withNotes_eq_iff hmore] at hshown
    have hlast : ∃ x, w.history.getLast? = some x := by
      cases hnil : w.history.getLast? with
      | none =>
          have hfresh := h.fresh (List.getLast?_eq_none_iff.mp hnil)
          exact absurd hfresh (by simp [hfull])
      | some x => exact ⟨x, rfl⟩
    obtain ⟨x, hx⟩ := hlast
    refine ⟨hcompletes.live_record, fun hnil => absurd hnil (by simp [record]), ?_, ?_,
      fun _ _ => hmore, h.cols⟩
    · rw [record, hcompletes.history]
      refine shows_iff_concat h.shows_iff fun hall => hshown.trans ?_
      have hnotes := h.last hall x hx
      simp only [hx, Option.mem_def, Option.some.injEq, forall_eq', WriteRecord.SameNotes, hfull,
        forall_const, hnotes]
      exact eq_comm
    · intro hall r hr
      rw [record, List.getLast?_concat, Option.mem_some_iff] at hr
      have hshows := hall r ((hcompletes.mem_history r).mpr (Or.inr hr.symm))
      rw [← hr] at hshows ⊢
      exact (hshown.mp hshows).symm

end DataTableWriter

namespace Session

/-- The invariant of a session with notes and clearing: the writer may have lost track of a table
without rows. -/
structure Heard (s : Session) : Prop where
  consistent : s.table.Consistent
  cols_nil : s.table.numRows = 0 → s.table.cols = []
  sync : ∃ notes f, DataTableWriter.Noted s.table notes s.writer f ∧
    (s.writer.Tracks (s.table.withNotes notes) f ∨ s.table.numRows = 0)

/-- **An insert is heard.** -/
theorem Heard.insert {s : Session} (h : s.Heard) (order : EvalOrder) (key colName value : Str) :
    ∃ s', s.step (.table (.insert order key colName value)) = some s' ∧ s'.Heard := by
  obtain ⟨ht, hcols, notes, f, hnoted, hsync⟩ := h
  have hnotes := DataTable.seenByColumn_notes order s.table key colName
  have hne : ((DataTable.seenByColumn order s.table key).withColumn colName).cols ≠ [] := by
    rw [DataTable.withColumn_cols]
    exact List.ne_nil_of_mem (FirstInsertion.mem_register.mpr (Or.inr rfl))
  have htracks : colName ∈ s.table.cols → s.writer.Tracks (s.table.withNotes notes) f := by
    refine fun hmem => hsync.resolve_right fun hzero => ?_
    rw [hcols hzero] at hmem
    exact absurd hmem List.not_mem_nil
  obtain ⟨w', notes', f', hw', hnoted', htracks'⟩ :=
    DataTableWriter.keeps_noted.insert hnoted ht order key colName value htracks
      (fun hJ hknown => ⟨hJ.live, hJ.fresh, hJ.shows_iff, hJ.last, fun hfull _ =>
        hnotes ▸ hJ.more hfull (List.ne_nil_of_mem (hknown.resolve_right (by simp [hfull]))),
        fun _ => hne⟩)
      (fun hJ => ⟨hJ.live, hJ.fresh, hJ.shows_iff, hJ.last, fun hfull _ =>
        (ht.put_notes key colName value).symm ▸ hnotes ▸ hJ.more hfull hne,
        fun _ => ht.put_cols_ne_nil key colName value⟩)
  refine ⟨⟨s.table.put key colName value, w'⟩, ?_, ht.put key colName value, ?_, notes', f',
    hnoted', Or.inl htracks'⟩
  · rw [Session.step, TableOp.apply, hw']
    rfl
  · exact fun hzero => absurd hzero (ht.numRows_put_pos key colName value).ne'

/-- **Every call keeps the invariant**, if a write has somewhere to start. -/
theorem Heard.step {s : Session} (h : s.Heard) {op : SessionOp} (hop : op ≠ .streamFails)
    (hdefined : s.WriteDefined op) : ∃ s', s.step op = some s' ∧ s'.Heard := by
  obtain ⟨ht, hcols, notes, f, hnoted, hsync⟩ := id h
  cases op with
  | table op =>
      cases op with
      | insert order key colName value => exact h.insert order key colName value
      | addTableNote note =>
          refine ⟨_, rfl, ht.addTableNote note, hcols, notes, f, ?_, hsync⟩
          exact ⟨hnoted.live, hnoted.fresh, hnoted.shows_iff, hnoted.last,
            fun hfull hne => (hnoted.more hfull hne).trans (List.prefix_append _ _), hnoted.cols⟩
      | clear =>
          refine ⟨_, rfl, DataTable.consistent_empty, fun _ => rfl, notes, f, ?_, Or.inr rfl⟩
          exact ⟨hnoted.live, hnoted.fresh, hnoted.shows_iff, hnoted.last,
            fun _ hne => absurd rfl hne, fun hrows => absurd hrows (Nat.lt_irrefl 0)⟩
  | write =>
      have htracks : s.writer.Tracks (s.table.withNotes notes) f := by
        rcases hdefined rfl with hrows | hfull
        · exact hsync.resolve_right hrows.ne'
        · exact Or.inl hfull
      obtain ⟨w', notes', f', hw', hnoted', hmid'⟩ :=
        DataTableWriter.keeps_noted.write hnoted ht htracks
      exact ⟨⟨s.table, w'⟩, by rw [Session.step, hw']; rfl, ht, hcols, notes', f', hnoted',
        hmid'.imp id And.left⟩
  | streamFails => exact absurd rfl hop

end Session

/-- **When every table change reaches the writer.**  A writer is attached to a table with any past,
and inserts, notes, clearing and writes come in any order.  Every completed write shows the table of
that moment between the write marker and the put position if and only if no write starts from a row
that does not exist, as after `clear`, and every incremental write finds the notes that the write
before it found. -/
theorem changes_reach_writer_iff {σ : Type*} (l : Listener σ) (s₀ : σ) (before : List TableOp)
    {t : DataTable} {s₁ : σ} (ht : run (TableOp.apply l) ({}, s₀) before = some (t, s₁))
    (append : Bool) (writeDelay : ℕ) (disk : Disk) (ops : List SessionOp)
    (hops : .streamFails ∉ ops) :
    (∃ s, run Session.step ⟨t, DataTableWriter.initialise append writeDelay true disk⟩ ops = some s ∧
        ∀ r ∈ s.writer.history, window (r.disk.getD []) r.marker r.pos ++ ['\n']
          = r.table.writeToFile [' ']) ↔
      Along Session.step Session.WriteDefined
        ⟨t, DataTableWriter.initialise append writeDelay true disk⟩ ops ∧
      ∀ s, run Session.step ⟨t, DataTableWriter.initialise append writeDelay true disk⟩ ops = some s →
        s.writer.history.IsChain fun r r' =>
          r'.full = false → r'.table.myTableNotes = r.table.myTableNotes := by
  have hrows := numRows_eq_zero_iff_run l s₀ ht
  have hstart : Session.Heard ⟨t, DataTableWriter.initialise append writeDelay true disk⟩ := by
    obtain ⟨hsound, hfull, hhistory⟩ := DataTableWriter.sound_initialise append writeDelay disk
    refine ⟨(represents_run l s₀ ht).consistent, hrows.mp, [], [], ?_, Or.inl (Or.inl hfull)⟩
    exact ⟨hsound.live, fun _ => hfull, by simp [hhistory], by simp [hhistory],
      fun hno => absurd (hfull.symm.trans hno) (by simp), fun hpos hnil => hpos.ne' (hrows.mpr hnil)⟩
  have hne : ∀ s : Session, ∀ op ∈ ops, s.WriteDefined op → op ≠ .streamFails ∧ s.WriteDefined op :=
    fun s op hmem hdefined => ⟨fun heq => hops (heq ▸ hmem), hdefined⟩
  have htotal := fun h => run_total Session.Heard
    (fun s op => op ≠ .streamFails ∧ s.WriteDefined op)
    (fun s op hs hop => hs.step hop.1 hop.2) hstart (Along.mono hne h)
  constructor
  · rintro ⟨s, hrun, hshows⟩
    have hdefined : Along Session.step Session.WriteDefined _ ops :=
      along_of_run (fun s op s' h hop => Session.admissible_write_of_step (hop ▸ h)) hrun
    refine ⟨hdefined, fun s' hrun' => ?_⟩
    obtain ⟨s'', hrun'', hs''⟩ := htotal hdefined
    obtain rfl : s' = s := Option.some.inj (hrun'.symm.trans hrun)
    obtain rfl : s'' = s' := Option.some.inj (hrun''.symm.trans hrun)
    obtain ⟨notes, f, hnoted, _⟩ := hs''.sync
    exact hnoted.shows_iff.mp hshows
  · rintro ⟨hdefined, hchain⟩
    obtain ⟨s, hrun, hs⟩ := htotal hdefined
    obtain ⟨notes, f, hnoted, _⟩ := hs.sync
    exact ⟨s, hrun, hnoted.shows_iff.mpr (hchain s hrun)⟩

/-- A note after an incremental write is shown if a new column comes before the next write, and a
cleared table once something is inserted. -/
theorem changes_reach_writer_iff_at :
    ∃ s, run Session.step ⟨{}, DataTableWriter.initialise true 50 true none⟩
        [.table (.insert .rowFirst ['a'] ['x'] ['1']), .write,
          .table (.insert .rowFirst ['b'] ['x'] ['2']), .write, .table (.addTableNote ['n']),
          .table (.insert .rowFirst ['a'] ['y'] ['3']), .write, .table .clear,
          .table (.insert .rowFirst ['b'] ['x'] ['4']), .write] = some s ∧
      ∀ r ∈ s.writer.history, window (r.disk.getD []) r.marker r.pos ++ ['\n']
        = r.table.writeToFile [' '] := by
  refine (changes_reach_writer_iff silentListener () [] rfl true 50 none
    [.table (.insert .rowFirst ['a'] ['x'] ['1']), .write,
      .table (.insert .rowFirst ['b'] ['x'] ['2']), .write, .table (.addTableNote ['n']),
      .table (.insert .rowFirst ['a'] ['y'] ['3']), .write, .table .clear,
      .table (.insert .rowFirst ['b'] ['x'] ['4']), .write] (by decide)).mpr ⟨by decide, ?_⟩
  intro s hrun
  have hall : (run Session.step ⟨{}, DataTableWriter.initialise true 50 true none⟩
      [.table (.insert .rowFirst ['a'] ['x'] ['1']), .write,
        .table (.insert .rowFirst ['b'] ['x'] ['2']), .write, .table (.addTableNote ['n']),
        .table (.insert .rowFirst ['a'] ['y'] ['3']), .write, .table .clear,
        .table (.insert .rowFirst ['b'] ['x'] ['4']), .write]).all (fun s =>
          decide (s.writer.history.IsChain WriteRecord.SameNotes)) = true := by
    decide
  rw [hrun, Option.all_some, decide_eq_true_eq] at hall
  exact hall

/-- **A note is missed, and a cleared table cannot be written.**  The write after the note is an
incremental one; the write after `clear` starts from a row that does not exist. -/
theorem note_missed_by_next_write :
    (∃ s, run Session.step ⟨{}, DataTableWriter.initialise true 50 true none⟩
        [.table (.insert .rowFirst ['a'] ['x'] ['1']), .write, .table (.addTableNote ['n']),
          .write] = some s ∧
      ∃ r ∈ s.writer.history, r.table.myTableNotes = [['n']] ∧
        r.disk = some "# [key] x\na 1".toList ∧
        window (r.disk.getD []) r.marker r.pos ++ ['\n'] ≠ r.table.writeToFile [' ']) ∧
      run Session.step ⟨{}, DataTableWriter.initialise true 50 true none⟩
        [.table (.insert .rowFirst ['a'] ['x'] ['1']), .write, .table .clear, .write] = none :=
  ⟨⟨_, rfl, _, List.mem_of_getLast? rfl, rfl, rfl, by decide⟩, by decide⟩

end StructurePipe.Utility
