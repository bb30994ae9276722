import StructurePipe.Utility.DataTableWriterCalls

/-!
# Where a write starts and ends

An incremental write starts at the remembered coordinates, which outlive every change of the table,
and both paths end with `myLastWriteCoords.first = myTable.numRows() - 1`.  `writeFrom` asserts that
its start row is in the table.

What keeps the coordinates inside is that rows are never removed and never get shorter but by `clear`,
which empties the table: the next insert then brings a new column, and with it a full write.  A table
without rows is thus the only place where a write goes wrong, and in it every write does that gets to
its last line.

* `Session.Placed.inBounds_iff` — which step makes a call that leaves the table;
* `writes_in_bounds_iff` — **all indices of all writes of a run lie in the table if and only if no
  write happens to find a table without rows.**
-/

namespace StructurePipe.Utility

open StepRuns

namespace WriteCall

/-- Every index of a call lies in the table: the row and the column where the incremental path starts,
and, if the call gets that far, the last row. -/
def InBounds (call : WriteCall) : Prop :=
  (call.writer.myFullWriteRequired = false →
    call.writer.myLastWriteCoords.1 < call.table.numRows ∧
    call.writer.myLastWriteCoords.2
      ≤ (call.table.myRows.getD call.writer.myLastWriteCoords.1 []).length) ∧
  (call.writer.myFullWriteRequired = false ∨ call.writer.ready = true →
    sizePred call.table.numRows + 1 = call.table.numRows)

instance (call : WriteCall) : Decidable call.InBounds := inferInstanceAs (Decidable (_ ∧ _))

end WriteCall

theorem sizePred_add_one_iff (n : ℕ) : sizePred n + 1 = n ↔ 0 < n := by
  rw [sizePred, SIZE_MAX]
  split <;> omega

namespace DataTableWriter

/-- A full write is pending, or the remembered coordinates are a position in the table. -/
def Bookkeeping.Placed (b : Bookkeeping) (t : DataTable) : Prop :=
  b.myFullWriteRequired = true ∨ t.Position b.myLastWriteCoords

/-- Between the messages of an insert the table may also have been written without any row. -/
def Bookkeeping.MidPlaced (b : Bookkeeping) (t : DataTable) : Prop :=
  b.Placed t ∨ t.numRows = 0 ∧ b.myLastWriteCoords.1 = SIZE_MAX

theorem Bookkeeping.Placed.position {w : DataTableWriter} {t : DataTable} (h : w.books.Placed t)
    (hfull : w.myFullWriteRequired = false) : t.Position w.myLastWriteCoords :=
  h.resolve_left (by simp [books, hfull])

theorem Bookkeeping.Placed.mono {b : Bookkeeping} {t T : DataTable} (h : b.Placed t)
    (hrows : t.myRows <+: T.myRows) : b.Placed T :=
  h.imp id fun hposition => hposition.mono hrows

theorem midPlaced_end {t : DataTable} (ht : t.Consistent) (width n : ℕ) :
    (⟨(sizePred t.numRows, lastWidth t.myRows width), false, n⟩ : Bookkeeping).MidPlaced t := by
  rcases Nat.eq_zero_or_pos t.numRows with hzero | hpos
  · exact Or.inr ⟨hzero, by simp [sizePred, hzero]⟩
  · exact Or.inl (Or.inr (position_end ht hpos width))

/-- **A write succeeds and leaves coordinates in the table**, unless the table has no row. -/
theorem write_placed {w : DataTableWriter} {t : DataTable} (ht : t.Consistent)
    (h : w.books.Placed t) :
    ∃ ok w', w.write t = some (ok, w') ∧ w'.books.MidPlaced t := by
  cases hfull : w.myFullWriteRequired with
  | true =>
      obtain ⟨w', hw', hbooks⟩ := write_full t hfull
      refine ⟨w.ready, w', hw', ?_⟩
      rw [hbooks]
      split
      · exact midPlaced_end ht _ _
      · exact Or.inl (Or.inl hfull)
  | false =>
      have hposition := h.position hfull
      obtain ⟨w', hw', hbooks⟩ := write_incremental hfull hposition.row_eq hposition.width_pos
        hposition.width_le
      refine ⟨true, w', hw', ?_⟩
      rw [hbooks, lastWidth_drop hposition.row_lt 0]
      exact midPlaced_end ht _ _

theorem writeIfDue_placed {w : DataTableWriter} {t : DataTable} (ht : t.Consistent)
    (h : w.books.Placed t) : ∃ w', w.writeIfDue t = some w' ∧ w'.books.MidPlaced t := by
  rw [writeIfDue]
  split
  · obtain ⟨ok, w', hw', hplaced⟩ := write_placed ht h
    exact ⟨w', by rw [hw']; rfl, hplaced⟩
  · exact ⟨w, rfl, Or.inl h⟩

/-- A full write uses no index but that of the last row. -/
theorem inBounds_full_iff {w : DataTableWriter} (t : DataTable) (hfull : w.myFullWriteRequired = true) :
    WriteCall.InBounds ⟨t, w⟩ ↔ (w.ready = true → 0 < t.numRows) := by
  simp [WriteCall.InBounds, hfull, sizePred_add_one_iff]

/-- **The write that a new column may lead to**, after `n` more characters. -/
theorem column_calls {w : DataTableWriter} {t : DataTable} (ht : t.Consistent) (n : ℕ) :
    (∃ w', (Watched.writeIfDue ⟨some (w.countData n).requireFullWrite, []⟩ t).writer = some w' ∧
      w'.books.MidPlaced t) ∧
    ((∀ call ∈ (Watched.writeIfDue ⟨some (w.countData n).requireFullWrite, []⟩ t).calls,
        call.InBounds) ↔
      0 < t.numRows ∨ w.ready = false ∨ w.myDataSinceWrite + n ≤ w.myWriteDelay) := by
  have hfull : (w.countData n).requireFullWrite.myFullWriteRequired = true := rfl
  have hready : (w.countData n).requireFullWrite.ready = w.ready := rfl
  have hdue : (w.countData n).requireFullWrite.myWriteDelay
      < (w.countData n).requireFullWrite.myDataSinceWrite ↔
        ¬ w.myDataSinceWrite + n ≤ w.myWriteDelay := not_le.symm
  constructor
  · rw [Watched.writeIfDue_writer]
    exact writeIfDue_placed ht (Or.inl hfull)
  · rw [Watched.forall_calls_writeIfDue]
    simp only [List.not_mem_nil, false_imp_iff, implies_true, true_and, Option.mem_some_iff,
      forall_eq', inBounds_full_iff t hfull, hready, hdue]
    cases w.ready with
    | false => simp
    | true => simp [or_iff_not_imp_right]

/-- A call whose coordinates are placed stays in the table if this has a row. -/
theorem inBounds_of_placed {w : DataTableWriter} {t : DataTable} (h : w.books.Placed t)
    (hrows : 0 < t.numRows) : WriteCall.InBounds ⟨t, w⟩ := by
  refine ⟨fun hfull => ?_, fun _ => (sizePred_add_one_iff _).mpr hrows⟩
  exact ⟨(h.position hfull).row_lt, (h.position hfull).width_le⟩

/-- **The comparison of the coordinates is enough** here too.  The table `t` is the one the writer has
last seen, `T` has the row and the column of the cell registered. -/
theorem placed_checkCoords {w : DataTableWriter} {t T : DataTable} (h : w.books.MidPlaced t)
    (hrows : t.myRows <+: T.myRows) {c : Coords} (hc : c.1 < T.numRows) (hc' : c.1 ≤ t.numRows)
    (value : Str) : (w.checkCoords c).books.Placed (T.insertValue c value).2 := by
  rcases w.checkCoords_cases c with hset | ⟨hfull, hlt, heq⟩
  · exact Or.inl hset
  · rw [heq]
    rcases h with hplaced | ⟨hzero, hmax⟩
    · exact Or.inr (((hplaced.position hfull).mono hrows).insertValue hc value)
    · exact absurd (lt_of_wrapped hmax (by omega)) hlt

/-- **The write that a new value may lead to**, after `n` more characters, has a row to find. -/
theorem value_calls {x : Watched} {w : DataTableWriter} {t T : DataTable} (hw : x.writer = some w)
    (h : w.books.MidPlaced t) (hrows : t.myRows <+: T.myRows) {c : Coords} (hc : c.1 < T.numRows)
    (hc' : c.1 ≤ t.numRows) {value : Str} (hT : (T.insertValue c value).2.Consistent) (n : ℕ) :
    (∃ w', ((x.map fun w => (w.countData n).checkCoords c).writeIfDue
        (T.insertValue c value).2).writer = some w' ∧
      w'.books.Placed (T.insertValue c value).2) ∧
    ((∀ call ∈ ((x.map fun w => (w.countData n).checkCoords c).writeIfDue
        (T.insertValue c value).2).calls, call.InBounds) ↔ ∀ call ∈ x.calls, call.InBounds) := by
  have hcount : (w.countData n).books.MidPlaced t := h
  have hplaced := placed_checkCoords hcount hrows hc hc' value
  have hpos : 0 < (T.insertValue c value).2.numRows := by
    rw [DataTable.numRows_insertValue hc]
    exact (Nat.zero_le _).trans_lt hc
  have hwriter : (x.map fun w => (w.countData n).checkCoords c).writer
      = some ((w.countData n).checkCoords c) := by
    rw [Watched.map_writer, hw, Option.map_some]
  constructor
  · obtain ⟨w', hw', hmid⟩ := writeIfDue_placed hT hplaced
    refine ⟨w', ?_, hmid.resolve_right fun hzero => hpos.ne' hzero.1⟩
    rw [Watched.writeIfDue_writer, hwriter, Option.bind_some, hw']
  · rw [Watched.forall_calls_writeIfDue, Watched.map_calls, hwriter]
    refine and_iff_left fun v hv _ => ?_
    rw [← Option.some.inj hv]
    exact inBounds_of_placed hplaced hpos

theorem books_initialise (append : Bool) (writeDelay : ℕ) (openable : Bool) (disk : Disk) :
    (initialise append writeDelay openable disk).books = ⟨(0, 0), true, 0⟩ := by
  rw [initialise, openStream]
  split <;> rfl

end DataTableWriter

namespace Session

/-- The invariant of a session: in a table with a row the coordinates are a position. -/
structure Placed (s : Session) : Prop where
  consistent : s.table.Consistent
  cols_nil : s.table.numRows = 0 → s.table.cols = []
  placed : 0 < s.table.numRows → s.writer.books.Placed s.table

/-- No call of the step finds a table without rows, or none that does gets to its last line.  An insert
makes its row before its first write unless `col` runs before `row`. -/
def FindsRow (s : Session) : SessionOp → Prop
  | .table (.insert order _ colName _) =>
      0 < s.table.numRows ∨ order = .rowFirst ∨ s.writer.ready = false ∨
        s.writer.myDataSinceWrite + DataTableWriter.diff [] colName ≤ s.writer.myWriteDelay
  | .table (.addTableNote _) => True
  | .table .clear => True
  | .write => 0 < s.table.numRows ∨ s.writer.myFullWriteRequired = true ∧ s.writer.ready = false
  | .streamFails => True

instance (s : Session) (op : SessionOp) : Decidable (s.FindsRow op) :=
  match op with
  | .table (.insert _ _ _ _) => inferInstanceAs (Decidable (_ ∨ _))
  | .table (.addTableNote _) => isTrue trivial
  | .table .clear => isTrue trivial
  | .write => inferInstanceAs (Decidable (_ ∨ _))
  | .streamFails => isTrue trivial

/-- When the table has a row in the column half of an insert. -/
theorem numRows_seenByColumn_pos_iff {t : DataTable} (ht : t.Consistent) (order : EvalOrder)
    (key colName : Str) :
    0 < ((DataTable.seenByColumn order t key).withColumn colName).numRows ↔
      0 < t.numRows ∨ order = .rowFirst := by
  rw [DataTable.numRows, DataTable.withColumn_myRows]
  cases order with
  | rowFirst =>
      refine iff_of_true ?_ (Or.inr rfl)
      show 0 < (t.withRow key).numRows
      rw [(ht.withRow key).numRows_eq, ht.withRow_keys]
      exact (Nat.zero_le _).trans_lt (FirstInsertion.idxOf_lt_register t.keys key)
  | colFirst => exact (or_iff_left (by simp)).symm

/-- **The column half of an insert.** -/
theorem Placed.columnHalf {s : Session} (h : s.Placed) (order : EvalOrder) (key colName value : Str) :
    (∃ w, (s.columnHalf order key colName).writer = some w ∧
      w.books.MidPlaced ((DataTable.seenByColumn order s.table key).withColumn colName)) ∧
    ((∀ call ∈ (s.columnHalf order key colName).calls, call.InBounds) ↔
      s.FindsRow (.table (.insert order key colName value))) := by
  have hseen := (h.consistent.seenByColumn order key).withColumn colName
  rw [Session.columnHalf]
  by_cases hcol : colName ∈ s.table.cols
  · have hrows : 0 < s.table.numRows := by
      refine Nat.pos_of_ne_zero fun hzero => ?_
      rw [h.cols_nil hzero] at hcol
      exact absurd hcol List.not_mem_nil
    have hprefix : s.table.myRows
        <+: ((DataTable.seenByColumn order s.table key).withColumn colName).myRows := by
      rw [DataTable.withColumn_myRows]
      cases order with
      | rowFirst => exact DataTable.prefix_withRow s.table key
      | colFirst => exact List.prefix_rfl
    rw [if_pos hcol]
    exact ⟨⟨s.writer, rfl, Or.inl ((h.placed hrows).mono hprefix)⟩,
      iff_of_true (by simp) (Or.inl hrows)⟩
  · have hrows := numRows_seenByColumn_pos_iff h.consistent order key colName
    rw [if_neg hcol]
    obtain ⟨hplaced, hcalls⟩ := DataTableWriter.column_calls (w := s.writer) hseen
      (DataTableWriter.diff [] colName)
    rw [hrows, or_assoc] at hcalls
    exact ⟨hplaced, hcalls⟩

/-- **The calls of an insert**, and the coordinates it leaves. -/
theorem Placed.bothHalves {s : Session} (h : s.Placed) (order : EvalOrder)
    (key colName value : Str) :
    (∃ w, (s.bothHalves order key colName value).writer = some w ∧
      w.books.Placed (s.table.put key colName value)) ∧
    ((∀ call ∈ (s.bothHalves order key colName value).calls, call.InBounds) ↔
      s.FindsRow (.table (.insert order key colName value))) := by
  obtain ⟨⟨w, hw, hmid⟩, hcalls⟩ := h.columnHalf order key colName value
  obtain ⟨_, hrows⟩ := DataTable.seenByColumn_withColumn order s.table key colName
  obtain ⟨hplaced, hsame⟩ := DataTableWriter.value_calls hw hmid hrows
    (h.consistent.coordsOf_fst_lt key colName) (h.consistent.coordsOf_fst_le order key colName)
    (h.consistent.put key colName value)
    (DataTableWriter.diff (s.table.oldValue key colName value) value)
  exact ⟨hplaced, hsame.trans hcalls⟩

/-- **Every step keeps the coordinates in the table.** -/
theorem Placed.step {s s' : Session} (h : s.Placed) {op : SessionOp} (hstep : s.step op = some s') :
    s'.Placed := by
  obtain ⟨ht, hcols, hplaced⟩ := id h
  cases op with
  | table op =>
      cases op with
      | insert order key colName value =>
          obtain ⟨⟨w, hw, hput⟩, _⟩ := h.bothHalves order key colName value
          rw [Session.step_insert ht, hw, Option.map_some] at hstep
          rw [← Option.some.inj hstep]
          exact ⟨ht.put key colName value,
            fun hzero => absurd hzero (ht.numRows_put_pos key colName value).ne', fun _ => hput⟩
      | addTableNote note =>
          rw [← Option.some.inj hstep]
          exact ⟨ht.addTableNote note, hcols, fun hpos => (hplaced hpos).mono List.prefix_rfl⟩
      | clear =>
          rw [← Option.some.inj hstep]
          exact ⟨DataTable.consistent_empty, fun _ => rfl, fun hpos => absurd hpos (lt_irrefl 0)⟩
  | write =>
      obtain ⟨⟨ok, w⟩, hw, hs'⟩ := Option.map_eq_some_iff.mp hstep
      rw [← hs']
      refine ⟨ht, hcols, fun hpos => ?_⟩
      obtain ⟨ok', w', hw', hmid⟩ := DataTableWriter.write_placed ht (hplaced hpos)
      rw [hw] at hw'
      obtain rfl : w = w' := congrArg Prod.snd (Option.some.inj hw')
      exact hmid.resolve_right fun hzero => hpos.ne' hzero.1
  | streamFails =>
      rw [← Option.some.inj hstep]
      exact ⟨ht, hcols, hplaced⟩

/-- **Which steps make a call that leaves the table.** -/
theorem Placed.inBounds_iff {s : Session} (h : s.Placed) (op : SessionOp) :
    (∀ call ∈ s.writeCalls op, call.InBounds) ↔ s.FindsRow op := by
  cases op with
  | table op =>
      cases op with
      | insert order key colName value =>
          rw [Session.writeCalls_insert h.consistent]
          exact (h.bothHalves order key colName value).2
      | addTableNote note => exact iff_of_true (by simp [writeCalls, TableOp.apply]) trivial
      | clear => exact iff_of_true (by simp [writeCalls, TableOp.apply]) trivial
  | write =>
      simp only [writeCalls, List.mem_singleton, forall_eq, FindsRow]
      rcases Nat.eq_zero_or_pos s.table.numRows with hzero | hpos
      · simp only [WriteCall.InBounds, sizePred_add_one_iff, hzero]
        cases s.writer.myFullWriteRequired with
        | true => simp
        | false => simp
      · exact iff_of_true (DataTableWriter.inBounds_of_placed (h.placed hpos) hpos) (Or.inl hpos)
  | streamFails => exact iff_of_true (by simp [writeCalls]) trivial

/-- A writer attached to a table with any past starts with its coordinates in the table. -/
theorem placed_initialise {σ : Type*} (l : Listener σ) (s₀ : σ) (before : List TableOp)
    {t : DataTable} {s₁ : σ} (ht : run (TableOp.apply l) ({}, s₀) before = some (t, s₁))
    (append : Bool) (writeDelay : ℕ) (openable : Bool) (disk : Disk) :
    Placed ⟨t, DataTableWriter.initialise append writeDelay openable disk⟩ := by
  refine ⟨(represents_run l s₀ ht).consistent, (numRows_eq_zero_iff_run l s₀ ht).mp, fun _ => ?_⟩
  rw [DataTableWriter.books_initialise]
  exact Or.inl rfl

/-- **In every run the coordinates stay in the table.** -/
theorem Placed.run {s s' : Session} (h : s.Placed) {ops : List SessionOp}
    (hrun : StepRuns.run Session.step s ops = some s') : s'.Placed :=
  run_invariant Placed (fun _ => True) (fun _ _ _ hs _ => hs.step) h (fun _ _ => trivial) hrun

end Session

/-- **When no index leaves the table.**  A writer, whether its file could be opened or not, is attached
to a table with any past, and inserts, notes, `clear` and writes come in any order, with the stream
failing at any time.  Every call of `write()`, from outside or in the middle of an insert, starts and
ends in the table if and only if no explicit write finds a table without rows (unless the pending full
write cannot be printed) and no insert into such a table prints it before its row is made. -/
theorem writes_in_bounds_iff {σ : Type*} (l : Listener σ) (s₀ : σ) (before : List TableOp)
    {t : DataTable} {s₁ : σ} (ht : run (TableOp.apply l) ({}, s₀) before = some (t, s₁))
    (append : Bool) (writeDelay : ℕ) (openable : Bool) (disk : Disk) (ops : List SessionOp) :
    Along Session.step (fun s op => ∀ call ∈ s.writeCalls op, call.InBounds)
        ⟨t, DataTableWriter.initialise append writeDelay openable disk⟩ ops ↔
      Along Session.step Session.FindsRow
        ⟨t, DataTableWriter.initialise append writeDelay openable disk⟩ ops :=
  along_congr Session.Placed (fun _ _ _ hs => hs.step) (fun _ op _ hs => hs.inBounds_iff op)
    (Session.placed_initialise l s₀ before ht append writeDelay openable disk)

/-- A write in the middle of an insert, one after a row was appended, and one after `clear` and an
insert: five calls, two of them incremental. -/
theorem writes_in_bounds_iff_at :
    Along Session.step (fun s op => ∀ call ∈ s.writeCalls op, call.InBounds)
      ⟨{}, DataTableWriter.initialise true 0 true none⟩
      [.table (.insert .rowFirst ['a'] ['x'] ['1']), .table (.insert .colFirst ['b'] ['x'] ['2']),
        .write, .table .clear, .table (.insert .rowFirst ['c'] ['y'] ['3'])] :=
  (writes_in_bounds_iff silentListener () [] rfl true 0 true none
    [.table (.insert .rowFirst ['a'] ['x'] ['1']), .table (.insert .colFirst ['b'] ['x'] ['2']),
      .write, .table .clear, .table (.insert .rowFirst ['c'] ['y'] ['3'])]).mpr (by decide)

/-- **`write()` twice on an empty table, and `write()` after `clear`.**  In the first session the full
write remembers the row `numRows() - 1`, which wraps around, and the second write starts there; in the
second one the write starts at row `0` of a table without rows. -/
theorem empty_table_out_of_bounds :
    (∃ s, run Session.step ⟨{}, DataTableWriter.initialise true 50 true none⟩ [.write] = some s ∧
      s.table.numRows = 0 ∧ s.writer.myFullWriteRequired = false ∧
      s.writer.myLastWriteCoords.1 = SIZE_MAX ∧ s.step .write = none) ∧
    ¬ Along Session.step (fun s op => ∀ call ∈ s.writeCalls op, call.InBounds)
      ⟨{}, DataTableWriter.initialise true 50 true none⟩ [.write, .write] ∧
    (∃ s, run Session.step ⟨{}, DataTableWriter.initialise true 50 true none⟩
        [.table (.insert .rowFirst ['a'] ['x'] ['1']), .write, .table .clear] = some s ∧
      s.table.numRows = 0 ∧ s.writer.myFullWriteRequired = false ∧
      s.writer.myLastWriteCoords.1 = 0 ∧ s.step .write = none) ∧
    ¬ Along Session.step (fun s op => ∀ call ∈ s.writeCalls op, call.InBounds)
      ⟨{}, DataTableWriter.initialise true 50 true none⟩
      [.table (.insert .rowFirst ['a'] ['x'] ['1']), .write, .table .clear, .write] :=
  ⟨⟨_, rfl, rfl, rfl, rfl, rfl⟩, by decide, ⟨_, rfl, rfl, rfl, rfl, rfl⟩, by decide⟩

end StructurePipe.Utility
