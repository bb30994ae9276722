import StructurePipe.Utility.DataTableWriterBounds

/-!
# Writing to a stream that has failed

A full write looks at its stream before it prints, but resets the counter before it looks.  An
incremental write does not look at all: it prints into the stream that has failed and then remembers
the end of the table as written.

* `refused_iff` — **which calls are refused**, that is, return `false` and leave the bookkeeping alone;
* `failed_writes_refused_iff` — **after a failure every write is refused if and only if none is asked
  for but by an explicit `write()` that finds a full write pending and nothing counted.**
-/

namespace StructurePipe.Utility

open StepRuns

namespace WriteCall

/-- `write()` returns `false` and leaves the bookkeeping as it was. -/
def Refused (call : WriteCall) : Prop :=
  ∃ w', call.writer.write call.table = some (false, w') ∧ w'.books = call.writer.books

instance (call : WriteCall) : Decidable call.Refused :=
  match h : call.writer.write call.table with
  | none => isFalse fun ⟨_, hw, _⟩ => by simp [h] at hw
  | some (true, _) => isFalse fun ⟨_, hw, _⟩ => by simp [h] at hw
  | some (false, w) => decidable_of_iff (w.books = call.writer.books)
      ⟨fun hbooks => ⟨w, h, hbooks⟩, fun ⟨v, hv, hbooks⟩ => by
        rw [h] at hv
        obtain rfl : w = v := congrArg Prod.snd (Option.some.inj hv)
        exact hbooks⟩

end WriteCall

namespace DataTableWriter

/-- **Which calls are refused** by a stream that is not there to write to. -/
theorem refused_iff {w : DataTableWriter} (t : DataTable) (hfail : w.ready = false) :
    WriteCall.Refused ⟨t, w⟩ ↔ w.myFullWriteRequired = true ∧ w.myDataSinceWrite = 0 := by
  cases hfull : w.myFullWriteRequired with
  | true =>
      obtain ⟨w', hw', hbooks⟩ := write_full t hfull
      rw [hfail] at hw' hbooks
      have hsame : w'.books = w.books ↔ w.myDataSinceWrite = 0 := by
        rw [hbooks]
        simp [books, eq_comm]
      constructor
      · rintro ⟨v, hv, hbooks'⟩
        rw [hw'] at hv
        obtain rfl : w' = v := congrArg Prod.snd (Option.some.inj hv)
        exact ⟨rfl, hsame.mp hbooks'⟩
      · rintro ⟨_, hzero⟩
        exact ⟨w', hw', hsame.mpr hzero⟩
  | false =>
      refine iff_of_false ?_ (by simp)
      rintro ⟨v, hv, _⟩
      rw [write, if_neg (by simp [hfull])] at hv
      obtain ⟨u, _, hu⟩ := Option.map_eq_some_iff.mp hv
      exact absurd (congrArg Prod.fst hu) (by simp)

/-- A message leads to a call that is not refused as soon as a write is due. -/
theorem forall_refused_writeIfDue {x : Watched} {w : DataTableWriter} (hx : x.writer = some w)
    (hfail : w.ready = false) (t : DataTable) :
    (∀ call ∈ (x.writeIfDue t).calls, call.Refused) ↔
      (∀ call ∈ x.calls, call.Refused) ∧ w.myDataSinceWrite ≤ w.myWriteDelay := by
  rw [Watched.forall_calls_writeIfDue, hx]
  refine and_congr_right fun _ => ?_
  simp only [Option.mem_some_iff, forall_eq', refused_iff t hfail]
  constructor
  · intro h
    by_contra hdue
    have hzero := (h (by omega)).2
    omega
  · intro hle hdue
    omega

/-- **The column half of an insert**, with `n` more characters. -/
theorem column_refused {w : DataTableWriter} (hfail : w.ready = false) (t : DataTable) (n : ℕ) :
    ∃ v, (Watched.writeIfDue ⟨some (w.countData n).requireFullWrite, []⟩ t).writer = some v ∧
      v.ready = false ∧
      ((∀ call ∈ (Watched.writeIfDue ⟨some (w.countData n).requireFullWrite, []⟩ t).calls,
          call.Refused) ↔ w.myDataSinceWrite + n ≤ w.myWriteDelay) ∧
      (w.myDataSinceWrite + n ≤ w.myWriteDelay →
        v.myDataSinceWrite = w.myDataSinceWrite + n ∧ v.myWriteDelay = w.myWriteDelay) := by
  have hready : (w.countData n).requireFullWrite.ready = false := hfail
  have hiff : (∀ call ∈ (Watched.writeIfDue ⟨some (w.countData n).requireFullWrite, []⟩ t).calls,
      call.Refused) ↔ w.myDataSinceWrite + n ≤ w.myWriteDelay :=
    (forall_refused_writeIfDue (x := ⟨some (w.countData n).requireFullWrite, []⟩) rfl hready t).trans
      (and_iff_right (by simp))
  by_cases hle : w.myDataSinceWrite + n ≤ w.myWriteDelay
  · obtain ⟨v, hv, hready', _, hdata, hdelay⟩ := Watched.writeIfDue_column t hle
    exact ⟨v, by rw [hv], hready'.trans hfail, hiff, fun _ => ⟨hdata, hdelay⟩⟩
  · have hdue : (w.countData n).requireFullWrite.myWriteDelay
        < (w.countData n).requireFullWrite.myDataSinceWrite := not_le.mp hle
    obtain ⟨v, hv, _⟩ := write_full (w := (w.countData n).requireFullWrite) t rfl
    refine ⟨v, ?_, (lasting_ready false).write hready hv, hiff, fun h => absurd h hle⟩
    rw [Watched.writeIfDue_writer, Option.bind_some, writeIfDue, if_pos hdue, hv, Option.map_some]

end DataTableWriter

namespace Session

/-- The invariant of a session whose stream is not there to write to. -/
structure Down (s : Session) : Prop where
  consistent : s.table.Consistent
  failed : s.writer.ready = false

/-- What an insert changes does not make a write due, and an explicit write finds a full one pending
and nothing counted. -/
def NothingDue (s : Session) : SessionOp → Prop
  | .table (.insert _ key colName value) =>
      s.writer.myDataSinceWrite
          + (if colName ∈ s.table.cols then 0 else DataTableWriter.diff [] colName)
          + DataTableWriter.diff (s.table.oldValue key colName value) value
        ≤ s.writer.myWriteDelay
  | .table (.addTableNote _) => True
  | .table .clear => True
  | .write => s.writer.myFullWriteRequired = true ∧ s.writer.myDataSinceWrite = 0
  | .streamFails => True

instance (s : Session) (op : SessionOp) : Decidable (s.NothingDue op) :=
  match op with
  | .table (.insert _ _ _ _) => inferInstanceAs (Decidable (_ ≤ _))
  | .table (.addTableNote _) => isTrue trivial
  | .table .clear => isTrue trivial
  | .write => inferInstanceAs (Decidable (_ ∧ _))
  | .streamFails => isTrue trivial

/-- **The column half of an insert** on a stream that has failed. -/
theorem Down.columnHalf {s : Session} (h : s.Down) (order : EvalOrder) (key colName : Str) :
    ∃ v, (s.columnHalf order key colName).writer = some v ∧ v.ready = false ∧
      ((∀ call ∈ (s.columnHalf order key colName).calls, call.Refused) ↔ colName ∈ s.table.cols ∨
        s.writer.myDataSinceWrite + s.columnCount colName ≤ s.writer.myWriteDelay) ∧
      (colName ∈ s.table.cols ∨
          s.writer.myDataSinceWrite + s.columnCount colName ≤ s.writer.myWriteDelay →
        v.myDataSinceWrite = s.writer.myDataSinceWrite + s.columnCount colName ∧
          v.myWriteDelay = s.writer.myWriteDelay) := by
  rw [Session.columnHalf, columnCount]
  by_cases hcol : colName ∈ s.table.cols
  · rw [if_pos hcol, if_pos hcol]
    exact ⟨s.writer, rfl, h.failed, iff_of_true (by simp) (Or.inl hcol), fun _ => ⟨rfl, rfl⟩⟩
  · rw [if_neg hcol, if_neg hcol]
    simp only [hcol, false_or]
    exact DataTableWriter.column_refused h.failed _ _

/-- **The calls of an insert** on a stream that has failed, with `n` more characters in its value. -/
theorem value_refused {x : Watched} {v : DataTableWriter} (hv : x.writer = some v)
    (hfail : v.ready = false) (t : DataTable) (coords : Coords) (n : ℕ) :
    (∀ call ∈ ((x.map fun w => (w.countData n).checkCoords coords).writeIfDue t).calls,
        call.Refused) ↔
      (∀ call ∈ x.calls, call.Refused) ∧ v.myDataSinceWrite + n ≤ v.myWriteDelay := by
  have hx : (x.map fun w => (w.countData n).checkCoords coords).writer
      = some ((v.countData n).checkCoords coords) := by
    rw [Watched.map_writer, hv, Option.map_some]
  obtain ⟨hdata, hdelay, _, hready⟩ := (v.countData n).checkCoords_rest coords
  rw [DataTableWriter.forall_refused_writeIfDue hx (hready.trans hfail), hdata, hdelay]
  rfl

/-- **Which steps make only calls that are refused.** -/
theorem Down.refused_iff {s : Session} (h : s.Down) (op : SessionOp) :
    (∀ call ∈ s.writeCalls op, call.Refused) ↔ s.NothingDue op := by
  cases op with
  | table op =>
      cases op with
      | insert order key colName value =>
          obtain ⟨v, hv, hfail, hcalls, hcount⟩ := h.columnHalf order key colName
          rw [Session.writeCalls_insert h.consistent, bothHalves, value_refused hv hfail, hcalls]
          show _ ↔ s.writer.myDataSinceWrite + s.columnCount colName + _ ≤ s.writer.myWriteDelay
          generalize DataTableWriter.diff (s.table.oldValue key colName value) value = n
          constructor
          · rintro ⟨hcolumn, hle⟩
            obtain ⟨hdata, hdelay⟩ := hcount hcolumn
            omega
          · intro hle
            have hcolumn : s.writer.myDataSinceWrite + s.columnCount colName
                ≤ s.writer.myWriteDelay := (Nat.le_add_right _ n).trans hle
            obtain ⟨hdata, hdelay⟩ := hcount (Or.inr hcolumn)
            exact ⟨Or.inr hcolumn, by omega⟩
      | addTableNote note => exact iff_of_true (by simp [writeCalls, TableOp.apply]) trivial
      | clear => exact iff_of_true (by simp [writeCalls, TableOp.apply]) trivial
  | write =>
      simp only [writeCalls, List.mem_singleton, forall_eq]
      exact DataTableWriter.refused_iff s.table h.failed
  | streamFails => exact iff_of_true (by simp [writeCalls]) trivial

/-- **A stream that has failed stays so.** -/
theorem Down.step {s s' : Session} (h : s.Down) {op : SessionOp} (hstep : s.step op = some s') :
    s'.Down := by
  refine ⟨Session.consistent_step h.consistent hstep, ?_⟩
  by_cases hop : op = .streamFails
  · rw [hop] at hstep
    rw [← Option.some.inj hstep]
    simp [DataTableWriter.ready]
  · exact step_keeps (DataTableWriter.lasting_ready false) hop h.failed hstep

end Session

/-- **When a failed write is reported and retried.**  A writer, whether its file could be opened or not,
is attached to a table with any past, and after any history of inserts, notes, `clear` and writes its
stream is not good and cannot be opened again.  From there on every call of `write()`, from outside or
in the middle of an insert, returns `false` and leaves the bookkeeping as it is if and only if no insert
makes a write due and every explicit one finds a full write pending and nothing counted. -/
theorem failed_writes_refused_iff {σ : Type*} (l : Listener σ) (s₀ : σ) (before : List TableOp)
    {t : DataTable} {s₁ : σ} (ht : run (TableOp.apply l) ({}, s₀) before = some (t, s₁))
    (append : Bool) (writeDelay : ℕ) (openable : Bool) (disk : Disk) (history : List SessionOp)
    {s : Session} (hs : run Session.step
      ⟨t, DataTableWriter.initialise append writeDelay openable disk⟩ history = some s)
    (hfail : s.writer.ready = false) (ops : List SessionOp) :
    Along Session.step (fun s op => ∀ call ∈ s.writeCalls op, call.Refused) s ops ↔
      Along Session.step Session.NothingDue s ops := by
  have hplaced : s.Placed :=
    (Session.placed_initialise l s₀ before ht append writeDelay openable disk).run hs
  exact along_congr Session.Down (fun _ _ _ hs => hs.step) (fun _ op _ hs => hs.refused_iff op)
    ⟨hplaced.consistent, hfail⟩

/-- The stream fails before anything is written: a write is refused, and an insert that stays within the
delay makes no call; but the write after it is not refused, as it forgets what had been counted. -/
theorem failed_writes_refused_iff_at :
    ∃ t s, run (TableOp.apply silentListener) ({}, ()) [.insert .rowFirst ['a'] ['x'] ['1']]
        = some (t, ()) ∧
      run Session.step ⟨t, DataTableWriter.initialise true 50 true none⟩ [.streamFails] = some s ∧
      Along Session.step (fun s op => ∀ call ∈ s.writeCalls op, call.Refused) s
        [.write, .table (.insert .colFirst ['b'] ['x'] ['2'])] ∧
      ¬ Along Session.step (fun s op => ∀ call ∈ s.writeCalls op, call.Refused) s
        [.write, .table (.insert .colFirst ['b'] ['x'] ['2']), .write] := by
  obtain ⟨t, s, ht, hs, hfail, hquiet, hloud⟩ : ∃ t s,
      run (TableOp.apply silentListener) ({}, ()) [.insert .rowFirst ['a'] ['x'] ['1']]
        = some (t, ()) ∧
      run Session.step ⟨t, DataTableWriter.initialise true 50 true none⟩ [.streamFails] = some s ∧
      s.writer.ready = false ∧
      Along Session.step Session.NothingDue s
        [.write, .table (.insert .colFirst ['b'] ['x'] ['2'])] ∧
      ¬ Along Session.step Session.NothingDue s
        [.write, .table (.insert .colFirst ['b'] ['x'] ['2']), .write] :=
    ⟨_, _, rfl, rfl, rfl, by decide, by decide⟩
  have hiff := failed_writes_refused_iff silentListener () [.insert .rowFirst ['a'] ['x'] ['1']] ht
    true 50 true none [.streamFails] hs hfail
  exact ⟨t, s, ht, hs, (hiff _).mpr hquiet, fun hall => hloud ((hiff _).mp hall)⟩

/-- **Both paths get it wrong.**  After a write the stream fails and a row is appended: the incremental
write returns `true`, and the row counts as written.  If the stream fails before the first write, the
full write returns `false` and stays pending, but what had been counted is forgotten. -/
theorem failed_write_not_refused :
    (∃ s w, run Session.step ⟨{}, DataTableWriter.initialise true 50 true none⟩
        [.table (.insert .rowFirst ['a'] ['x'] ['1']), .write, .streamFails,
          .table (.insert .rowFirst ['b'] ['x'] ['2'])] = some s ∧
      s.writer.ready = false ∧ s.writer.write s.table = some (true, w) ∧
      s.writer.disk = some "# [key] x\na 1".toList ∧ w.disk = s.writer.disk ∧
      s.writer.books = ⟨(0, 2), false, 1⟩ ∧ w.books = ⟨(1, 2), false, 0⟩) ∧
    (∃ s w, run Session.step ⟨{}, DataTableWriter.initialise true 50 true none⟩
        [.table (.insert .rowFirst ['a'] ['x'] ['1']), .streamFails] = some s ∧
      s.writer.ready = false ∧ s.writer.write s.table = some (false, w) ∧
      s.writer.books = ⟨(0, 0), true, 2⟩ ∧ w.books = ⟨(0, 0), true, 0⟩) :=
  ⟨⟨_, _, rfl, rfl, rfl, rfl, rfl, by decide, by decide⟩, ⟨_, _, rfl, rfl, rfl, by decide, by decide⟩⟩

end StructurePipe.Utility
