import StructurePipe.Utility.DataTableMap
import StructurePipe.Utility.DataTableWriterSync

/-!
# Sessions with a table and its writer

A session is any sequence of calls on a table and on the writer attached to it.  The invariant of
`DataTableWriterSync` holds at the start, whatever happened to the table before, and every call keeps
it, so it says what is in the file after every write.

* `writes_show_table` — **every write, full or incremental, shows the table of that moment** between
  the write marker and the put position;
* `file_holds_table_iff` — **when the file holds the table and nothing else:** a full write does not
  truncate the file, so it must not find a longer one.
-/

namespace StructurePipe.Utility

open OverwrittenFile StepRuns

/-! ### A table with its writer -/

/-- A table and the writer attached to it. -/
structure Session where
  table : DataTable
  writer : DataTableWriter

/-- A call on the table, an explicit `write()`, or a failure of the stream from outside. -/
inductive SessionOp where
  | table (op : TableOp)
  | write
  | streamFails
deriving DecidableEq, Repr

def Session.step (s : Session) : SessionOp → Option Session
  | .table op => (op.apply DataTableWriter.listener (s.table, s.writer)).map fun (t, w) => ⟨t, w⟩
  | .write => (s.writer.write s.table).map fun (_, w) => ⟨s.table, w⟩
  | .streamFails => some { s with
      writer := { s.writer with
        myOutStream := { s.writer.myOutStream with good := false, openable := false } } }

/-! ### Every call keeps the writer in step -/

namespace Session

/-- The invariant of a session: the writer may have written a table without rows, but then the next
insert will bring a new column. -/
structure InStep (s : Session) : Prop where
  consistent : s.table.Consistent
  cols_nil : s.table.numRows = 0 → s.table.cols = []
  sync : ∃ f, s.writer.Sound f ∧ s.writer.MidInsert s.table f

/-- The calls in question: inserts at any time, `write` on a table with a row or with a full write
pending, notes and `clear` before the first write only. -/
def Admissible (s : Session) : SessionOp → Prop
  | .table (.insert _ _ _ _) => True
  | .table (.addTableNote _) => s.writer.history = []
  | .table .clear => s.writer.history = []
  | .write => 0 < s.table.numRows ∨ s.writer.myFullWriteRequired = true
  | .streamFails => False

instance (s : Session) (op : SessionOp) : Decidable (s.Admissible op) :=
  match op with
  | .table (.insert _ _ _ _) => isTrue trivial
  | .table (.addTableNote _) => inferInstanceAs (Decidable (s.writer.history = []))
  | .table .clear => inferInstanceAs (Decidable (s.writer.history = []))
  | .write => inferInstanceAs (Decidable (_ ∨ _))
  | .streamFails => isFalse id

/-- **An insert keeps the writer in step.** -/
theorem InStep.insert {s : Session} (h : s.InStep) (order : EvalOrder) (key colName value : Str) :
    ∃ s', s.step (.table (.insert order key colName value)) = some s' ∧ s'.InStep := by
  obtain ⟨ht, hcols, f, hsound, hmid⟩ := h
  have htracks : colName ∈ s.table.cols → s.writer.Tracks s.table f := by
    refine fun hmem => hmid.resolve_right fun hzero => ?_
    rw [hcols hzero.1] at hmem
    exact absurd hmem List.not_mem_nil
  obtain ⟨w', notes', f', hw', ⟨hnotes, hsound'⟩, htracks'⟩ :=
    DataTableWriter.keeps_sound.insert ⟨rfl, hsound⟩ ht order key colName value htracks
      (fun hJ _ => ⟨hJ.1.trans (DataTable.seenByColumn_notes order s.table key colName).symm, hJ.2⟩)
      (fun hJ => ⟨hJ.1.trans ((DataTable.seenByColumn_notes order s.table key colName).trans
        (ht.put_notes key colName value).symm), hJ.2⟩)
  rw [hnotes] at htracks'
  refine ⟨⟨s.table.put key colName value, w'⟩, ?_, ht.put key colName value, ?_, f', hsound',
    Or.inl htracks'⟩
  · rw [Session.step, TableOp.apply, hw']
    rfl
  · exact fun hzero => absurd hzero (ht.numRows_put_pos key colName value).ne'

/-- **Every admissible call succeeds and keeps the writer in step.** -/
theorem InStep.step {s : Session} (h : s.InStep) (op : SessionOp) (hop : s.Admissible op) :
    ∃ s', s.step op = some s' ∧ s'.InStep := by
  obtain ⟨ht, hcols, f, hsound, hmid⟩ := id h
  cases op with
  | table op =>
      cases op with
      | insert order key colName value => exact h.insert order key colName value
      | addTableNote note =>
          exact ⟨_, rfl, ht.addTableNote note, hcols, f, hsound, Or.inl (Or.inl (hsound.fresh hop))⟩
      | clear =>
          exact ⟨_, rfl, DataTable.consistent_empty, fun _ => rfl, f, hsound,
            Or.inl (Or.inl (hsound.fresh hop))⟩
  | write =>
      have htracks : s.writer.Tracks s.table f := by
        rcases hop with hrows | hfull
        · exact hmid.resolve_right fun hzero => absurd hzero.1 hrows.ne'
        · exact Or.inl hfull
      obtain ⟨w', notes', f', hw', ⟨hnotes, hsound'⟩, hmid'⟩ :=
        DataTableWriter.keeps_sound.write ⟨rfl, hsound⟩ ht htracks
      rw [hnotes] at hmid'
      exact ⟨⟨s.table, w'⟩, by rw [Session.step, hw']; rfl, ht, hcols, f', hsound', hmid'⟩
  | streamFails => exact hop.elim

/-- On a table without rows the incremental path has nowhere to start. -/
theorem admissible_write_of_step {s s' : Session} (h : s.step .write = some s') :
    0 < s.table.numRows ∨ s.writer.myFullWriteRequired = true := by
  by_contra hcon
  obtain ⟨hrows, hfull⟩ := not_or.mp hcon
  have hnil : s.table.myRows = [] := List.length_eq_zero_iff.mp (Nat.eq_zero_of_not_pos hrows)
  rw [Session.step, DataTableWriter.write, if_neg hfull, DataTableWriter.writeFrom, hnil] at h
  simp at h

end Session

theorem DataTableWriter.sound_initialise (append : Bool) (writeDelay : ℕ) (disk : Disk) :
    (initialise append writeDelay true disk).Sound [] ∧
      (initialise append writeDelay true disk).myFullWriteRequired = true ∧
      (initialise append writeDelay true disk).history = [] := by
  have hmode : ∀ mode : OpenMode, mode ≠ .outIn → mode.openAt disk = some ([], 0) := by
    intro mode h
    cases mode with
    | out => rfl
    | outAte => rfl
    | outIn => exact absurd rfl h
  rw [initialise, openStream, hmode _ (by split <;> simp)]
  exact ⟨⟨⟨rfl, rfl, rfl, le_rfl, le_rfl⟩, rfl, by simp [saveMarker], fun _ => rfl,
    by simp [saveMarker], fun _ => by simp [saveMarker], fun _ => rfl⟩, rfl, rfl⟩

section Results

variable {σ : Type*} (l : Listener σ) (s₀ : σ) (before : List TableOp) {t : DataTable} {s₁ : σ}

/-- A writer attached to a table with any past starts in step with it. -/
theorem Session.inStep_initialise (ht : run (TableOp.apply l) ({}, s₀) before = some (t, s₁))
    (append : Bool) (writeDelay : ℕ) (disk : Disk) :
    InStep ⟨t, DataTableWriter.initialise append writeDelay true disk⟩ := by
  obtain ⟨hsound, hfull, _⟩ := DataTableWriter.sound_initialise append writeDelay disk
  exact ⟨(represents_run l s₀ ht).consistent, (numRows_eq_zero_iff_run l s₀ ht).mp, [], hsound,
    Or.inl (Or.inl hfull)⟩

/-- **Incremental and full writes agree.**  Attach a writer to a table with any past, and let inserts
and explicit writes come in any order (notes and `clear` only before the first write).  Then nothing
gets stuck, and at each completed write the bytes between the write marker and the put position,
with a final newline, are what `writeToFile` prints of the table of that moment. -/
theorem writes_show_table (ht : run (TableOp.apply l) ({}, s₀) before = some (t, s₁))
    (append : Bool) (writeDelay : ℕ) (disk : Disk) (ops : List SessionOp)
    (hops : Along Session.step Session.Admissible
      ⟨t, DataTableWriter.initialise append writeDelay true disk⟩ ops) :
    ∃ s, run Session.step ⟨t, DataTableWriter.initialise append writeDelay true disk⟩ ops = some s ∧
      ∀ r ∈ s.writer.history, window (r.disk.getD []) r.marker r.pos ++ ['\n']
        = r.table.writeToFile [' '] := by
  obtain ⟨s, hrun, hs⟩ := run_total Session.InStep Session.Admissible
    (fun s op hs hop => hs.step op hop) (Session.inStep_initialise l s₀ before ht append writeDelay
      disk) hops
  obtain ⟨f, hsound, _⟩ := hs.sync
  exact ⟨s, hrun, hsound.shows⟩

end Results

/-- A session with a write in the middle of an insert, an explicit write, an appended row and an
overwritten cell: five writes, two of them incremental. -/
theorem writes_show_table_at :
    ∃ s, run Session.step ⟨{}, DataTableWriter.initialise false 0 true none⟩
        [.table (.insert .colFirst ['a'] ['x'] ['1']), .write,
          .table (.insert .rowFirst ['b'] ['x'] ['2', '3']),
          .table (.insert .rowFirst ['a'] ['x'] ['4'])] = some s ∧
      s.writer.history.map WriteRecord.full = [true, true, false, false, true] ∧
      ∀ r ∈ s.writer.history, window (r.disk.getD []) r.marker r.pos ++ ['\n']
        = r.table.writeToFile [' '] := by
  obtain ⟨s, hrun, hshows⟩ := writes_show_table silentListener () [] rfl false 0 none
    [.table (.insert .colFirst ['a'] ['x'] ['1']), .write,
      .table (.insert .rowFirst ['b'] ['x'] ['2', '3']),
      .table (.insert .rowFirst ['a'] ['x'] ['4'])] (by decide)
  have hfull : (run Session.step ⟨{}, DataTableWriter.initialise false 0 true none⟩
      [.table (.insert .colFirst ['a'] ['x'] ['1']), .write,
        .table (.insert .rowFirst ['b'] ['x'] ['2', '3']),
        .table (.insert .rowFirst ['a'] ['x'] ['4'])]).map
          (fun s => s.writer.history.map WriteRecord.full)
      = some [true, true, false, false, true] := by decide
  rw [hrun] at hfull
  exact ⟨s, hrun, Option.some.inj hfull, hshows⟩

/-! ### The whole file -/

/-- An insert or an explicit write. -/
def SessionOp.InsertOrWrite : SessionOp → Prop
  | .table (.insert _ _ _ _) => True
  | .write => True
  | _ => False

instance (op : SessionOp) : Decidable op.InsertOrWrite :=
  match op with
  | .table (.insert _ _ _ _) => isTrue trivial
  | .table (.addTableNote _) => isFalse id
  | .table .clear => isFalse id
  | .write => isTrue trivial
  | .streamFails => isFalse id

/-- An explicit write of a table without rows finds a full write pending. -/
def Session.WriteDefined (s : Session) (op : SessionOp) : Prop :=
  op = .write → 0 < s.table.numRows ∨ s.writer.myFullWriteRequired = true

instance (s : Session) (op : SessionOp) : Decidable (s.WriteDefined op) :=
  inferInstanceAs (Decidable (_ → _))

/-- **When the file holds the table and nothing else.**  A writer whose file did not exist is attached
to a table with any past, and inserts and writes come in any order.  Every completed write leaves the
serialisation of the table alone in the file if and only if no write starts from a row that does not
exist and every full write finds a file that is not longer than what it prints. -/
theorem file_holds_table_iff {σ : Type*} (l : Listener σ) (s₀ : σ) (before : List TableOp)
    {t : DataTable} {s₁ : σ} (ht : run (TableOp.apply l) ({}, s₀) before = some (t, s₁))
    (append : Bool) (writeDelay : ℕ) (ops : List SessionOp) (hops : ∀ op ∈ ops, op.InsertOrWrite) :
    (∃ s, run Session.step ⟨t, DataTableWriter.initialise append writeDelay true none⟩ ops = some s ∧
        ∀ r ∈ s.writer.history, r.disk = some (r.table.text [' '])) ↔
      Along Session.step Session.WriteDefined
        ⟨t, DataTableWriter.initialise append writeDelay true none⟩ ops ∧
      ∀ s, run Session.step ⟨t, DataTableWriter.initialise append writeDelay true none⟩ ops = some s →
        ∀ r ∈ s.writer.history, r.full = true →
          (r.diskBefore.getD []).length ≤ (r.table.text [' ']).length := by
  have hstart := Session.inStep_initialise l s₀ before ht append writeDelay none
  have hadmissible : ∀ s : Session, ∀ op ∈ ops, s.WriteDefined op → s.Admissible op := by
    intro s op hmem hdefined
    match op, hops op hmem with
    | .table (.insert _ _ _ _), _ => trivial
    | .write, _ => exact hdefined rfl
  have htotal := fun h => run_total Session.InStep Session.Admissible
    (fun s op hs hop => hs.step op hop) hstart (Along.mono hadmissible h)
  constructor
  · rintro ⟨s, hrun, honly⟩
    have hdefined : Along Session.step Session.WriteDefined _ ops :=
      along_of_run (fun s op s' h hop => Session.admissible_write_of_step (hop ▸ h)) hrun
    refine ⟨hdefined, fun s' hrun' r hr => ?_⟩
    obtain ⟨s'', hrun'', hs''⟩ := htotal hdefined
    obtain rfl : s' = s := Option.some.inj (hrun'.symm.trans hrun)
    obtain rfl : s'' = s' := Option.some.inj (hrun''.symm.trans hrun)
    obtain ⟨f, hsound, _⟩ := hs''.sync
    exact hsound.fits_of_only r hr (honly r hr)
  · rintro ⟨hdefined, hfits⟩
    obtain ⟨s, hrun, hs⟩ := htotal hdefined
    obtain ⟨f, hsound, _⟩ := hs.sync
    exact ⟨s, hrun, hsound.only_of_fits (hfits s hrun)⟩

/-- A cell overwritten with a longer value: the file holds the table alone after each of the four
writes, three of them full. -/
theorem file_holds_table_iff_at :
    ∃ s, run Session.step ⟨{}, DataTableWriter.initialise false 0 true none⟩
        [.table (.insert .rowFirst ['a'] ['x'] ['4']), .write,
          .table (.insert .rowFirst ['a'] ['x'] ['1', '2', '3'])] = some s ∧
      ∀ r ∈ s.writer.history, r.disk = some (r.table.text [' ']) := by
  refine (file_holds_table_iff silentListener () [] rfl false 0
    [.table (.insert .rowFirst ['a'] ['x'] ['4']), .write,
      .table (.insert .rowFirst ['a'] ['x'] ['1', '2', '3'])] (by decide)).mpr ⟨by decide, ?_⟩
  intro s hrun r hr hfull
  have hall : (run Session.step ⟨{}, DataTableWriter.initialise false 0 true none⟩
      [.table (.insert .rowFirst ['a'] ['x'] ['4']), .write,
        .table (.insert .rowFirst ['a'] ['x'] ['1', '2', '3'])]).all (fun s =>
          s.writer.history.all fun r => !r.full ||
            decide ((r.diskBefore.getD []).length ≤ (r.table.text [' ']).length)) = true := by
    decide
  rw [hrun, Option.all_some, List.all_eq_true] at hall
  simpa [hfull] using hall r hr

/-- **A longer version leaves its tail behind.**  A cell is overwritten with a shorter value; the full
write that follows prints over the start of the file and keeps the rest. -/
theorem file_keeps_stale_tail :
    ∃ s, run Session.step ⟨{}, DataTableWriter.initialise false 0 true none⟩
        [.table (.insert .rowFirst ['a'] ['x'] ['1', '2', '3']),
          .table (.insert .rowFirst ['a'] ['x'] ['4'])] = some s ∧
      ∃ r ∈ s.writer.history, r.disk = some (r.table.text [' '] ++ ['2', '3']) ∧
        r.disk ≠ some (r.table.text [' ']) :=
  ⟨_, rfl, _, List.mem_of_getLast? rfl, rfl, by decide⟩

end StructurePipe.Utility
