import StructurePipe.Utility.DataTableDistance
import StructurePipe.Utility.DataTableSupport
import StructurePipe.Utility.DataTableWriterBounds

/-!
# How much a crash can lose

The counter adds up the size of every change since the last write, also of those that were undone
since, and a write follows as soon as it exceeds the delay.  So it bounds the distance between the table
as last written and the table now, wherever in an insert the last write fell.

This rests on the triangle inequality.  `diff` counts the positions that differ and adds the difference
of the two lengths, which is a metric, but it converts the lengths to `int` first: a text of `2 ^ 32`
characters is as far from the empty one as the empty one itself.

* `diff_eq_charDistance` — below `2 ^ 31` characters `diff` is the metric;
* `Near.writeIfDue`, `Saved.insert` — a write and an insert keep the bound;
* `bounded_loss` — **no more than the delay is ever unwritten**, if all texts are that short.
-/

namespace StructurePipe.Utility

open CharDistance StepRuns

/-- The lengths that an `int` can hold end here. -/
def INT_BOUND : ℕ := 2 ^ 31

theorem toInt_of_lt {n : ℕ} (h : n < INT_BOUND) : toInt n = n := by
  have hbound : INT_BOUND = 2147483648 := by norm_num [INT_BOUND]
  have hmod : (2 ^ 32 : ℕ) = 4294967296 := by norm_num
  rw [hbound] at h
  unfold toInt
  rw [hmod, Int.bmod_def]
  split <;> omega

namespace DataTableWriter

/-- **Of texts that are not too long `diff` is the metric.** -/
theorem diff_eq_charDistance {v₁ v₂ : Str} (h₁ : v₁.length < INT_BOUND) (h₂ : v₂.length < INT_BOUND) :
    diff v₁ v₂ = charDistance v₁ v₂ := by
  rw [diff, toInt_of_lt h₁, toInt_of_lt h₂, charDistance_eq]

end DataTableWriter

/-- The sum of `diff` over all value cells and column names of two tables. -/
def DataTable.totalDifference (t t' : DataTable) : ℕ :=
  DataTable.differenceBy DataTableWriter.diff t t'

namespace DataTableWriter

/-- The table as last written, an empty one before the first write. -/
def lastWritten (w : DataTableWriter) : DataTable :=
  (w.history.getLast?.map WriteRecord.table).getD {}

theorem lastWritten_congr {w w' : DataTableWriter} (h : w'.history = w.history) :
    w'.lastWritten = w.lastWritten := by
  rw [lastWritten, lastWritten, h]

theorem lastWritten_write {w w' : DataTableWriter} {t : DataTable} (h : w.write t = some (true, w')) :
    w'.lastWritten = t := by
  have hrecord : ∀ v : DataTableWriter, (v.record t w).lastWritten = t := by
    intro v
    rw [lastWritten, record, List.getLast?_concat]
    rfl
  rw [write] at h
  split at h
  · obtain ⟨hok, hw'⟩ := Prod.mk.inj (Option.some.inj h)
    rw [← hw', if_pos hok, hrecord]
  · obtain ⟨v, _, hvw⟩ := Option.map_eq_some_iff.mp h
    rw [← (Prod.mk.inj hvw).2, hrecord]

/-- The stream works, and the table is as near to what was last written as the counter says. -/
structure Near (w : DataTableWriter) (t : DataTable) : Prop where
  ready : w.ready = true
  consistent : w.lastWritten.Consistent
  below : w.lastWritten.TextsBelow INT_BOUND
  near : DataTable.differenceBy charDistance w.lastWritten t ≤ w.myDataSinceWrite

variable {w w' : DataTableWriter} {t t' : DataTable}

/-- **A change is counted.** -/
theorem Near.countData (h : w.Near t) (ht : t.Consistent) (ht' : t'.Consistent) {n : ℕ}
    (hn : DataTable.differenceBy charDistance t t' ≤ n) : (w.countData n).Near t' := by
  have htriangle := DataTable.differenceBy_triangle charDistance_self charDistance_triangle
    h.consistent ht ht'
  refine ⟨h.ready, h.consistent, h.below, ?_⟩
  calc DataTable.differenceBy charDistance w.lastWritten t'
      ≤ DataTable.differenceBy charDistance w.lastWritten t + DataTable.differenceBy charDistance t t' :=
        htriangle
    _ ≤ w.myDataSinceWrite + n := Nat.add_le_add h.near hn

theorem Near.requireFullWrite (h : w.Near t) : w.requireFullWrite.Near t :=
  ⟨h.ready, h.consistent, h.below, h.near⟩

theorem Near.checkCoords (h : w.Near t) (c : Coords) : (w.checkCoords c).Near t := by
  rw [DataTableWriter.checkCoords]
  split
  · exact h.requireFullWrite
  · exact h

/-- **After a message no more than the delay is unwritten.** -/
theorem Near.writeIfDue (h : w.Near t) (ht : t.Consistent) (hbelow : t.TextsBelow INT_BOUND)
    (hw' : w.writeIfDue t = some w') : w'.Near t ∧ w'.myDataSinceWrite ≤ w.myWriteDelay := by
  have hready : w'.ready = true := (lasting_ready true).writeIfDue h.ready hw'
  rw [DataTableWriter.writeIfDue] at hw'
  split at hw'
  · obtain ⟨⟨ok, v⟩, hv, rfl⟩ := Option.map_eq_some_iff.mp hw'
    obtain ⟨rfl, hzero⟩ := write_done h.ready hv
    have hlast : v.lastWritten = t := lastWritten_write hv
    refine ⟨⟨hready, hlast ▸ ht, hlast ▸ hbelow, ?_⟩, ?_⟩
    · rw [hlast, DataTable.differenceBy_self charDistance_self]
      exact Nat.zero_le _
    · show v.myDataSinceWrite ≤ _
      rw [hzero]
      exact Nat.zero_le _
  · obtain rfl := Option.some.inj hw'
    exact ⟨h, by omega⟩

end DataTableWriter

namespace Session

/-- The invariant of a session whose stream works and whose texts are short: a delay's worth of
characters at most is not in the file. -/
structure Saved (writeDelay : ℕ) (s : Session) : Prop where
  placed : s.Placed
  below : s.table.TextsBelow INT_BOUND
  near : s.writer.Near s.table
  delay : s.writer.myWriteDelay = writeDelay
  counted : s.writer.myDataSinceWrite ≤ writeDelay

/-- **The column half of an insert** counts what it changes. -/
theorem Saved.columnHalf {writeDelay : ℕ} {s : Session} (h : s.Saved writeDelay) (order : EvalOrder)
    (key : Str) {colName : Str} (hname : colName.length < INT_BOUND) {w : DataTableWriter}
    (hw : (s.columnHalf order key colName).writer = some w) :
    w.Near ((DataTable.seenByColumn order s.table key).withColumn colName) ∧
      w.myWriteDelay = writeDelay := by
  have ht := h.placed.consistent
  have hseen := (ht.seenByColumn order key).withColumn colName
  have hbelow := h.below.seenByColumn ht order key hname
  have hchange := ht.differenceBy_seenByColumn charDistance_self order key colName
  rw [Session.columnHalf] at hw
  by_cases hcol : colName ∈ s.table.cols
  · rw [if_pos hcol] at hw hchange
    obtain rfl := Option.some.inj hw
    exact ⟨h.near.countData (n := 0) ht hseen hchange.le, h.delay⟩
  · have hcount : DataTable.differenceBy charDistance s.table
        ((DataTable.seenByColumn order s.table key).withColumn colName)
          ≤ DataTableWriter.diff [] colName := by
      rw [hchange, if_neg hcol, DataTableWriter.diff_eq_charDistance (by norm_num [INT_BOUND]) hname]
    rw [if_neg hcol, Watched.writeIfDue_writer, Option.bind_some] at hw
    generalize DataTableWriter.diff [] colName = n at hw hcount
    have hnear := (h.near.countData ht hseen hcount).requireFullWrite
    have L := DataTableWriter.lasting_delay writeDelay
    exact ⟨(hnear.writeIfDue hseen hbelow hw).1,
      L.writeIfDue (L.requireFullWrite (L.countData h.delay n)) hw⟩

/-- **An insert keeps the bound.** -/
theorem Saved.insert {writeDelay : ℕ} {s : Session} (h : s.Saved writeDelay) (order : EvalOrder)
    (key : Str) {colName value : Str} (hname : colName.length < INT_BOUND)
    (hvalue : value.length < INT_BOUND) :
    ∃ s', s.step (.table (.insert order key colName value)) = some s' ∧ s'.Saved writeDelay := by
  have ht := h.placed.consistent
  have hput := ht.put key colName value
  obtain ⟨⟨w, hw, _⟩, _⟩ := h.placed.bothHalves order key colName value
  have hstep : s.step (.table (.insert order key colName value))
      = some ⟨s.table.put key colName value, w⟩ := by
    rw [Session.step_insert ht, hw, Option.map_some]
  obtain ⟨⟨v, hv, _⟩, _⟩ := h.placed.columnHalf order key colName value
  obtain ⟨hnear, hdelay⟩ := h.columnHalf order key hname hv
  have hold : (s.table.oldValue key colName value).length < INT_BOUND := by
    rw [ht.oldValue_eq]
    exact h.below ((s.table.coordsOf key colName).1 + 1, (s.table.coordsOf key colName).2)
      (Nat.succ_pos _)
  have hcount : DataTable.differenceBy charDistance
      ((DataTable.seenByColumn order s.table key).withColumn colName)
      (s.table.put key colName value)
        ≤ DataTableWriter.diff (s.table.oldValue key colName value) value := by
    rw [ht.differenceBy_put charDistance_self, DataTableWriter.diff_eq_charDistance hold hvalue]
  rw [bothHalves, Watched.writeIfDue_writer, Watched.map_writer, hv, Option.map_some,
    Option.bind_some] at hw
  generalize DataTableWriter.diff (s.table.oldValue key colName value) value = n at hw hcount
  have hmessage := (hnear.countData ((ht.seenByColumn order key).withColumn colName) hput
    hcount).checkCoords (s.table.coordsOf key colName)
  obtain ⟨hnear', hle⟩ := hmessage.writeIfDue hput (h.below.put ht key hname hvalue) hw
  have L := DataTableWriter.lasting_delay writeDelay
  have hdelay' := L.checkCoords (L.countData hdelay n) (s.table.coordsOf key colName)
  exact ⟨_, hstep, h.placed.step hstep, h.below.put ht key hname hvalue, hnear',
    L.writeIfDue hdelay' hw, hle.trans_eq hdelay'⟩

/-- What the bound says in the writer's own terms. -/
theorem Saved.totalDifference_le {writeDelay : ℕ} {s : Session} (h : s.Saved writeDelay) :
    s.writer.lastWritten.totalDifference s.table ≤ writeDelay := by
  calc s.writer.lastWritten.totalDifference s.table
      = DataTable.differenceBy charDistance s.writer.lastWritten s.table :=
        h.near.below.differenceBy_congr h.below fun _ _ => DataTableWriter.diff_eq_charDistance
    _ ≤ s.writer.myDataSinceWrite := h.near.near
    _ ≤ writeDelay := h.counted

/-- A writer attached to an empty table has nothing to save. -/
theorem saved_initialise {σ : Type*} (l : Listener σ) (s₀ : σ) (before : List TableOp) {t : DataTable}
    {s₁ : σ} (ht : run (TableOp.apply l) ({}, s₀) before = some (t, s₁)) (hempty : t.numRows = 0)
    (append : Bool) (writeDelay : ℕ) (disk : Disk) :
    Saved writeDelay ⟨t, DataTableWriter.initialise append writeDelay true disk⟩ := by
  have hplaced := placed_initialise l s₀ before ht append writeDelay true disk
  obtain ⟨hsound, _, hhistory⟩ := DataTableWriter.sound_initialise append writeDelay disk
  have hbooks := DataTableWriter.books_initialise append writeDelay true disk
  have hdelay : (DataTableWriter.initialise append writeDelay true disk).myWriteDelay = writeDelay := by
    rw [DataTableWriter.initialise, DataTableWriter.openStream]
    split <;> rfl
  have hlast : (DataTableWriter.initialise append writeDelay true disk).lastWritten = {} := by
    rw [DataTableWriter.lastWritten, hhistory]
    rfl
  generalize DataTableWriter.initialise append writeDelay true disk = w at *
  have hzero : w.myDataSinceWrite = 0 := congrArg DataTableWriter.Bookkeeping.myDataSinceWrite hbooks
  have hcolumns : t.numColumns = 1 := by
    rw [hplaced.consistent.numColumns_eq, hplaced.cols_nil hempty]
    rfl
  have hnil : ∀ {u : DataTable}, u.Consistent → u.numColumns = 1 → ∀ p : ℕ × ℕ, 0 < p.2 →
      u.entry p = [] := fun hu hone p hp => hu.entry_eq_nil (Or.inr (by omega))
  have hbelow : ∀ {u : DataTable}, u.Consistent → u.numColumns = 1 → u.TextsBelow INT_BOUND := by
    intro u hu hone p hp
    rw [hnil hu hone p hp]
    norm_num [INT_BOUND]
  refine ⟨hplaced, hbelow hplaced.consistent hcolumns, ⟨?_, ?_, ?_, ?_⟩, hdelay, ?_⟩
  · show w.ready = true
    rw [DataTableWriter.ready, if_pos hsound.live.isOpen, hsound.live.good]
  · exact hlast ▸ DataTable.consistent_empty
  · exact hlast ▸ hbelow DataTable.consistent_empty rfl
  · refine (total_of_agree charDistance_self fun p hp => ?_).le.trans (Nat.zero_le _)
    have hpos := (DataTable.mem_positions.mp hp).2.1
    show w.lastWritten.entry p = t.entry p
    rw [hlast, hnil DataTable.consistent_empty rfl p hpos, hnil hplaced.consistent hcolumns p hpos]
  · exact hzero.le.trans (Nat.zero_le _)

end Session

/-- **At most the delay is lost.**  A writer is attached to a table with any past that is empty, and its
stream does not fail.  If no column name and no value that is inserted has `2 ^ 31` characters or more,
then after any number of inserts the total difference between the table as last written and the table
now is at most the delay. -/
theorem bounded_loss {σ : Type*} (l : Listener σ) (s₀ : σ) (before : List TableOp) {t : DataTable}
    {s₁ : σ} (ht : run (TableOp.apply l) ({}, s₀) before = some (t, s₁)) (hempty : t.numRows = 0)
    (append : Bool) (writeDelay : ℕ) (disk : Disk) (inserts : List Insertion)
    (hshort : ∀ i ∈ inserts, i.colName.length < 2 ^ 31 ∧ i.value.length < 2 ^ 31) :
    ∃ s, run Session.step ⟨t, DataTableWriter.initialise append writeDelay true disk⟩
        (inserts.map fun i => .table (.insert i.order i.key i.colName i.value)) = some s ∧
      s.writer.lastWritten.totalDifference s.table ≤ writeDelay := by
  have hsaved := Session.saved_initialise l s₀ before ht hempty append writeDelay disk
  generalize (⟨t, DataTableWriter.initialise append writeDelay true disk⟩ : Session) = s at hsaved
  induction inserts generalizing s with
  | nil => exact ⟨s, rfl, hsaved.totalDifference_le⟩
  | cons i inserts ih =>
      obtain ⟨hname, hvalue⟩ := hshort i List.mem_cons_self
      obtain ⟨s', hs', hsaved'⟩ := hsaved.insert i.order i.key hname hvalue
      obtain ⟨s'', hrun, hle⟩ := ih (fun j hj => hshort j (List.mem_cons_of_mem _ hj)) s' hsaved'
      exact ⟨s'', by rw [List.map_cons, run_cons, hs']; exact hrun, hle⟩

/-- A value that overwrites a longer one, and one that comes with a new column. -/
theorem bounded_loss_at :
    ∃ s, run Session.step ⟨{}, DataTableWriter.initialise true 3 true none⟩
        ([⟨.rowFirst, ['a'], ['x'], ['1', '2', '3']⟩, ⟨.colFirst, ['a'], ['x'], ['4']⟩,
          ⟨.colFirst, ['b'], ['y'], ['5']⟩].map fun i : Insertion =>
            .table (.insert i.order i.key i.colName i.value)) = some s ∧
      s.writer.lastWritten.totalDifference s.table ≤ 3 :=
  bounded_loss silentListener () [] rfl rfl true 3 none
    [⟨.rowFirst, ['a'], ['x'], ['1', '2', '3']⟩, ⟨.colFirst, ['a'], ['x'], ['4']⟩,
      ⟨.colFirst, ['b'], ['y'], ['5']⟩] (by decide)

/-! ### Texts that are too long -/

namespace Session

/-- The value half of an insert, with `n` more characters, behind a column half without a write. -/
theorem step_insert_eq {s : Session} (ht : s.table.Consistent) {order : EvalOrder}
    {key colName : Str} {w : DataTableWriter} (hw : s.columnHalf order key colName = ⟨some w, []⟩)
    {value : Str} {n : ℕ} (hn : DataTableWriter.diff (s.table.oldValue key colName value) value = n) :
    s.step (.table (.insert order key colName value))
      = (((w.countData n).checkCoords (s.table.coordsOf key colName)).writeIfDue
          (s.table.put key colName value)).map fun w => ⟨s.table.put key colName value, w⟩ := by
  rw [step_insert ht, bothHalves, hw, hn, Watched.writeIfDue_writer]
  rfl

/-- **An insert within the delay** writes nothing. -/
theorem step_insert_quiet {s : Session} (ht : s.table.Consistent) (order : EvalOrder)
    (key colName value : Str) {n : ℕ}
    (hn : DataTableWriter.diff (s.table.oldValue key colName value) value = n)
    (hle : s.writer.myDataSinceWrite + s.columnCount colName + n ≤ s.writer.myWriteDelay) :
    ∃ w, s.step (.table (.insert order key colName value))
        = some ⟨s.table.put key colName value, w⟩ ∧ w.lastWritten = s.writer.lastWritten ∧
      w.myDataSinceWrite = s.writer.myDataSinceWrite + s.columnCount colName + n ∧
      w.myWriteDelay = s.writer.myWriteDelay := by
  obtain ⟨v, hv, _, hhistory, hdata, hdelay⟩ := s.columnHalf_of_le order key
    ((Nat.le_add_right _ n).trans hle)
  obtain ⟨hdata', hdelay', hhistory', _⟩ :=
    (v.countData n).checkCoords_rest (s.table.coordsOf key colName)
  have hcount : (v.countData n).myDataSinceWrite = v.myDataSinceWrite + n := rfl
  refine ⟨(v.countData n).checkCoords (s.table.coordsOf key colName), ?_,
    DataTableWriter.lastWritten_congr (hhistory'.trans hhistory), ?_, hdelay'.trans hdelay⟩
  · rw [step_insert_eq ht hv hn, DataTableWriter.writeIfDue, if_neg]
    · rfl
    · rw [hdata', hdelay', hcount, hdata]
      exact not_lt.mpr (hle.trans_eq hdelay.symm)
  · rw [hdata', hcount, hdata]

/-- **An insert whose value exceeds the delay** is written at once. -/
theorem step_insert_due {s : Session} (h : s.Placed) (hready : s.writer.ready = true)
    (order : EvalOrder) (key colName value : Str) {n : ℕ}
    (hn : DataTableWriter.diff (s.table.oldValue key colName value) value = n)
    (hle : s.writer.myDataSinceWrite + s.columnCount colName ≤ s.writer.myWriteDelay)
    (hdue : s.writer.myWriteDelay < s.writer.myDataSinceWrite + s.columnCount colName + n) :
    ∃ w, s.step (.table (.insert order key colName value))
        = some ⟨s.table.put key colName value, w⟩ ∧
      w.lastWritten = s.table.put key colName value ∧ w.myDataSinceWrite = 0 ∧
      w.myWriteDelay = s.writer.myWriteDelay := by
  obtain ⟨v, hv, hready', _, hdata, hdelay⟩ := s.columnHalf_of_le order key hle
  obtain ⟨hdata', hdelay', _, hready''⟩ :=
    (v.countData n).checkCoords_rest (s.table.coordsOf key colName)
  have hcount : (v.countData n).myDataSinceWrite = v.myDataSinceWrite + n := rfl
  have hdelay'' := hdelay'.trans hdelay
  have heq := step_insert_eq h.consistent hv hn
  obtain ⟨⟨w, hw, _⟩, _⟩ := h.bothHalves order key colName value
  rw [step_insert h.consistent, hw, Option.map_some] at heq
  obtain ⟨w', hw', hsame⟩ := Option.map_eq_some_iff.mp heq.symm
  generalize (v.countData n).checkCoords (s.table.coordsOf key colName) = u at *
  rw [DataTableWriter.writeIfDue, if_pos (by omega)] at hw'
  obtain ⟨⟨ok, x⟩, hx, rfl⟩ := Option.map_eq_some_iff.mp hw'
  obtain ⟨rfl, hzero⟩ := DataTableWriter.write_done (hready''.trans (hready'.trans hready)) hx
  refine ⟨x, ?_, DataTableWriter.lastWritten_write hx, hzero,
    (DataTableWriter.lasting_delay s.writer.myWriteDelay).write hdelay'' hx⟩
  rw [step_insert h.consistent, hw, Option.map_some, ← hsame]

end Session

/-- A cell is written, emptied and written again, in a session with a delay of one character. -/
theorem third_value_unwritten {A B : Str} (hA : DataTableWriter.diff [] A = 1)
    (hA' : DataTableWriter.diff A [] = 1) (hB : DataTableWriter.diff [] B = 0) :
    ∃ s, run Session.step ⟨{}, DataTableWriter.initialise true 1 true none⟩
        [.table (.insert .rowFirst ['k'] ['x'] A), .table (.insert .rowFirst ['k'] ['x'] []),
          .table (.insert .rowFirst ['k'] ['x'] B)] = some s ∧
      DataTableWriter.diff A B ≤ s.writer.lastWritten.totalDifference s.table := by
  have h₀ := Session.placed_initialise silentListener () [] rfl true 1 true none
  have hcolumn : ∀ {w : DataTableWriter} {t : DataTable}, t.cols = [['x']] →
      Session.columnCount ⟨t, w⟩ ['x'] = 0 := by
    intro w t hcols
    rw [Session.columnCount, if_pos (by simp [hcols])]
  have hold₁ : (({} : DataTable).put ['k'] ['x'] A).oldValue ['k'] ['x'] [] = A := rfl
  have hold₂ : ((({} : DataTable).put ['k'] ['x'] A).put ['k'] ['x'] []).oldValue ['k'] ['x'] B = [] :=
    rfl
  obtain ⟨w₁, hs₁, hlast₁, hdata₁, hdelay₁⟩ := Session.step_insert_due h₀ rfl .rowFirst ['k'] ['x'] A hA
    (by decide) (by decide)
  have h₁ := h₀.step hs₁
  obtain ⟨w₂, hs₂, hlast₂, hdata₂, hdelay₂⟩ := Session.step_insert_quiet h₁.consistent .rowFirst ['k']
    ['x'] [] (n := 1) (by rw [hold₁, hA']) (by rw [hcolumn rfl, hdata₁, hdelay₁]; exact le_rfl)
  have h₂ := h₁.step hs₂
  rw [hcolumn rfl, hdata₁] at hdata₂
  obtain ⟨w₃, hs₃, hlast₃, _⟩ := Session.step_insert_quiet h₂.consistent .rowFirst ['k'] ['x'] B
    (n := 0) (by rw [hold₂, hB]) (by rw [hcolumn rfl, hdata₂, hdelay₂, hdelay₁]; exact le_rfl)
  refine ⟨_, by rw [run_cons, hs₁, Option.bind_some, run_cons, hs₂, Option.bind_some, run_cons, hs₃,
    Option.bind_some, run_nil], ?_⟩
  rw [hlast₃, hlast₂, hlast₁]
  -- the cell is at row `1` and column `1` of the texts
  have hrows : (({} : DataTable).put ['k'] ['x'] A).numRows = 1 := rfl
  have hcols : (({} : DataTable).put ['k'] ['x'] A).numColumns = 2 := rfl
  have hentry₁ : (({} : DataTable).put ['k'] ['x'] A).entry (1, 1) = A := rfl
  have hentry₃ : (((({} : DataTable).put ['k'] ['x'] A).put ['k'] ['x'] []).put ['k'] ['x'] B).entry
      (1, 1) = B := by
    have hcoords : ((({} : DataTable).put ['k'] ['x'] A).put ['k'] ['x'] []).coordsOf ['k'] ['x']
        = (0, 1) := rfl
    have hcell := h₂.consistent.cell_put ['k'] ['x'] B (p := (0, 1)) one_pos
    exact hcell.trans (if_pos hcoords.symm)
  show _ ≤ DataTable.totalDifference (({} : DataTable).put ['k'] ['x'] A)
    (((({} : DataTable).put ['k'] ['x'] A).put ['k'] ['x'] []).put ['k'] ['x'] B)
  generalize ((({} : DataTable).put ['k'] ['x'] A).put ['k'] ['x'] []).put ['k'] ['x'] B = t₃ at *
  generalize ({} : DataTable).put ['k'] ['x'] A = t₁ at *
  have hmem : (1, 1) ∈ DataTable.positions (max t₁.numRows t₃.numRows)
      (max t₁.numColumns t₃.numColumns) := by
    rw [DataTable.mem_positions]
    omega
  calc DataTableWriter.diff A B
      = DataTableWriter.diff (t₁.entry (1, 1)) (t₃.entry (1, 1)) := by rw [hentry₁, hentry₃]
    _ ≤ t₁.totalDifference t₃ := member_le_total hmem

/-- **A text of `2 ^ 32` characters is not counted.**  With a delay of one character, the cell in the
file holds `2 ^ 32 + 1` characters `a`, and the cell in the table `2 ^ 32` characters `b`. -/
theorem long_text_unwritten :
    ∃ s, run Session.step ⟨{}, DataTableWriter.initialise true 1 true none⟩
        [.table (.insert .rowFirst ['k'] ['x'] (List.replicate (2 ^ 32 + 1) 'a')),
          .table (.insert .rowFirst ['k'] ['x'] []),
          .table (.insert .rowFirst ['k'] ['x'] (List.replicate (2 ^ 32) 'b'))] = some s ∧
      2 ^ 32 < s.writer.lastWritten.totalDifference s.table ∧
      ¬ s.writer.lastWritten.totalDifference s.table ≤ 1 := by
  have hdiff : ∀ v : Str, DataTableWriter.diff [] v = (toInt v.length).natAbs ∧
      DataTableWriter.diff v [] = (toInt v.length).natAbs := by
    intro v
    have hzero : toInt 0 = 0 := by decide
    simp only [DataTableWriter.diff, List.zip_nil_left, List.zip_nil_right, List.countP_nil,
      List.length_nil, hzero, Nat.zero_add, zero_sub, sub_zero, Int.natAbs_neg, and_self]
  have hone : toInt (2 ^ 32 + 1) = 1 := by decide
  have hzero : toInt (2 ^ 32) = 0 := by decide
  have hA : (toInt (List.replicate (2 ^ 32 + 1) 'a').length).natAbs = 1 := by
    rw [List.length_replicate, hone, Int.natAbs_one]
  have hB : (toInt (List.replicate (2 ^ 32) 'b').length).natAbs = 0 := by
    rw [List.length_replicate, hzero, Int.natAbs_zero]
  have hcount : 2 ^ 32 < DataTableWriter.diff (List.replicate (2 ^ 32 + 1) 'a')
      (List.replicate (2 ^ 32) 'b') := by
    rw [DataTableWriter.diff, List.zip_replicate, List.countP_replicate, if_pos (by decide),
      List.length_replicate, List.length_replicate, hone, hzero, sub_zero, Int.natAbs_one,
      min_eq_right (Nat.le_succ _)]
    exact Nat.lt_succ_self _
  obtain ⟨s, hs, hle⟩ := third_value_unwritten ((hdiff _).1.trans hA) ((hdiff _).2.trans hA)
    ((hdiff _).1.trans hB)
  exact ⟨s, hs, hcount.trans_le hle, by omega⟩

end StructurePipe.Utility
