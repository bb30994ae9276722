import StructurePipe.Lib.LastWrites
import StructurePipe.Lib.StepRuns
import StructurePipe.Utility.DataTable

/-!
# The data table is a finite map

What a `DataTable` is for: a partial map from pairs of a row key and a column name to values, which
also remembers in which order keys and names came in.  `Grid` says just that, with a function for
the map.  The code keeps four containers and rows of different lengths for it; this file shows that
every history of `insert`, `addTableNote` and `clear` leaves them representing the grid of the same
history.

* `Represents` — the four containers hold the grid: every value is in the cell at the position of
  its key and name, and a cell without a value is missing or empty;
* `TableOp.apply_table` — what a call does to the table does not depend on the listener;
* `represents_step`, `represents_run` — **every operation, and so every history, keeps it;**
* `lookup_eq` — a search through the rows and column names finds the cell at that position;
* `dataTable_refines_map` — the finite-map reading of whole histories.
-/

namespace StructurePipe.Utility

open FirstInsertion StepRuns

/-! ### The abstract table -/

/-- A finite map on pairs, with the order in which first and second components were first used. -/
structure Grid (κ ν : Type*) where
  rowKeys : List κ
  colNames : List κ
  value : κ → κ → Option ν

namespace Grid

variable {κ ν : Type*}

def empty : Grid κ ν := ⟨[], [], fun _ _ => none⟩

variable [BEq κ] [LawfulBEq κ] [DecidableEq κ]

def insert (g : Grid κ ν) (k c : κ) (v : ν) : Grid κ ν where
  rowKeys := register g.rowKeys k
  colNames := register g.colNames c
  value k' c' := if k' = k ∧ c' = c then some v else g.value k' c'

theorem insert_value_self (g : Grid κ ν) (k c : κ) (v : ν) :
    (g.insert k c v).value k c = some v := by
  simp [insert]

theorem insert_value_of_ne (g : Grid κ ν) {k c k' c' : κ} (h : (k', c') ≠ (k, c)) (v : ν) :
    (g.insert k c v).value k' c' = g.value k' c' := by
  have hne : ¬(k' = k ∧ c' = c) := by
    rintro ⟨rfl, rfl⟩
    exact h rfl
  simp [insert, hne]

end Grid

/-! ### Histories of a table -/

/-- A call on a table. -/
inductive TableOp where
  | insert (order : EvalOrder) (key colName value : Str)
  | addTableNote (note : Str)
  | clear
deriving DecidableEq, Repr

/-- One call on a table with its listener. -/
def TableOp.apply {σ : Type*} (l : Listener σ) : DataTable × σ → TableOp → Option (DataTable × σ)
  | (t, s), .insert order key colName value => (t.insert l order s key colName value).map Prod.snd
  | (t, s), .addTableNote note => some (t.addTableNote note, s)
  | (t, s), .clear => some (t.clear, s)

/-- What a call does to the table alone. -/
def TableOp.onTable (t : DataTable) : TableOp → DataTable
  | .insert _ key colName value => t.put key colName value
  | .addTableNote note => t.addTableNote note
  | .clear => t.clear

/-- The same call on a grid. -/
def TableOp.onGrid (g : Grid Str Str) : TableOp → Grid Str Str
  | .insert _ key colName value => g.insert key colName value
  | .addTableNote _ => g
  | .clear => Grid.empty

/-- The grid of a history: what was last inserted at each pair since the last `clear`, and the keys
and names in the order of their first insertion since then. -/
def gridOf (ops : List TableOp) : Grid Str Str := ops.foldl TableOp.onGrid Grid.empty

/-- Whether the table holds an insert after one more call. -/
def TableOp.holdsInsert (held : Bool) : TableOp → Bool
  | .insert _ _ _ _ => true
  | .addTableNote _ => held
  | .clear => false

/-- An insert was made since construction or the last `clear`. -/
def insertedSinceClear (ops : List TableOp) : Bool := ops.foldl TableOp.holdsInsert false

/-- The inserts of a sequence of writes. -/
def insertsOf (order : EvalOrder) (writes : List ((Str × Str) × Str)) : List TableOp :=
  writes.map fun write => .insert order write.1.1 write.1.2 write.2

/-- Inserts after a history: what was last written to a pair, or what was there. -/
theorem gridOf_append_insertsOf (ops : List TableOp) (order : EvalOrder)
    (writes : List ((Str × Str) × Str)) (k c : Str) :
    (gridOf (ops ++ insertsOf order writes)).value k c
      = (LastWrites.last (k, c) writes).or ((gridOf ops).value k c) := by
  induction writes using List.reverseRecOn with
  | nil => simp [insertsOf]
  | append_singleton writes write ih =>
      have hgrid : gridOf (ops ++ insertsOf order (writes ++ [write]))
          = (gridOf (ops ++ insertsOf order writes)).insert write.1.1 write.1.2 write.2 := by
        simp [gridOf, insertsOf, TableOp.onGrid]
      rw [hgrid, LastWrites.last_append, LastWrites.last_singleton]
      by_cases h : (k, c) = write.1
      · rw [← h, Grid.insert_value_self, if_pos rfl]
        rfl
      · rw [Grid.insert_value_of_ne _ h, if_neg h, ih]
        rfl

/-- A history of inserts leaves at each pair what was last written to it. -/
theorem gridOf_insertsOf (order : EvalOrder) (writes : List ((Str × Str) × Str)) (k c : Str) :
    (gridOf (insertsOf order writes)).value k c = LastWrites.last (k, c) writes :=
  (gridOf_append_insertsOf [] order writes k c).trans (Option.or_none)

namespace DataTable

/-- The cell at a position, if the row is that long. -/
def cell? (t : DataTable) (p : Coords) : Option Str := t.myRows[p.1]?.bind fun row => row[p.2]?

/-- The text at a position, a missing cell counting as the empty string. -/
def cell (t : DataTable) (p : Coords) : Str := (t.myRows.getD p.1 []).getD p.2 []

/-- The cell of a key and a column name found by searching the rows for one that starts with the key
and the names of the value columns for the name. -/
def lookup (t : DataTable) (key colName : Str) : Option Str :=
  t.cell? (t.myRows.findIdx (fun row => row.head? == some key),
    t.myColumnNames.tail.findIdx (· == colName) + 1)

theorem cell_eq (t : DataTable) (p : Coords) : t.cell p = (t.cell? p).getD [] := by
  rw [cell, cell?, List.getD_eq_getElem?_getD, List.getD_eq_getElem?_getD]
  cases t.myRows[p.1]? <;> simp

/-- **The search finds the cell at the position of the pair.** -/
theorem Consistent.lookup_eq {t : DataTable} (h : t.Consistent) (key colName : Str) :
    t.lookup key colName = t.cell? (t.coordsOf key colName) := by
  have hrow : t.myRows.findIdx (fun row => row.head? == some key) = t.keys.idxOf key := by
    calc t.myRows.findIdx (fun row => row.head? == some key)
        = (t.myRows.map List.head?).findIdx (· == some key) := by
          rw [List.findIdx_map]; rfl
      _ = (t.keys.map some).findIdx (· == some key) := by rw [h.heads]
      _ = t.keys.findIdx (· == key) := by
          rw [List.findIdx_map]; rfl
  rw [lookup, hrow, h.columnNames]
  rfl

theorem lt_of_cell? {t : DataTable} {p : Coords} {w : Str} (hw : t.cell? p = some w) :
    ∃ row, t.myRows[p.1]? = some row ∧ p.1 < t.numRows ∧ p.2 < row.length ∧ row ∈ t.myRows := by
  obtain ⟨row, hrow, hcell⟩ := Option.bind_eq_some_iff.mp hw
  obtain ⟨hlt, _⟩ := List.getElem?_eq_some_iff.mp hrow
  obtain ⟨hlt', _⟩ := List.getElem?_eq_some_iff.mp hcell
  exact ⟨row, hrow, hlt, hlt', List.mem_of_getElem? hrow⟩

/-- A cell at the position of a pair exists only if both its components are registered. -/
theorem Consistent.mem_of_cell? {t : DataTable} (h : t.Consistent) {k c w : Str}
    (hw : t.cell? (t.coordsOf k c) = some w) : k ∈ t.keys ∧ c ∈ t.cols := by
  obtain ⟨row, _, hlt, hlt', hmem⟩ := lt_of_cell? hw
  have hle := h.row_le row hmem
  rw [h.numRows_eq] at hlt
  rw [h.numColumns_eq] at hle
  refine ⟨List.idxOf_lt_length_iff.mp hlt, List.idxOf_lt_length_iff.mp ?_⟩
  simp only [coordsOf] at hlt'
  omega

theorem cell_of_numRows_le {t : DataTable} {p : Coords} (hp : t.numRows ≤ p.1) : t.cell p = [] := by
  rw [cell, List.getD_eq_default _ _ hp, List.getD_nil]

theorem Consistent.cell_of_numColumns_le {t : DataTable} (h : t.Consistent) {p : Coords}
    (hp : t.numColumns ≤ p.2) : t.cell p = [] := by
  rcases Nat.lt_or_ge p.1 t.myRows.length with hlt | hge
  · have hmem := h.row_le _ (List.getElem_mem hlt)
    rw [cell, List.getD_eq_getElem _ _ hlt, List.getD_eq_default _ _ (by omega)]
  · exact cell_of_numRows_le hge

/-! ### The cells after an insert -/

theorem Consistent.put_myRows {t : DataTable} (h : t.Consistent) (key colName value : Str) :
    (t.put key colName value).myRows
      = (t.withRow key).myRows.set (t.keys.idxOf key)
          (setGrown ((t.withRow key).myRows.getD (t.keys.idxOf key) []) (t.cols.idxOf colName + 1)
            value []) := by
  rw [DataTable.put, insertValue_snd (h.coordsOf_fst_lt key colName)]
  simp only [withColumn_myRows, coordsOf]

theorem Consistent.idxOf_lt_withRow {t : DataTable} (h : t.Consistent) (key : Str) :
    t.keys.idxOf key < (t.withRow key).myRows.length := by
  have := (h.withRow key).numRows_eq
  rw [h.withRow_keys] at this
  rw [show (t.withRow key).myRows.length = _ from this]
  exact idxOf_lt_register _ _

/-- The written cell holds the value. -/
theorem Consistent.cell?_put_self {t : DataTable} (h : t.Consistent) (key colName value : Str) :
    (t.put key colName value).cell? (t.coordsOf key colName) = some value := by
  rw [cell?, h.put_myRows]
  simp only [coordsOf, List.getElem?_set_self (h.idxOf_lt_withRow key), Option.bind_some,
    getElem?_setGrown_self]

/-- Registering a row leaves every existing cell in place. -/
theorem Consistent.cell?_withRow {t : DataTable} (h : t.Consistent) {p : Coords} {w : Str}
    (hw : t.cell? p = some w) (key : Str) : (t.withRow key).cell? p = some w := by
  obtain ⟨row, hrow, hlt, _, _⟩ := lt_of_cell? hw
  rw [cell?, h.withRow_myRows]
  split
  · exact hw
  · rw [List.getElem?_append_left hlt]
    exact hw

/-- **An insert changes no other existing cell.** -/
theorem Consistent.cell?_put_of_ne {t : DataTable} (h : t.Consistent) {key colName : Str}
    {p : Coords} (hp : p ≠ t.coordsOf key colName) {w : Str} (hw : t.cell? p = some w)
    (value : Str) : (t.put key colName value).cell? p = some w := by
  have hw' := h.cell?_withRow hw key
  obtain ⟨row, hrow, hlt, hlt', _⟩ := lt_of_cell? hw'
  rw [cell?, h.put_myRows]
  by_cases hi : t.keys.idxOf key = p.1
  · have hne : p.2 ≠ t.cols.idxOf colName + 1 := by
      intro hc
      exact hp (Prod.ext hi.symm hc)
    rw [hi, List.getElem?_set_self hlt, Option.bind_some, List.getD_eq_getElem?_getD, hrow,
      Option.getD_some, getElem?_setGrown_of_ne hne hlt']
    rwa [cell?, hrow] at hw'
  · rw [List.getElem?_set_ne hi]
    exact hw'

/-- A new row holds its key alone, so it has no cell in a value column. -/
theorem Consistent.cell_withRow {t : DataTable} (h : t.Consistent) (key : Str) {p : Coords}
    (hp : 0 < p.2) : (t.withRow key).cell p = t.cell p := by
  rw [cell, cell, h.withRow_myRows]
  split
  · rfl
  · rcases Nat.lt_or_ge p.1 t.myRows.length with hlt | hge
    · rw [List.getD_append _ _ _ _ hlt]
    · rw [List.getD_append_right _ _ _ _ hge, List.getD_eq_default t.myRows _ hge, List.getD_nil]
      cases p.1 - t.myRows.length with
      | zero => exact List.getD_eq_default _ _ hp
      | succ n => rfl

/-- The value columns after an insert: one cell changed, every other as before. -/
theorem Consistent.cell_put {t : DataTable} (h : t.Consistent) (key colName value : Str)
    {p : Coords} (hp : 0 < p.2) :
    (t.put key colName value).cell p
      = if p = t.coordsOf key colName then value else t.cell p := by
  rw [← h.cell_withRow key hp, cell, h.put_myRows, getD_set _ (h.idxOf_lt_withRow key)]
  by_cases hi : t.keys.idxOf key = p.1
  · have hiff : p = t.coordsOf key colName ↔ p.2 = t.cols.idxOf colName + 1 :=
      ⟨fun hc => congrArg Prod.snd hc, fun hc => Prod.ext hi.symm hc⟩
    rw [if_pos hi, getD_setGrown, hi, cell]
    simp only [hiff]
  · have hne : p ≠ t.coordsOf key colName := fun hc => hi (congrArg Prod.fst hc).symm
    rw [if_neg hi, if_neg hne, cell]

/-- Registered pairs keep their position. -/
theorem Consistent.coordsOf_put {t : DataTable} (h : t.Consistent) {k c : Str} (hk : k ∈ t.keys)
    (hc : c ∈ t.cols) (key colName value : Str) :
    (t.put key colName value).coordsOf k c = t.coordsOf k c := by
  rw [coordsOf, coordsOf, h.put_keys, h.put_cols, idxOf_register_of_mem hk,
    idxOf_register_of_mem hc]

theorem Consistent.coordsOf_put_self {t : DataTable} (h : t.Consistent)
    (key colName value : Str) :
    (t.put key colName value).coordsOf key colName = t.coordsOf key colName := by
  rw [coordsOf, coordsOf, h.put_keys, h.put_cols, idxOf_register_self, idxOf_register_self]

/-- Registered pairs have positions of their own. -/
theorem coordsOf_inj {t : DataTable} {k c k' c' : Str} (hk : k ∈ t.keys) (hc : c ∈ t.cols)
    (h : t.coordsOf k c = t.coordsOf k' c') : (k, c) = (k', c') := by
  simp only [coordsOf, Prod.mk.injEq, Nat.add_right_cancel_iff] at h
  rw [idxOf_inj hk h.1, idxOf_inj hc h.2]

/-- The text at the position of a pair is not changed by registering others: a position that was not
registered is blank before and after. -/
theorem Consistent.cell_at_coordsOf_put {t : DataTable} (h : t.Consistent)
    (k c key colName value : Str) :
    t.cell ((t.put key colName value).coordsOf k c) = t.cell (t.coordsOf k c) := by
  by_cases hk : k ∈ t.keys
  · by_cases hc : c ∈ t.cols
    · rw [h.coordsOf_put hk hc]
    · rw [h.cell_of_numColumns_le, h.cell_of_numColumns_le]
      · rw [h.numColumns_eq, coordsOf, List.idxOf_of_notMem hc]
      · rw [h.numColumns_eq, coordsOf, h.put_cols]
        exact Nat.succ_le_succ (length_le_idxOf_register hc colName)
  · rw [cell_of_numRows_le, cell_of_numRows_le]
    · rw [h.numRows_eq, coordsOf, List.idxOf_of_notMem hk]
    · rw [h.numRows_eq, coordsOf, h.put_keys]
      exact length_le_idxOf_register hk key

/-- **No other pair is affected by an insert**, registered or not. -/
theorem Consistent.cell_coordsOf_put {t : DataTable} (h : t.Consistent) {k c key colName : Str}
    (hne : (k, c) ≠ (key, colName)) (value : Str) :
    (t.put key colName value).cell ((t.put key colName value).coordsOf k c)
      = t.cell (t.coordsOf k c) := by
  have hpos : (t.put key colName value).coordsOf k c ≠ t.coordsOf key colName := by
    intro heq
    rw [← h.coordsOf_put_self key colName value] at heq
    have hinj := coordsOf_inj (by rw [h.put_keys]; simp) (by rw [h.put_cols]; simp) heq.symm
    exact hne hinj.symm
  rw [h.cell_put _ _ _ (Nat.succ_pos _), if_neg hpos, h.cell_at_coordsOf_put]

end DataTable

/-! ### The simulation -/

/-- The table holds the grid: same keys and names in the same order, every value in the cell at the
position of its pair, and nothing in the cell of a pair without a value. -/
structure Represents (t : DataTable) (g : Grid Str Str) : Prop where
  consistent : t.Consistent
  keys : t.keys = g.rowKeys
  cols : t.cols = g.colNames
  stored : ∀ k c v, g.value k c = some v → t.cell? (t.coordsOf k c) = some v
  blank : ∀ k c, g.value k c = none → t.cell (t.coordsOf k c) = []

theorem represents_empty : Represents {} Grid.empty where
  consistent := DataTable.consistent_empty
  keys := rfl
  cols := rfl
  stored := by intro k c v h; simp [Grid.empty] at h
  blank := by
    intro k c _
    exact DataTable.cell_of_numRows_le (Nat.zero_le _)

theorem Represents.insert {t : DataTable} {g : Grid Str Str} (h : Represents t g)
    (key colName value : Str) :
    Represents (t.put key colName value) (g.insert key colName value) where
  consistent := h.consistent.put key colName value
  keys := by rw [h.consistent.put_keys, h.keys]; rfl
  cols := by rw [h.consistent.put_cols, h.cols]; rfl
  stored := by
    intro k c v hv
    by_cases heq : (k, c) = (key, colName)
    · obtain ⟨rfl, rfl⟩ := Prod.mk.inj heq
      rw [g.insert_value_self] at hv
      rw [← Option.some.inj hv, h.consistent.coordsOf_put_self]
      exact h.consistent.cell?_put_self k c value
    · rw [g.insert_value_of_ne heq] at hv
      have hold := h.stored k c v hv
      obtain ⟨hk, hc⟩ := h.consistent.mem_of_cell? hold
      rw [h.consistent.coordsOf_put hk hc]
      refine h.consistent.cell?_put_of_ne ?_ hold value
      exact fun hpos => heq (DataTable.coordsOf_inj hk hc hpos)
  blank := by
    intro k c hv
    have heq : (k, c) ≠ (key, colName) := by
      rintro heq
      obtain ⟨rfl, rfl⟩ := Prod.mk.inj heq
      rw [g.insert_value_self] at hv
      exact absurd hv (by simp)
    rw [g.insert_value_of_ne heq] at hv
    rw [h.consistent.cell_coordsOf_put heq]
    exact h.blank k c hv

/-- A listener that ignores every message. -/
def silentListener : Listener Unit where
  onDataTableValueChanged _ _ _ _ s := some s
  onDataTableColumnChanged _ _ _ _ s := some s

section Histories

variable {σ : Type*} (l : Listener σ)

/-- **What one call does to the table**, whatever the listener does. -/
theorem TableOp.apply_table {s s' : DataTable × σ} (hs : s.1.Consistent) {op : TableOp}
    (h : op.apply l s = some s') : s'.1 = op.onTable s.1 := by
  obtain ⟨t, u⟩ := s
  cases op with
  | insert order key colName value =>
      obtain ⟨⟨c, t', u'⟩, hi, rfl⟩ := Option.map_eq_some_iff.mp h
      exact (hs.insert_table l hi).2
  | addTableNote note => rw [← Option.some.inj h, TableOp.onTable]
  | clear => rw [← Option.some.inj h, TableOp.onTable]

theorem DataTable.Consistent.onTable {t : DataTable} (h : t.Consistent) (op : TableOp) :
    (op.onTable t).Consistent := by
  cases op with
  | insert order key colName value => exact h.put key colName value
  | addTableNote note => exact h.addTableNote note
  | clear => exact DataTable.consistent_empty

/-- **One call.**  Whatever the listener does, the table after a call represents the grid after it. -/
theorem represents_step (s : DataTable × σ) (op : TableOp) (s' : DataTable × σ) (g : Grid Str Str)
    (h : Represents s.1 g) (hs : op.apply l s = some s') : Represents s'.1 (op.onGrid g) := by
  rw [op.apply_table l h.consistent hs]
  cases op with
  | insert order key colName value => exact h.insert key colName value
  | addTableNote note =>
      exact ⟨h.consistent.addTableNote note, h.keys, h.cols, h.stored, h.blank⟩
  | clear => exact represents_empty

/-- **Every history.** -/
theorem represents_run (s₀ : σ) {ops : List TableOp} {t : DataTable} {s : σ}
    (h : run (TableOp.apply l) ({}, s₀) ops = some (t, s)) :
    Represents t (gridOf ops) :=
  run_simulates (fun s g => Represents s.1 g) TableOp.onGrid
    (fun s op s' g hR hs => represents_step l s op s' g hR hs) represents_empty h

/-- A value of the grid is found in the table. -/
theorem lookup_of_run (s₀ : σ) {ops : List TableOp} {t : DataTable} {s : σ}
    (h : run (TableOp.apply l) ({}, s₀) ops = some (t, s)) {key colName v : Str}
    (hv : (gridOf ops).value key colName = some v) : t.lookup key colName = some v := by
  have hrep := represents_run l s₀ h
  rw [hrep.consistent.lookup_eq]
  exact hrep.stored key colName v hv

/-- Columns come with rows: a table has no rows if and only if it has no value column. -/
theorem numRows_eq_zero_iff_run (s₀ : σ) {ops : List TableOp} {t : DataTable} {s : σ}
    (h : run (TableOp.apply l) ({}, s₀) ops = some (t, s)) : t.numRows = 0 ↔ t.cols = [] := by
  refine (run_invariant (fun u : DataTable × σ => u.1.Consistent ∧ (u.1.numRows = 0 ↔ u.1.cols = []))
    (fun _ => True) ?_ ⟨DataTable.consistent_empty, by simp [DataTable.numRows, DataTable.cols]⟩
    (fun _ _ => trivial) h).2
  rintro u op u' ⟨hu, hcols⟩ _ hs
  rw [op.apply_table l hu hs]
  refine ⟨hu.onTable op, ?_⟩
  cases op with
  | insert order key colName value =>
      exact iff_of_false (hu.numRows_put_pos key colName value).ne'
        (hu.put_cols_ne_nil key colName value)
  | addTableNote note => exact hcols
  | clear => exact iff_of_true rfl rfl

/-- The rows count the inserts since the last `clear`: there is none if and only if there was no
insert. -/
theorem numRows_eq_zero_iff_inserted (s₀ : σ) {ops : List TableOp} {t : DataTable} {s : σ}
    (h : run (TableOp.apply l) ({}, s₀) ops = some (t, s)) :
    t.numRows = 0 ↔ insertedSinceClear ops = false := by
  refine (run_simulates (fun (u : DataTable × σ) held => u.1.Consistent ∧
    (u.1.numRows = 0 ↔ held = false)) TableOp.holdsInsert ?_
    ⟨DataTable.consistent_empty, iff_of_true rfl rfl⟩ h).2
  rintro u op u' held ⟨hu, hheld⟩ hs
  rw [op.apply_table l hu hs]
  refine ⟨hu.onTable op, ?_⟩
  cases op with
  | insert order key colName value =>
      exact iff_of_false (hu.numRows_put_pos key colName value).ne' (by simp [TableOp.holdsInsert])
  | addTableNote note => exact hheld
  | clear => exact iff_of_true rfl rfl

/-- **When `empty` means that there is no content.**  After any history, and whatever listens,
`empty()` says whether no insert was made since construction or the last `clear` if and only if none
was made: it always answers yes. -/
theorem empty_iff (s₀ : σ) (ops : List TableOp) {t : DataTable} {s : σ}
    (h : run (TableOp.apply l) ({}, s₀) ops = some (t, s)) :
    (t.empty = true ↔ insertedSinceClear ops = false) ↔ insertedSinceClear ops = false := by
  rw [(represents_run l s₀ h).consistent.empty_eq]
  simp

/-- A table that was cleared after its only insert. -/
theorem empty_iff_at :
    ∃ t, run (TableOp.apply silentListener) ({}, ())
        [.insert .rowFirst ['a'] ['x'] ['1'], .clear, .addTableNote ['n']] = some (t, ()) ∧
      (t.empty = true ↔ insertedSinceClear
        [.insert .rowFirst ['a'] ['x'] ['1'], .clear, .addTableNote ['n']] = false) :=
  ⟨_, rfl, (empty_iff silentListener ()
    [.insert .rowFirst ['a'] ['x'] ['1'], .clear, .addTableNote ['n']] rfl).mpr rfl⟩

/-- **A table with a row is said to be empty.** -/
theorem empty_with_row :
    ∃ t, run (TableOp.apply silentListener) ({}, ()) [.insert .rowFirst ['a'] ['x'] ['1']]
        = some (t, ()) ∧ t.myRows = [[['a'], ['1']]] ∧ t.empty = true ∧
      ¬ (t.empty = true ↔ insertedSinceClear [.insert .rowFirst ['a'] ['x'] ['1']] = false) :=
  ⟨_, rfl, by decide, by decide, by decide⟩

/-- A registered pair stays registered, at its position, as long as the table is not cleared. -/
theorem coordsOf_run {key colName : Str} {t t' : DataTable} {s s' : σ} {ops : List TableOp}
    (ht : t.Consistent) (hk : key ∈ t.keys) (hc : colName ∈ t.cols)
    (hops : ∀ op ∈ ops, op ≠ TableOp.clear)
    (h : run (TableOp.apply l) (t, s) ops = some (t', s')) :
    t'.Consistent ∧ key ∈ t'.keys ∧ colName ∈ t'.cols ∧
      t'.coordsOf key colName = t.coordsOf key colName := by
  refine run_invariant (fun u : DataTable × σ => u.1.Consistent ∧ key ∈ u.1.keys ∧
    colName ∈ u.1.cols ∧ u.1.coordsOf key colName = t.coordsOf key colName)
    (fun op => op ≠ TableOp.clear) ?_ ⟨ht, hk, hc, rfl⟩ hops h
  rintro u op u' ⟨hu, huk, huc, hpos⟩ hop hs
  rw [op.apply_table l hu hs]
  refine ⟨hu.onTable op, ?_⟩
  cases op with
  | insert order k c value =>
      refine ⟨?_, ?_, ?_⟩
      · rw [TableOp.onTable, hu.put_keys]; simp [huk]
      · rw [TableOp.onTable, hu.put_cols]; simp [huc]
      · rw [TableOp.onTable, hu.coordsOf_put huk huc, hpos]
  | addTableNote note => exact ⟨huk, huc, hpos⟩
  | clear => exact absurd rfl hop

/-- **What one insert does in a consistent table.**  It writes a value column, changes no other
existing cell and no other pair; and until the next `clear` its coordinates are those of its pair
and of no other. -/
theorem insert_isolated {t t' : DataTable} (ht : t.Consistent) {order : EvalOrder} {s s' : σ}
    {key colName value : Str} {c : Coords}
    (hi : t.insert l order s key colName value = some (c, t', s')) :
    0 < c.2 ∧ (∀ p w, p ≠ c → t.cell? p = some w → t'.cell? p = some w) ∧
      (∀ k n, (k, n) ≠ (key, colName) →
        (t'.lookup k n).getD [] = (t.lookup k n).getD []) ∧
      ∀ later t₂ s₂, (∀ op ∈ later, op ≠ TableOp.clear) →
        run (TableOp.apply l) (t', s') later = some (t₂, s₂) →
        ∀ order₂ k n v c₂ r, t₂.insert l order₂ s₂ k n v = some (c₂, r) →
          (c₂ = c ↔ (k, n) = (key, colName)) := by
  obtain ⟨rfl, rfl⟩ := ht.insert_table l hi
  have hput : (t.put key colName value).Consistent := ht.put key colName value
  refine ⟨Nat.succ_pos _, fun p w hp hw => ht.cell?_put_of_ne hp hw value, ?_, ?_⟩
  · intro k n hne
    rw [hput.lookup_eq, ht.lookup_eq, ← DataTable.cell_eq, ← DataTable.cell_eq,
      ht.cell_coordsOf_put hne]
  · intro later t₂ s₂ hlater hrun order₂ k n v c₂ r hi₂
    have hkey : key ∈ (t.put key colName value).keys := by rw [ht.put_keys]; simp
    have hcol : colName ∈ (t.put key colName value).cols := by rw [ht.put_cols]; simp
    obtain ⟨ht₂, hk, hn, hpos⟩ := coordsOf_run l hput hkey hcol hlater hrun
    obtain ⟨rfl, _⟩ := ht₂.insert_table l hi₂
    rw [ht.coordsOf_put_self] at hpos
    rw [← hpos]
    constructor
    · exact fun heq => (DataTable.coordsOf_inj hk hn heq.symm).symm
    · intro heq
      rw [(Prod.mk.inj heq).1, (Prod.mk.inj heq).2]

/-- **The data table refines a finite map.**  After any history of inserts, notes and clears, with
any listener attached, a search by key and column name finds the value last inserted at that pair
since the last `clear`, and no or empty text if there was none; the rows start with their keys and
the value columns carry their names in the order of first insertion; no row is wider than the
table; and one more insert writes its own cell only (never a cell `0`), at coordinates that belong
to its pair until the next `clear`. -/
theorem dataTable_refines_map (s₀ : σ) (ops : List TableOp) {t : DataTable} {s : σ}
    (h : run (TableOp.apply l) ({}, s₀) ops = some (t, s)) :
    (∀ key colName v, (gridOf ops).value key colName = some v →
        t.lookup key colName = some v) ∧
    (∀ key colName, (gridOf ops).value key colName = none →
        t.lookup key colName = none ∨ t.lookup key colName = some []) ∧
    t.myRows.map List.head? = (gridOf ops).rowKeys.map some ∧
    t.myColumnNames = KEY_COLUMN_NAME :: (gridOf ops).colNames ∧
    (∀ row ∈ t.myRows, row.length ≤ t.numColumns) ∧
    ∀ order key colName value c t' s', t.insert l order s key colName value = some (c, t', s') →
      0 < c.2 ∧ (∀ p w, p ≠ c → t.cell? p = some w → t'.cell? p = some w) ∧
        (∀ k n, (k, n) ≠ (key, colName) →
          (t'.lookup k n).getD [] = (t.lookup k n).getD []) ∧
        ∀ later t₂ s₂, (∀ op ∈ later, op ≠ TableOp.clear) →
          run (TableOp.apply l) (t', s') later = some (t₂, s₂) →
          ∀ order₂ k n v c₂ r, t₂.insert l order₂ s₂ k n v = some (c₂, r) →
            (c₂ = c ↔ (k, n) = (key, colName)) := by
  have hrep := represents_run l s₀ h
  have ht := hrep.consistent
  refine ⟨?_, ?_, ?_, ?_, ht.row_le, fun order key colName value c t' s' hi =>
    insert_isolated l ht hi⟩
  · intro key colName v hv
    rw [ht.lookup_eq]
    exact hrep.stored key colName v hv
  · intro key colName hv
    have hblank := hrep.blank key colName hv
    rw [DataTable.cell_eq, ← ht.lookup_eq] at hblank
    cases hl : t.lookup key colName with
    | none => exact Or.inl rfl
    | some w =>
        rw [hl] at hblank
        exact Or.inr (congrArg some hblank)
  · rw [ht.heads, hrep.keys]
  · rw [ht.columnNames, hrep.cols]

end Histories

/-- The finite-map reading at a history with an overwritten cell, a cleared table and a value column
that is called like the key column. -/
theorem dataTable_refines_map_at :
    ∃ t, run (TableOp.apply silentListener) ({}, ())
        [.insert .rowFirst ['a'] ['x'] ['1'], .clear, .insert .colFirst ['b'] KEY_COLUMN_NAME ['2'],
          .insert .rowFirst ['b'] KEY_COLUMN_NAME ['3']] = some (t, ()) ∧
      t.lookup ['b'] KEY_COLUMN_NAME = some ['3'] ∧ t.cell? (0, 0) = some ['b'] :=
  ⟨_, rfl, (dataTable_refines_map silentListener ()
    [.insert .rowFirst ['a'] ['x'] ['1'], .clear, .insert .colFirst ['b'] KEY_COLUMN_NAME ['2'],
      .insert .rowFirst ['b'] KEY_COLUMN_NAME ['3']] rfl).1 ['b'] KEY_COLUMN_NAME ['3'] rfl, rfl⟩

end StructurePipe.Utility
