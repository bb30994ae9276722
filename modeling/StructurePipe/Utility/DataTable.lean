import StructurePipe.Lib.Delimited
import StructurePipe.Lib.FirstInsertion
import StructurePipe.Common.Strings

/-!
# The data table

`DataTable` as the code has it: a vector of rows, a map from row keys to row indices, a vector of
column names, a map from column names to column indices, and the notes.  Rows are padded lazily, so
a row may be shorter than the table is wide.  Both maps are only searched and extended, never
traversed, and are kept here as the list of their entries in the order of insertion.

Listeners are told about a new column in the middle of an insert and about the new value at its
end, and may do anything with the table as it is at that moment; a `Listener` is the pair of the two
callbacks over a state of its own, and a callback that runs into undefined behaviour returns `none`.
In `coords` the calls `row(key)` and `col(colName)` are two arguments of one constructor call, whose
order the language leaves open: it is a parameter.

`SSLIB_ASSERT(!key.empty())` in `row` and the same in `col` are duties of the caller: with the
assertions compiled out the code goes on as modelled here.

* `Consistent` — the representation invariant: the two maps are the inverses of the two vectors;
* `insert_table` — **what an insert does to the table, whatever the listener and the order**;
* `Consistent.put` — every insert keeps the invariant.
-/

namespace StructurePipe.Utility

open FirstInsertion

/-- Row and column index of a cell. -/
abbrev Coords := ℕ × ℕ

/-- `operator<` of a pair: lexicographic. -/
def Coords.lt (a b : Coords) : Prop := a.1 < b.1 ∨ (a.1 = b.1 ∧ a.2 < b.2)

instance (a b : Coords) : Decidable (Coords.lt a b) := inferInstanceAs (Decidable (_ ∨ _))

def KEY_COLUMN_NAME : Str := ['[', 'k', 'e', 'y', ']']

def DEFAULT_COLUMN_NAMES : List Str := [KEY_COLUMN_NAME]

structure DataTable where
  myRows : List (List Str) := []
  myRowMap : List (Str × ℕ) := []
  myColumnNames : List Str := DEFAULT_COLUMN_NAMES
  myColumnMap : List (Str × ℕ) := []
  myTableNotes : List Str := []
deriving DecidableEq, Repr

/-- What a table tells a listener: a changed cell with its old and new value, and a changed column
name.  The callback sees the table as it is at that moment and may fail. -/
structure Listener (σ : Type*) where
  onDataTableValueChanged : DataTable → Coords → Str → Str → σ → Option σ
  onDataTableColumnChanged : DataTable → ℕ → Str → Str → σ → Option σ

/-- Which of `row(key)` and `col(colName)` in `coords` is evaluated first. -/
inductive EvalOrder where
  | rowFirst
  | colFirst
deriving DecidableEq, Repr

namespace DataTable

def numRows (t : DataTable) : ℕ := t.myRows.length

def numColumns (t : DataTable) : ℕ := t.myColumnNames.length

def hasNotes (t : DataTable) : Bool := !t.myTableNotes.isEmpty

def addTableNote (t : DataTable) (note : Str) : DataTable :=
  { t with myTableNotes := t.myTableNotes ++ [note] }

/-- `empty()`.  The loop over the rows returns `true` at the first that is not empty. -/
def empty (t : DataTable) : Bool := t.myRows.isEmpty || t.myRows.any fun row => !row.isEmpty

/-- Everything but the listeners goes back to its initial value; no message is sent. -/
def clear (_ : DataTable) : DataTable := {}

/-- The index of the row of `key`; an unknown key gets a new row that holds the key alone. -/
def row (t : DataTable) (key : Str) : ℕ × DataTable :=
  match t.myRowMap.lookup key with
  | some i => (i, t)
  | none =>
      (t.myRows.length,
        { t with
          myRows := t.myRows ++ [[key]]
          myRowMap := t.myRowMap ++ [(key, t.myRows.length)] })

/-- The table with a new column. -/
def addColumn (t : DataTable) (name : Str) : DataTable :=
  { t with
    myColumnNames := t.myColumnNames ++ [name]
    myColumnMap := t.myColumnMap ++ [(name, t.myColumnNames.length)] }

/-- Write one cell, padding the row if it is too short, and return what was there. -/
def insertValue (t : DataTable) (coords : Coords) (value : Str) : Str × DataTable :=
  let rows := if t.myRows.length ≤ coords.1 then resize t.myRows (coords.1 + 1) [] else t.myRows
  let row := rows.getD coords.1 []
  let oldValue := if row.length ≤ coords.2 then [] else row.getD coords.2 []
  let row' := if row.length ≤ coords.2 then resize row (coords.2 + 1) [] else row
  (oldValue, { t with myRows := rows.set coords.1 (row'.set coords.2 value) })

section Insert

variable {σ : Type*} (l : Listener σ)

/-- The index of the column `name`; an unknown name gets a new column, and the listener is told. -/
def col (t : DataTable) (s : σ) (name : Str) : Option (ℕ × DataTable × σ) :=
  match t.myColumnMap.lookup name with
  | some i => some (i, t, s)
  | none =>
      (l.onDataTableColumnChanged (t.addColumn name) t.myColumnNames.length [] name s).map
        fun s' => (t.myColumnNames.length, t.addColumn name, s')

def coords (order : EvalOrder) (t : DataTable) (s : σ) (key colName : Str) :
    Option (Coords × DataTable × σ) :=
  match order with
  | .rowFirst =>
      let (r, t) := t.row key
      (t.col l s colName).map fun (c, t, s) => ((r, c), t, s)
  | .colFirst =>
      (t.col l s colName).map fun (c, t, s) =>
        let (r, t) := t.row key
        ((r, c), t, s)

/-- `DataTable::insert`: find or make the cell, store the value, tell the listener. -/
def insert (order : EvalOrder) (t : DataTable) (s : σ) (key colName value : Str) :
    Option (Coords × DataTable × σ) :=
  (t.coords l order s key colName).bind fun (coords, t, s) =>
    let (oldValue, t) := t.insertValue coords value
    (l.onDataTableValueChanged t coords oldValue value s).map fun s => (coords, t, s)

end Insert

/-! ### The text of a table -/

def headerText (t : DataTable) (colDelimiter : Str) : Str :=
  ['#', ' '] ++ join t.myColumnNames colDelimiter

def notesText (t : DataTable) : Str :=
  if t.hasNotes then ['\n', '#', ' '] ++ join t.myTableNotes ['\n', '#', ' '] else []

def rowsText (rows : List (List Str)) (colDelimiter : Str) : Str :=
  rows.flatMap fun row => '\n' :: join row colDelimiter

/-- The full serialisation, without the final newline. -/
def text (t : DataTable) (colDelimiter : Str) : Str :=
  t.headerText colDelimiter ++ t.notesText ++ rowsText t.myRows colDelimiter

/-- What `writeToFile` leaves in its file. -/
def writeToFile (t : DataTable) (colDelimiter : Str) : Str := t.text colDelimiter ++ ['\n']

/-- Every note has a line of its own. -/
theorem notesText_eq (t : DataTable) :
    t.notesText = t.myTableNotes.flatMap fun note => ['\n', '#', ' '] ++ note := by
  rw [notesText, hasNotes]
  by_cases hnotes : t.myTableNotes = []
  · simp [hnotes]
  · rw [← Delimited.append_intercalate _ hnotes]
    simp [hnotes]

/-! ### The representation invariant -/

/-- The keys of the rows, in the order of first insertion. -/
def keys (t : DataTable) : List Str := t.myRowMap.map Prod.fst

/-- The names of the value columns, in the order of first insertion. -/
def cols (t : DataTable) : List Str := t.myColumnMap.map Prod.fst

/-- The two maps number the keys from `0` and the value columns from `1`, without repetition; the
two vectors agree with them, cell `0` of a row being its key; no row is wider than the table. -/
structure Consistent (t : DataTable) : Prop where
  keys_nodup : t.keys.Nodup
  rowMap : t.myRowMap = t.keys.zipIdx
  heads : t.myRows.map List.head? = t.keys.map some
  cols_nodup : t.cols.Nodup
  columnMap : t.myColumnMap = t.cols.zipIdx 1
  columnNames : t.myColumnNames = KEY_COLUMN_NAME :: t.cols
  row_le : ∀ row ∈ t.myRows, row.length ≤ t.numColumns

theorem Consistent.numRows_eq {t : DataTable} (h : t.Consistent) : t.numRows = t.keys.length := by
  simpa [numRows] using congrArg List.length h.heads

theorem Consistent.numColumns_eq {t : DataTable} (h : t.Consistent) :
    t.numColumns = t.cols.length + 1 := by
  rw [numColumns, h.columnNames, List.length_cons]

theorem consistent_empty : Consistent {} where
  keys_nodup := by simp [keys]
  rowMap := rfl
  heads := rfl
  cols_nodup := by simp [cols]
  columnMap := rfl
  columnNames := rfl
  row_le := by simp

/-- The invariant does not speak of the notes. -/
theorem Consistent.addTableNote {t : DataTable} (h : t.Consistent) (note : Str) :
    (t.addTableNote note).Consistent :=
  ⟨h.keys_nodup, h.rowMap, h.heads, h.cols_nodup, h.columnMap, h.columnNames, h.row_le⟩

/-- Every row holds at least its key. -/
theorem Consistent.length_pos {t : DataTable} (h : t.Consistent) {row : List Str}
    (hrow : row ∈ t.myRows) : 0 < row.length := by
  have hmem : row.head? ∈ t.keys.map some := h.heads ▸ List.mem_map_of_mem hrow
  obtain ⟨k, _, hk⟩ := List.mem_map.mp hmem
  cases row with
  | nil => simp at hk
  | cons _ _ => simp

/-- No row is empty, so the loop of `empty` says yes at the first. -/
theorem Consistent.empty_eq {t : DataTable} (h : t.Consistent) : t.empty = true := by
  rw [empty]
  cases hrows : t.myRows with
  | nil => rfl
  | cons row rows =>
      have hlength := @Consistent.length_pos t h row (by simp [hrows])
      have hrow : row ≠ [] := List.length_pos_iff.mp hlength
      simp [hrow]

/-! ### What an insert does to the table -/

/-- The cell of a key and a column name. -/
def coordsOf (t : DataTable) (key colName : Str) : Coords :=
  (t.keys.idxOf key, t.cols.idxOf colName + 1)

/-- The table with a column registered. -/
def withColumn (t : DataTable) (name : Str) : DataTable :=
  if name ∈ t.cols then t else t.addColumn name

/-- The table with a row registered. -/
def withRow (t : DataTable) (key : Str) : DataTable := (t.row key).2

/-- The table after a whole insert. -/
def put (t : DataTable) (key colName value : Str) : DataTable :=
  (((t.withRow key).withColumn colName).insertValue (t.coordsOf key colName) value).2

@[simp] theorem addColumn_cols (t : DataTable) (name : Str) :
    (t.addColumn name).cols = t.cols ++ [name] := by
  simp [cols, addColumn]

@[simp] theorem withColumn_myRows (t : DataTable) (name : Str) :
    (t.withColumn name).myRows = t.myRows := by
  rw [withColumn]; split <;> rfl

@[simp] theorem withColumn_keys (t : DataTable) (name : Str) :
    (t.withColumn name).keys = t.keys := by
  rw [withColumn]; split <;> rfl

@[simp] theorem withColumn_cols (t : DataTable) (name : Str) :
    (t.withColumn name).cols = register t.cols name := by
  rw [withColumn, register]
  split
  · rfl
  · rw [addColumn_cols]

@[simp] theorem withRow_cols (t : DataTable) (key : Str) : (t.withRow key).cols = t.cols := by
  rw [withRow, row]; split <;> rfl

/-- An unknown key gets a row of its own at the end. -/
theorem Consistent.row_eq {t : DataTable} (h : t.Consistent) (key : Str) :
    t.row key = (t.keys.idxOf key, if key ∈ t.keys then t else
      { t with
        myRows := t.myRows ++ [[key]]
        myRowMap := t.myRowMap ++ [(key, t.myRows.length)] }) := by
  have hlookup : t.myRowMap.lookup key = if key ∈ t.keys then some (t.keys.idxOf key) else none := by
    rw [h.rowMap, lookup_zipIdx, Nat.zero_add]
  have hrows : t.myRows.length = t.keys.length := h.numRows_eq
  rw [row, hlookup]
  by_cases hk : key ∈ t.keys
  · simp [hk]
  · simp [hk, hrows, List.idxOf_of_notMem]

theorem Consistent.lookup_col {t : DataTable} (h : t.Consistent) (name : Str) :
    t.myColumnMap.lookup name
      = if name ∈ t.cols then some (t.cols.idxOf name + 1) else none := by
  rw [h.columnMap, lookup_zipIdx]
  simp [Nat.add_comm]

theorem Consistent.withRow_eq {t : DataTable} (h : t.Consistent) (key : Str) :
    t.withRow key = if key ∈ t.keys then t else
      { t with
        myRows := t.myRows ++ [[key]]
        myRowMap := t.myRowMap ++ [(key, t.myRows.length)] } := by
  rw [withRow, h.row_eq]

theorem Consistent.withRow_keys {t : DataTable} (h : t.Consistent) (key : Str) :
    (t.withRow key).keys = register t.keys key := by
  rw [h.withRow_eq, register]
  split
  · rfl
  · simp [keys]

theorem Consistent.withRow_myRows {t : DataTable} (h : t.Consistent) (key : Str) :
    (t.withRow key).myRows = if key ∈ t.keys then t.myRows else t.myRows ++ [[key]] := by
  rw [h.withRow_eq]
  split <;> rfl

/-- Registering a row and registering a column touch different fields. -/
theorem withColumn_withRow (t : DataTable) (key name : Str) :
    (t.withColumn name).withRow key = (t.withRow key).withColumn name := by
  by_cases hc : name ∈ t.cols
  · rw [withColumn, if_pos hc, withColumn, withRow_cols, if_pos hc]
  · rw [withColumn, if_neg hc, withColumn, withRow_cols, if_neg hc]
    simp only [withRow, row, addColumn]
    cases t.myRowMap.lookup key <;> rfl

theorem Consistent.withRow {t : DataTable} (h : t.Consistent) (key : Str) :
    (t.withRow key).Consistent := by
  by_cases hk : key ∈ t.keys
  · rw [h.withRow_eq, if_pos hk]
    exact h
  · have hrows : t.myRows.length = t.keys.length := h.numRows_eq
    have hkeys : (t.withRow key).keys = t.keys ++ [key] := by
      rw [h.withRow_keys, register_of_notMem hk]
    have hcols : (t.withRow key).cols = t.cols := withRow_cols t key
    rw [h.withRow_eq, if_neg hk] at hkeys hcols ⊢
    refine ⟨?_, ?_, ?_, ?_, ?_, ?_, ?_⟩
    · rw [hkeys, ← register_of_notMem hk]
      exact register_nodup h.keys_nodup key
    · rw [hkeys, zipIdx_concat, Nat.zero_add]
      simp only [hrows, ← h.rowMap]
    · rw [hkeys]
      simp [h.heads]
    · rw [hcols]; exact h.cols_nodup
    · rw [hcols]; exact h.columnMap
    · rw [hcols]; exact h.columnNames
    · intro r hr
      rcases List.mem_append.mp hr with hr | hr
      · exact h.row_le r hr
      · rw [List.mem_singleton.mp hr]
        have := h.numColumns_eq
        simp only [numColumns] at this ⊢
        simp [this]

theorem Consistent.addColumn {t : DataTable} (h : t.Consistent) {name : Str}
    (hn : name ∉ t.cols) : (t.addColumn name).Consistent where
  keys_nodup := h.keys_nodup
  rowMap := h.rowMap
  heads := h.heads
  cols_nodup := by
    rw [addColumn_cols, ← register_of_notMem hn]
    exact register_nodup h.cols_nodup name
  columnMap := by
    have hlen : t.myColumnNames.length = 1 + t.cols.length := by
      rw [h.columnNames, List.length_cons, Nat.add_comm]
    rw [addColumn_cols, zipIdx_concat, ← h.columnMap, ← hlen]
    rfl
  columnNames := by
    rw [addColumn_cols]
    show t.myColumnNames ++ [name] = _
    rw [h.columnNames, List.cons_append]
  row_le := by
    intro r hr
    have := h.row_le r hr
    simp only [numColumns, DataTable.addColumn, List.length_append] at this ⊢
    omega

theorem Consistent.withColumn {t : DataTable} (h : t.Consistent) (name : Str) :
    (t.withColumn name).Consistent := by
  by_cases hn : name ∈ t.cols
  · rw [DataTable.withColumn, if_pos hn]; exact h
  · rw [DataTable.withColumn, if_neg hn]; exact h.addColumn hn

/-- `insertValue` at an existing row replaces one row by the row with one cell written. -/
theorem insertValue_snd {t : DataTable} {c : Coords} (hc : c.1 < t.myRows.length) (value : Str) :
    (t.insertValue c value).2
      = { t with myRows := t.myRows.set c.1 (setGrown (t.myRows.getD c.1 []) c.2 value []) } := by
  simp only [insertValue, if_neg (not_le.mpr hc)]
  rfl

theorem Consistent.insertValue {t : DataTable} (h : t.Consistent) {c : Coords}
    (hrow : c.1 < t.numRows) (hpos : 0 < c.2) (hcol : c.2 < t.numColumns) (value : Str) :
    (t.insertValue c value).2.Consistent := by
  have hlen : c.1 < t.myRows.length := hrow
  have hget : t.myRows.getD c.1 [] ∈ t.myRows := by
    rw [List.getD_eq_getElem _ _ hlen]
    exact List.getElem_mem hlen
  rw [insertValue_snd hlen]
  refine ⟨h.keys_nodup, h.rowMap, ?_, h.cols_nodup, h.columnMap, h.columnNames, ?_⟩
  · show (t.myRows.set c.1 _).map List.head? = t.keys.map some
    rw [List.map_set, head?_setGrown hpos (h.length_pos hget), ← h.heads]
    rw [List.getD_eq_getElem _ _ hlen, ← List.map_set, List.set_getElem_self]
  · intro r hr
    rcases List.mem_or_eq_of_mem_set hr with hr | rfl
    · exact h.row_le r hr
    · rw [length_setGrown]
      exact max_le (h.row_le _ hget) hcol

theorem Consistent.coordsOf_fst_lt {t : DataTable} (h : t.Consistent) (key name : Str) :
    (t.coordsOf key name).1 < ((t.withRow key).withColumn name).numRows := by
  rw [((h.withRow key).withColumn name).numRows_eq, withColumn_keys, h.withRow_keys]
  exact idxOf_lt_register _ _

theorem Consistent.coordsOf_snd_lt {t : DataTable} (h : t.Consistent) (key name : Str) :
    (t.coordsOf key name).2 < ((t.withRow key).withColumn name).numColumns := by
  rw [((h.withRow key).withColumn name).numColumns_eq, withColumn_cols, withRow_cols]
  exact Nat.succ_lt_succ (idxOf_lt_register _ _)

/-- **An insert keeps the representation invariant.** -/
theorem Consistent.put {t : DataTable} (h : t.Consistent) (key colName value : Str) :
    (t.put key colName value).Consistent :=
  ((h.withRow key).withColumn colName).insertValue (h.coordsOf_fst_lt key colName)
    (Nat.succ_pos _) (h.coordsOf_snd_lt key colName) value

theorem Consistent.put_keys {t : DataTable} (h : t.Consistent) (key colName value : Str) :
    (t.put key colName value).keys = register t.keys key := by
  rw [DataTable.put, insertValue_snd (h.coordsOf_fst_lt key colName)]
  show ((t.withRow key).withColumn colName).keys = _
  rw [withColumn_keys, h.withRow_keys]

theorem Consistent.put_cols {t : DataTable} (h : t.Consistent) (key colName value : Str) :
    (t.put key colName value).cols = register t.cols colName := by
  rw [DataTable.put, insertValue_snd (h.coordsOf_fst_lt key colName)]
  show ((t.withRow key).withColumn colName).cols = _
  rw [withColumn_cols, withRow_cols]

/-- After an insert there is a value column. -/
theorem Consistent.put_cols_ne_nil {t : DataTable} (h : t.Consistent) (key colName value : Str) :
    (t.put key colName value).cols ≠ [] := by
  rw [h.put_cols]
  exact List.ne_nil_of_mem (mem_register.mpr (Or.inr rfl))

/-- After an insert there is a row. -/
theorem Consistent.numRows_put_pos {t : DataTable} (h : t.Consistent) (key colName value : Str) :
    0 < (t.put key colName value).numRows := by
  rw [(h.put key colName value).numRows_eq, h.put_keys]
  exact (Nat.zero_le _).trans_lt (idxOf_lt_register t.keys key)

section Insert

variable {σ : Type*} (l : Listener σ)

/-- The table a listener sees when it is told about a new column. -/
def seenByColumn (order : EvalOrder) (t : DataTable) (key : Str) : DataTable :=
  match order with
  | .rowFirst => t.withRow key
  | .colFirst => t

/-- The message about the column of an insert, sent for a new column only. -/
def columnMessage (t : DataTable) (s : σ) (name : Str) : Option σ :=
  if name ∈ t.cols then some s
  else l.onDataTableColumnChanged (t.addColumn name) t.myColumnNames.length [] name s

/-- The old value of the cell an insert writes. -/
def oldValue (t : DataTable) (key colName value : Str) : Str :=
  (((t.withRow key).withColumn colName).insertValue (t.coordsOf key colName) value).1

theorem Consistent.col_eq {t : DataTable} (h : t.Consistent) (s : σ) (name : Str) :
    t.col l s name = (t.columnMessage l s name).map
      fun s' => (t.cols.idxOf name + 1, t.withColumn name, s') := by
  have hlen : t.myColumnNames.length = t.cols.length + 1 := by
    rw [h.columnNames, List.length_cons]
  rw [col, h.lookup_col, columnMessage, DataTable.withColumn]
  by_cases hn : name ∈ t.cols
  · simp [hn]
  · simp only [if_neg hn, hlen, List.idxOf_of_notMem hn]

/-- **The two halves of an insert.**  In either order an insert tells the listener about a new
column, then about the value; the table between and after does not depend on the listener. -/
theorem Consistent.insert_eq {t : DataTable} (h : t.Consistent) (order : EvalOrder) (s : σ)
    (key colName value : Str) :
    t.insert l order s key colName value
      = ((seenByColumn order t key).columnMessage l s colName).bind fun s₁ =>
          (l.onDataTableValueChanged (t.put key colName value) (t.coordsOf key colName)
            (t.oldValue key colName value) value s₁).map
              fun s₂ => (t.coordsOf key colName, t.put key colName value, s₂) := by
  cases order with
  | rowFirst =>
      have hrow : t.row key = (t.keys.idxOf key, t.withRow key) := by
        rw [h.row_eq, h.withRow_eq]
      simp only [insert, coords, hrow, (h.withRow key).col_eq, withRow_cols, Option.map_map,
        Option.bind_map]
      rfl
  | colFirst =>
      have hrow : (t.withColumn colName).row key
          = (t.keys.idxOf key, (t.withRow key).withColumn colName) := by
        rw [(h.withColumn colName).row_eq, ← (h.withColumn colName).withRow_eq,
          withColumn_keys, withColumn_withRow]
      simp only [insert, coords, h.col_eq, Option.map_map, Option.bind_map, Function.comp_def, hrow]
      rfl

/-- **The table after an insert**, whatever the listener did and whichever argument of `coords` was
evaluated first. -/
theorem Consistent.insert_table {t : DataTable} (h : t.Consistent) {order : EvalOrder} {s s' : σ}
    {key colName value : Str} {c : Coords} {t' : DataTable}
    (hi : t.insert l order s key colName value = some (c, t', s')) :
    c = t.coordsOf key colName ∧ t' = t.put key colName value := by
  rw [h.insert_eq, Option.bind_eq_some_iff] at hi
  obtain ⟨s₁, _, hs₁⟩ := hi
  obtain ⟨s₂, _, hs₂⟩ := Option.map_eq_some_iff.mp hs₁
  simp only [Prod.mk.injEq] at hs₂
  exact ⟨hs₂.1.symm, hs₂.2.1.symm⟩

/-- **What both callbacks keep, an insert keeps.** -/
theorem insert_keeps {P : σ → Prop}
    (hcolumn : ∀ {t i o n s s'}, P s → l.onDataTableColumnChanged t i o n s = some s' → P s')
    (hvalue : ∀ {t c o n s s'}, P s → l.onDataTableValueChanged t c o n s = some s' → P s')
    {t t' : DataTable} {order : EvalOrder} {s s' : σ} {key colName value : Str} {c : Coords}
    (hs : P s) (hi : t.insert l order s key colName value = some (c, t', s')) : P s' := by
  have hcol : ∀ {t t' : DataTable} {s s' : σ} {i : ℕ}, P s → t.col l s colName = some (i, t', s') →
      P s' := by
    intro t t' s s' i hs hi
    rw [col] at hi
    cases hlookup : t.myColumnMap.lookup colName with
    | some j =>
        simp only [hlookup, Option.some.injEq, Prod.mk.injEq] at hi
        exact hi.2.2 ▸ hs
    | none =>
        simp only [hlookup, Option.map_eq_some_iff, Prod.mk.injEq] at hi
        obtain ⟨s₁, hs₁, _, _, rfl⟩ := hi
        exact hcolumn hs hs₁
  obtain ⟨⟨c₁, t₁, s₁⟩, hcoords, hrest⟩ := Option.bind_eq_some_iff.mp hi
  obtain ⟨s₂, hs₂, heq⟩ := Option.map_eq_some_iff.mp hrest
  simp only [Prod.mk.injEq] at heq
  rw [← heq.2.2]
  refine hvalue ?_ hs₂
  cases order with
  | rowFirst =>
      obtain ⟨⟨i, t₂, s₃⟩, hi₂, heq⟩ := Option.map_eq_some_iff.mp hcoords
      simp only [Prod.mk.injEq] at heq
      exact heq.2.2 ▸ hcol hs hi₂
  | colFirst =>
      obtain ⟨⟨i, t₂, s₃⟩, hi₂, heq⟩ := Option.map_eq_some_iff.mp hcoords
      simp only [Prod.mk.injEq] at heq
      exact heq.2.2 ▸ hcol hs hi₂

end Insert

end DataTable

end StructurePipe.Utility
