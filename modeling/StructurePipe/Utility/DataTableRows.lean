import StructurePipe.Utility.DataTableSupport

/-!
# The rows of a table

A table that is filled by inserts has a row for each key and a column for each name, in the order in
which they were first used.  A row is padded only as far as a cell of it is written, so what is
printed of it ends with the last column that was written under its key, and the columns before that
without a value are blank.

* `rowLength_tableOf` — how far a row is filled;
* `myRows_tableOf`, `text_tableOf` — **the rows after any inserts, and the text;**
* `RowsApart.text_eq`, `RowsApart.fresh` — the text if each key is used for one row;
* `RowsUnder.text_eq` — the text if each row has the first few of the same columns.
-/

namespace StructurePipe.Utility

open FirstInsertion LastWrites StepRuns

/-! ### How far a row is filled -/

/-- The number of columns up to the last of `names`. -/
def width (cols names : List Str) : ℕ := (names.map fun name => cols.idxOf name + 1).foldl max 0

theorem width_concat (cols names : List Str) (name : Str) :
    width cols (names ++ [name]) = max (width cols names) (cols.idxOf name + 1) := by
  rw [width, List.map_append, List.foldl_append]
  rfl

/-- A new column does not change where the others are. -/
theorem width_register {cols names : List Str} (h : ∀ name ∈ names, name ∈ cols) (name : Str) :
    width (register cols name) names = width cols names := by
  have hmap : names.map (fun n => (register cols name).idxOf n + 1)
      = names.map fun n => cols.idxOf n + 1 := by
    refine List.map_congr_left fun n hn => ?_
    rw [idxOf_register_of_mem (h n hn)]
  rw [width, hmap, width]

theorem width_le {cols names : List Str} (h : ∀ name ∈ names, name ∈ cols) :
    width cols names ≤ cols.length := by
  induction names using List.reverseRecOn with
  | nil => exact Nat.zero_le _
  | append_singleton names name ih =>
      have hlt : cols.idxOf name < cols.length := List.idxOf_lt_length_of_mem (h name (by simp))
      rw [width_concat]
      exact max_le (ih fun n hn => h n (List.mem_append_left _ hn)) hlt

/-! ### The rows after any inserts -/

/-- The inserts as writes to pairs of a key and a name. -/
def writesOf (inserts : List Insertion) : List ((Str × Str) × Str) :=
  inserts.map fun i => ((i.key, i.colName), i.value)

/-- The names written under a key. -/
def namesUnder (k : Str) (inserts : List Insertion) : List Str :=
  (inserts.filter fun i => i.key = k).map Insertion.colName

theorem tableOf_concat (inserts : List Insertion) (i : Insertion) :
    tableOf (inserts ++ [i]) = (tableOf inserts).put i.key i.colName i.value := by
  rw [tableOf, List.foldl_append]
  rfl

theorem represents_tableOf (inserts : List Insertion) :
    Represents (tableOf inserts) (gridOf (insertsOf .rowFirst (writesOf inserts))) := by
  induction inserts using List.reverseRecOn with
  | nil => exact represents_empty
  | append_singleton inserts i ih =>
      have hgrid : gridOf (insertsOf .rowFirst (writesOf (inserts ++ [i])))
          = (gridOf (insertsOf .rowFirst (writesOf inserts))).insert i.key i.colName i.value := by
        simp [gridOf, insertsOf, writesOf, TableOp.onGrid]
      rw [tableOf_concat, hgrid]
      exact ih.insert _ _ _

theorem consistent_tableOf (inserts : List Insertion) : (tableOf inserts).Consistent :=
  (represents_tableOf inserts).consistent

theorem keys_tableOf (inserts : List Insertion) :
    (tableOf inserts).keys = registerAll (inserts.map Insertion.key) := by
  induction inserts using List.reverseRecOn with
  | nil => rfl
  | append_singleton inserts i ih =>
      rw [tableOf_concat, (consistent_tableOf inserts).put_keys, ih, List.map_append,
        List.map_singleton, registerAll_concat]

theorem cols_tableOf (inserts : List Insertion) :
    (tableOf inserts).cols = registerAll (inserts.map Insertion.colName) := by
  induction inserts using List.reverseRecOn with
  | nil => rfl
  | append_singleton inserts i ih =>
      rw [tableOf_concat, (consistent_tableOf inserts).put_cols, ih, List.map_append,
        List.map_singleton, registerAll_concat]

theorem notes_tableOf (inserts : List Insertion) : (tableOf inserts).myTableNotes = [] := by
  induction inserts using List.reverseRecOn with
  | nil => rfl
  | append_singleton inserts i ih =>
      rw [tableOf_concat, (consistent_tableOf inserts).put_notes, ih]

theorem mem_cols_of_mem_namesUnder {inserts : List Insertion} {k name : Str}
    (h : name ∈ namesUnder k inserts) : name ∈ (tableOf inserts).cols := by
  rw [cols_tableOf, mem_registerAll]
  obtain ⟨i, hi, rfl⟩ := List.mem_map.mp h
  exact List.mem_map_of_mem (List.mem_of_mem_filter hi)

/-- A cell holds what was last written to it. -/
theorem cell_tableOf (inserts : List Insertion) (k name : Str) :
    (tableOf inserts).cell ((tableOf inserts).coordsOf k name)
      = (last (k, name) (writesOf inserts)).getD [] := by
  have hrep := represents_tableOf inserts
  rw [← gridOf_insertsOf .rowFirst]
  cases hvalue : (gridOf (insertsOf .rowFirst (writesOf inserts))).value k name with
  | none => exact hrep.blank k name hvalue
  | some v => rw [DataTable.cell_eq, hrep.stored k name v hvalue]

/-- The number of cells in the row of a key. -/
def rowLength (t : DataTable) (k : Str) : ℕ := (t.myRows.getD (t.keys.idxOf k) []).length

theorem rowLength_of_notMem {t : DataTable} (ht : t.Consistent) {k : Str} (hk : k ∉ t.keys) :
    rowLength t k = 0 := by
  have hrows : t.myRows.length = t.keys.length := ht.numRows_eq
  rw [rowLength, List.idxOf_of_notMem hk, List.getD_eq_default _ _ hrows.le, List.length_nil]

theorem rowLength_withRow {t : DataTable} (ht : t.Consistent) (k : Str) :
    ((t.withRow k).myRows.getD (t.keys.idxOf k) []).length = max 1 (rowLength t k) := by
  have hrows : t.myRows.length = t.keys.length := ht.numRows_eq
  rw [ht.withRow_myRows]
  split
  · next hk =>
      have hlt : t.keys.idxOf k < t.myRows.length := hrows ▸ List.idxOf_lt_length_of_mem hk
      have hpos : 0 < rowLength t k := by
        rw [rowLength, List.getD_eq_getElem _ _ hlt]
        exact ht.length_pos (List.getElem_mem hlt)
      exact (max_eq_right hpos).symm
  · next hk =>
      rw [rowLength_of_notMem ht hk, List.idxOf_of_notMem hk, ← hrows]
      simp

/-- **What an insert does to the length of a row**, where a row that is not there counts as one with
its key alone. -/
theorem rowLength_put {t : DataTable} (ht : t.Consistent) (key colName value k : Str) :
    max 1 (rowLength (t.put key colName value) k)
      = if k = key then max (max 1 (rowLength t k)) (t.cols.idxOf colName + 2)
        else max 1 (rowLength t k) := by
  have hrows : t.myRows.length = t.keys.length := ht.numRows_eq
  have hlt := ht.idxOf_lt_withRow key
  by_cases hkey : k = key
  · subst hkey
    rw [if_pos rfl, rowLength, ht.put_keys, idxOf_register_self, ht.put_myRows, getD_set _ hlt,
      if_pos rfl, length_setGrown, rowLength_withRow ht]
    omega
  · rw [if_neg hkey]
    by_cases hk : k ∈ t.keys
    · have hne : t.keys.idxOf key ≠ t.keys.idxOf k := fun h => hkey (idxOf_inj hk h.symm)
      have hlen : t.keys.idxOf k < t.myRows.length := hrows ▸ List.idxOf_lt_length_of_mem hk
      rw [rowLength, ht.put_keys, idxOf_register_of_mem hk, ht.put_myRows, getD_set _ hlt,
        if_neg hne, ht.withRow_myRows, rowLength]
      split
      · rfl
      · rw [List.getD_append _ _ _ _ hlen]
    · have hput : k ∉ (t.put key colName value).keys := by
        rw [ht.put_keys, mem_register]
        exact fun h => h.elim hk hkey
      rw [rowLength_of_notMem (ht.put _ _ _) hput, rowLength_of_notMem ht hk]

/-- **A row is filled up to the last column written under its key.** -/
theorem rowLength_tableOf (inserts : List Insertion) (k : Str) :
    max 1 (rowLength (tableOf inserts) k)
      = 1 + width (tableOf inserts).cols (namesUnder k inserts) := by
  induction inserts using List.reverseRecOn with
  | nil => rfl
  | append_singleton inserts i ih =>
      have ht := consistent_tableOf inserts
      have hnames : ∀ name ∈ namesUnder k inserts, name ∈ (tableOf inserts).cols :=
        fun name => mem_cols_of_mem_namesUnder
      rw [tableOf_concat, rowLength_put ht, ht.put_cols, ih]
      by_cases hkey : k = i.key
      · have hunder : namesUnder k (inserts ++ [i]) = namesUnder k inserts ++ [i.colName] := by
          simp [namesUnder, hkey]
        rw [if_pos hkey, hunder, width_concat, width_register hnames, idxOf_register_self]
        omega
      · have hunder : namesUnder k (inserts ++ [i]) = namesUnder k inserts := by
          simp [namesUnder, Ne.symm hkey]
        rw [if_neg hkey, hunder, width_register hnames]

/-- The cells of a row: the columns up to the last that is written, and blanks between. -/
def rowCells (inserts : List Insertion) (k : Str) : List Str :=
  let cols := registerAll (inserts.map Insertion.colName)
  (cols.take (width cols (namesUnder k inserts))).map fun name =>
    (last (k, name) (writesOf inserts)).getD []

/-- **The rows after any inserts.** -/
theorem myRows_tableOf (inserts : List Insertion) :
    (tableOf inserts).myRows
      = (registerAll (inserts.map Insertion.key)).map fun k => k :: rowCells inserts k := by
  have ht := consistent_tableOf inserts
  have hrows : (tableOf inserts).myRows.length = (tableOf inserts).keys.length := ht.numRows_eq
  rw [← keys_tableOf]
  refine List.ext_getElem (by rw [List.length_map, hrows]) fun i hi hi' => ?_
  rw [List.getElem_map]
  have hkeys : i < (tableOf inserts).keys.length := hrows ▸ hi
  set k := (tableOf inserts).keys[i] with hk
  have hidx : (tableOf inserts).keys.idxOf k = i := ht.keys_nodup.idxOf_getElem i hkeys
  have hrow : (tableOf inserts).myRows.getD ((tableOf inserts).keys.idxOf k) []
      = (tableOf inserts).myRows[i] := by
    rw [hidx, List.getD_eq_getElem _ _ hi]
  have hhead : (tableOf inserts).myRows[i].head? = some k := by
    have hheads := List.getElem_of_eq ht.heads (by simpa using hi)
    simpa using hheads
  obtain ⟨rest, hrest⟩ : ∃ rest, (tableOf inserts).myRows[i] = k :: rest := by
    cases hcells : (tableOf inserts).myRows[i] with
    | nil => simp [hcells] at hhead
    | cons a rest => exact ⟨rest, by rw [hcells, List.head?_cons] at hhead; rw [Option.some.inj hhead]⟩
  have hlength := rowLength_tableOf inserts k
  rw [rowLength, hrow, hrest, List.length_cons] at hlength
  have hwidth : width (tableOf inserts).cols (namesUnder k inserts)
      ≤ (tableOf inserts).cols.length := width_le fun name => mem_cols_of_mem_namesUnder
  rw [hrest, rowCells, ← cols_tableOf]
  refine congrArg (k :: ·) (List.ext_getElem ?_ fun j hj hj' => ?_)
  · rw [List.length_map, List.length_take]
    omega
  · have hcol : j < (tableOf inserts).cols.length := by
      rw [List.length_map, List.length_take] at hj'
      omega
    have hcoords : (tableOf inserts).coordsOf k (tableOf inserts).cols[j] = (i, j + 1) := by
      rw [DataTable.coordsOf, hidx, ht.cols_nodup.idxOf_getElem j hcol]
    have hcell : (tableOf inserts).cell (i, j + 1) = rest[j] := by
      rw [DataTable.cell, ← hidx, hrow, hrest]
      simp [hj]
    rw [List.getElem_map, List.getElem_take, ← hcell, ← hcoords, cell_tableOf]

theorem text_tableOf (inserts : List Insertion) (d : Str) :
    (tableOf inserts).text d
      = ['#', ' '] ++ join (KEY_COLUMN_NAME :: registerAll (inserts.map Insertion.colName)) d
        ++ (registerAll (inserts.map Insertion.key)).flatMap fun k =>
            '\n' :: join (k :: rowCells inserts k) d := by
  have hnotes : (tableOf inserts).notesText = [] := by
    rw [DataTable.notesText, DataTable.hasNotes, notes_tableOf]
    rfl
  rw [DataTable.text, DataTable.headerText, hnotes, List.append_nil,
    (consistent_tableOf inserts).columnNames, cols_tableOf, DataTable.rowsText, myRows_tableOf,
    List.flatMap_map]

/-! ### A row after the other -/

/-- A row: its key and its cells. -/
abbrev Row := Str × List (Str × Str)

/-- The inserts that write one row after the other. -/
def rowInserts (order : EvalOrder) (rows : List Row) : List Insertion :=
  rows.flatMap fun r => r.2.map fun cell => ⟨order, r.1, cell.1, cell.2⟩

theorem rowInserts_concat (order : EvalOrder) (rows : List Row) (r : Row) :
    rowInserts order (rows ++ [r])
      = rowInserts order rows ++ r.2.map fun cell => ⟨order, r.1, cell.1, cell.2⟩ := by
  simp [rowInserts]

/-- A row without cells is not inserted. -/
theorem rowInserts_filter (order : EvalOrder) (rows : List Row) :
    rowInserts order (rows.filter fun r => !r.2.isEmpty) = rowInserts order rows := by
  induction rows with
  | nil => rfl
  | cons r rows ih =>
      have hcons : rowInserts order (r :: rows) = rowInserts order [r] ++ rowInserts order rows := by
        simp [rowInserts]
      cases hcells : r.2 with
      | nil =>
          rw [List.filter_cons_of_neg (by simp [hcells]), ih, hcons]
          simp [rowInserts, hcells]
      | cons cell cells =>
          have hcons' : rowInserts order (r :: rows.filter fun r => !r.2.isEmpty)
              = rowInserts order [r] ++ rowInserts order (rows.filter fun r => !r.2.isEmpty) := by
            simp [rowInserts]
          rw [List.filter_cons_of_pos (by simp [hcells]), hcons', ih, hcons]

/-- Each row has a key of its own and cells under different names, at least one. -/
structure RowsApart (rows : List Row) : Prop where
  keys_nodup : (rows.map Prod.fst).Nodup
  cells : ∀ r ∈ rows, r.2 ≠ [] ∧ (r.2.map Prod.fst).Nodup

/-- The names under which the rows have cells, one row after the other. -/
def cellNames (rows : List Row) : List Str := rows.flatMap fun r => r.2.map Prod.fst

theorem colNames_rowInserts (order : EvalOrder) (rows : List Row) :
    (rowInserts order rows).map Insertion.colName = cellNames rows := by
  simp only [rowInserts, cellNames, List.map_flatMap, List.map_map]
  rfl

theorem writesOf_rowInserts (order : EvalOrder) (rows : List Row) :
    writesOf (rowInserts order rows) = rows.flatMap fun r => rowWrites r.1 r.2 := by
  simp only [writesOf, rowInserts, rowWrites, List.map_flatMap, List.map_map]
  rfl

/-- **The keys of the rows.** -/
theorem RowsApart.keys_eq {rows : List Row} (h : RowsApart rows) (order : EvalOrder) :
    registerAll ((rowInserts order rows).map Insertion.key) = rows.map Prod.fst := by
  induction rows using List.reverseRecOn with
  | nil => rfl
  | append_singleton rows r ih =>
      obtain ⟨hne, _⟩ := h.cells r (by simp)
      have hkeys : (r.2.map fun cell => (⟨order, r.1, cell.1, cell.2⟩ : Insertion)).map Insertion.key
          = List.replicate r.2.length r.1 := by
        rw [List.map_map, List.eq_replicate_iff]
        exact ⟨by simp, fun k hk => by obtain ⟨cell, _, rfl⟩ := List.mem_map.mp hk; rfl⟩
      have hnodup := h.keys_nodup
      rw [List.map_append, List.map_singleton, List.nodup_append] at hnodup
      have hnew : r.1 ∉ rows.map Prod.fst := fun hmem =>
        hnodup.2.2 _ hmem _ (List.mem_singleton_self _) rfl
      have hbefore : RowsApart rows :=
        ⟨hnodup.1, fun r' hr' => h.cells r' (List.mem_append_left _ hr')⟩
      rw [rowInserts_concat, List.map_append, hkeys, registerAll_append_replicate
        (List.length_pos_iff.mpr hne), ih hbefore, register_of_notMem hnew, List.map_append,
        List.map_singleton]

/-- The names written under the key of a row are those of its cells. -/
theorem RowsApart.namesUnder_eq {rows : List Row} (h : RowsApart rows) (order : EvalOrder) {r : Row}
    (hr : r ∈ rows) : namesUnder r.1 (rowInserts order rows) = r.2.map Prod.fst := by
  have hpart : ∀ (k : Str) (r : Row),
      namesUnder k (r.2.map fun cell => (⟨order, r.1, cell.1, cell.2⟩ : Insertion))
        = if r.1 = k then r.2.map Prod.fst else [] := by
    intro k r
    rw [namesUnder, List.filter_map, List.map_map]
    split
    · next hk => simp [Function.comp_def, hk]
    · next hk => simp [Function.comp_def, hk]
  have happend : ∀ (k : Str) (inserts later : List Insertion),
      namesUnder k (inserts ++ later) = namesUnder k inserts ++ namesUnder k later := by
    intro k inserts later
    rw [namesUnder, List.filter_append, List.map_append]
    rfl
  have hother : ∀ {rows : List Row} {k : Str}, k ∉ rows.map Prod.fst →
      namesUnder k (rowInserts order rows) = [] := by
    intro rows k hk
    rw [namesUnder, List.map_eq_nil_iff, List.filter_eq_nil_iff]
    intro i hi
    obtain ⟨r, hr, hcell⟩ := List.mem_flatMap.mp hi
    obtain ⟨cell, _, rfl⟩ := List.mem_map.mp hcell
    have hne : r.1 ≠ k := fun heq => hk (heq ▸ List.mem_map_of_mem hr)
    simpa using hne
  obtain ⟨before, after, rfl⟩ := List.append_of_mem hr
  have hnodup := h.keys_nodup
  rw [List.map_append, List.map_cons, List.nodup_append, List.nodup_cons] at hnodup
  have hbefore : r.1 ∉ before.map Prod.fst := fun hmem =>
    hnodup.2.2 _ hmem _ List.mem_cons_self rfl
  have hsplit : rowInserts order (before ++ r :: after) = rowInserts order before
      ++ ((r.2.map fun cell => ⟨order, r.1, cell.1, cell.2⟩) ++ rowInserts order after) := by
    simp [rowInserts]
  rw [hsplit, happend, happend, hother hbefore, hother hnodup.2.1.1, hpart, if_pos rfl,
    List.nil_append, List.append_nil]

/-- What a row shows: the columns up to the last that it has a cell under, and blanks between. -/
def shownUnder (cols : List Str) (cells : List (Str × Str)) : List Str :=
  (cols.take (width cols (cells.map Prod.fst))).map fun name => (last name cells).getD []

theorem RowsApart.rowCells_eq {rows : List Row} (h : RowsApart rows) (order : EvalOrder) {r : Row}
    (hr : r ∈ rows) :
    rowCells (rowInserts order rows) r.1 = shownUnder (registerAll (cellNames rows)) r.2 := by
  have hkeys : rows.Pairwise fun r r' => r.1 ≠ r'.1 := List.pairwise_map.mp h.keys_nodup
  have hvalue : ∀ name, last (r.1, name) (writesOf (rowInserts order rows)) = last name r.2 := by
    intro name
    rw [writesOf_rowInserts]
    exact last_flatMap_rowWrites hkeys hr name
  rw [rowCells, shownUnder]
  simp only [colNames_rowInserts, h.namesUnder_eq order hr, hvalue]

/-- **The text of a table with a row for each key.** -/
theorem RowsApart.text_eq {rows : List Row} (h : RowsApart rows) (order : EvalOrder) (d : Str) :
    (tableOf (rowInserts order rows)).text d
      = ['#', ' '] ++ join (KEY_COLUMN_NAME :: registerAll (cellNames rows)) d
        ++ rows.flatMap fun r =>
            '\n' :: join (r.1 :: shownUnder (registerAll (cellNames rows)) r.2) d := by
  rw [text_tableOf, colNames_rowInserts, h.keys_eq, List.flatMap_map]
  refine congrArg _ (List.flatMap_congr fun r hr => ?_)
  rw [h.rowCells_eq order hr]

/-- No cell is overwritten. -/
theorem RowsApart.fresh {rows : List Row} (h : RowsApart rows) (order : EvalOrder) :
    Fresh (rowInserts order rows) := by
  rw [Fresh, rowInserts, List.map_flatMap, List.nodup_flatMap]
  refine ⟨fun r hr => ?_, ?_⟩
  · have hnodup := (h.cells r hr).2
    rw [List.map_map]
    exact (List.Nodup.of_map Prod.fst hnodup).map_on fun a ha b hb hab =>
      List.inj_on_of_nodup_map hnodup ha hb (Prod.mk.inj hab).2
  · refine (List.pairwise_map.mp h.keys_nodup).imp fun hne => ?_
    intro p hp hp'
    obtain ⟨i, hi, rfl⟩ := List.mem_map.mp hp
    obtain ⟨cell, _, rfl⟩ := List.mem_map.mp hi
    obtain ⟨j, hj, heq⟩ := List.mem_map.mp hp'
    obtain ⟨cell', _, rfl⟩ := List.mem_map.mp hj
    exact hne (Prod.mk.inj heq).1.symm

/-! ### Rows that have the first few of the same columns -/

/-- Each row has a key of its own and cells under the first few of `names`, at least one. -/
structure RowsUnder (names : List Str) (rows : List Row) : Prop where
  names_nodup : names.Nodup
  keys_nodup : (rows.map Prod.fst).Nodup
  cells : ∀ r ∈ rows, r.2 ≠ [] ∧ r.2.map Prod.fst <+: names

theorem RowsUnder.apart {names : List Str} {rows : List Row} (h : RowsUnder names rows) :
    RowsApart rows :=
  ⟨h.keys_nodup, fun r hr => ⟨(h.cells r hr).1, h.names_nodup.sublist (h.cells r hr).2.sublist⟩⟩

theorem RowsUnder.of_concat {names : List Str} {rows : List Row} {r : Row}
    (h : RowsUnder names (rows ++ [r])) : RowsUnder names rows :=
  ⟨h.names_nodup, by simpa using (List.map_append ▸ h.keys_nodup).of_append_left,
    fun r' hr' => h.cells r' (List.mem_append_left _ hr')⟩

/-- The largest number of cells. -/
def cellsMax (rows : List Row) : ℕ := (rows.map fun r => r.2.length).foldl max 0

theorem cellsMax_concat (rows : List Row) (r : Row) :
    cellsMax (rows ++ [r]) = max (cellsMax rows) r.2.length := by
  rw [cellsMax, List.map_append, List.foldl_append]
  rfl

theorem le_cellsMax {rows : List Row} {r : Row} (hr : r ∈ rows) : r.2.length ≤ cellsMax rows := by
  induction rows using List.reverseRecOn with
  | nil => exact absurd hr List.not_mem_nil
  | append_singleton rows last ih =>
      rw [cellsMax_concat]
      rcases List.mem_append.mp hr with hr | hr
      · exact (ih hr).trans (le_max_left _ _)
      · exact List.mem_singleton.mp hr ▸ le_max_right _ _

/-- **The columns of the rows.** -/
theorem RowsUnder.cols_eq {names : List Str} {rows : List Row} (h : RowsUnder names rows) :
    registerAll (cellNames rows) = names.take (cellsMax rows) := by
  induction rows using List.reverseRecOn with
  | nil => rfl
  | append_singleton rows r ih =>
      obtain ⟨_, hprefix⟩ := h.cells r (by simp)
      have hcols : r.2.map Prod.fst = names.take r.2.length := by
        rw [← List.length_map (f := Prod.fst)]
        exact List.prefix_iff_eq_take.mp hprefix
      have hnames : cellNames (rows ++ [r]) = cellNames rows ++ r.2.map Prod.fst := by
        simp [cellNames]
      rw [hnames, hcols, registerAll_append_take h.names_nodup (ih h.of_concat), cellsMax_concat]

theorem width_take {names : List Str} (h : names.Nodup) {m n : ℕ} (hnm : n ≤ m)
    (hm : n ≤ names.length) : width (names.take m) (names.take n) = n := by
  induction n with
  | zero => rfl
  | succ n ih =>
      have hlt : n < (names.take m).length := by
        rw [List.length_take]
        omega
      have hidx : (names.take m).idxOf names[n] = n := by
        have hget : (names.take m)[n] = names[n] := by simp
        rw [← hget]
        exact (h.sublist (List.take_sublist _ _)).idxOf_getElem n hlt
      rw [List.take_succ_eq_append_getElem hm, width_concat, ih (by omega) (by omega), hidx]
      omega

/-- A row shows the cells it was written with. -/
theorem RowsUnder.shownUnder_eq {names : List Str} {rows : List Row} (h : RowsUnder names rows)
    {r : Row} (hr : r ∈ rows) : shownUnder (names.take (cellsMax rows)) r.2 = r.2.map Prod.snd := by
  obtain ⟨_, hprefix⟩ := h.cells r hr
  have hlength : r.2.length ≤ names.length := by simpa using hprefix.length_le
  have htake : r.2.map Prod.fst = names.take r.2.length := by
    simpa using List.prefix_iff_eq_take.mp hprefix
  have hnodup : (r.2.map Prod.fst).Nodup := h.names_nodup.sublist hprefix.sublist
  have hvalue : ∀ cell ∈ r.2, (last cell.1 r.2).getD [] = cell.2 := by
    intro cell hcell
    rw [(last_eq_some_iff hnodup).mpr hcell, Option.getD_some]
  rw [shownUnder, htake, width_take h.names_nodup (le_cellsMax hr) hlength, List.take_take,
    min_eq_left (le_cellsMax hr), ← htake, List.map_map]
  exact List.map_congr_left hvalue

/-- **The text of a table whose rows have the first few of the same columns.** -/
theorem RowsUnder.text_eq {names : List Str} {rows : List Row} (h : RowsUnder names rows)
    (order : EvalOrder) (d : Str) :
    (tableOf (rowInserts order rows)).text d
      = ['#', ' '] ++ join (KEY_COLUMN_NAME :: names.take (cellsMax rows)) d
        ++ rows.flatMap fun r => '\n' :: join (r.1 :: r.2.map Prod.snd) d := by
  rw [h.apart.text_eq, h.cols_eq]
  refine congrArg _ (List.flatMap_congr fun r hr => ?_)
  rw [h.shownUnder_eq hr]

/-! ### Rows that begin with the same columns -/

theorem width_append {cols more : List Str} (hnodup : (cols ++ more).Nodup) {names : List Str}
    (hnames : ∀ name ∈ names, name ∉ cols) :
    width (cols ++ more) (cols ++ names) = cols.length + width more names := by
  induction names using List.reverseRecOn with
  | nil =>
      have htake := width_take hnodup (m := (cols ++ more).length) (n := cols.length) (by simp) (by simp)
      rw [List.take_length, List.take_left] at htake
      rw [List.append_nil, htake]
      rfl
  | append_singleton names name ih =>
      have hidx : (cols ++ more).idxOf name = cols.length + more.idxOf name :=
        List.idxOf_append_of_notMem (hnames name (by simp))
      rw [← List.append_assoc, width_concat, width_concat, hidx,
        ih fun n hn => hnames n (List.mem_append_left _ hn)]
      omega

/-- **What such a row shows**: the cells it begins with, and what it shows under the other columns. -/
theorem shownUnder_append {cols more : List Str} (hnodup : (cols ++ more).Nodup)
    {cells later : List (Str × Str)} (hcells : cells.map Prod.fst = cols)
    (hlater : ∀ cell ∈ later, cell.1 ∉ cols) :
    shownUnder (cols ++ more) (cells ++ later) = cells.map Prod.snd ++ shownUnder more later := by
  obtain ⟨hcols, _, hapart⟩ := List.nodup_append.mp hnodup
  have hnames : ∀ name ∈ later.map Prod.fst, name ∉ cols := by
    intro name hname
    obtain ⟨cell, hcell, rfl⟩ := List.mem_map.mp hname
    exact hlater cell hcell
  have hfirst : ∀ cell ∈ cells, (last cell.1 (cells ++ later)).getD [] = cell.2 := by
    intro cell hcell
    have hname : cell.1 ∈ cols := hcells ▸ List.mem_map_of_mem hcell
    have hnone : last cell.1 later = none := by
      rw [Option.eq_none_iff_forall_ne_some]
      exact fun v hv => hlater _ (mem_of_last hv) hname
    rw [last_append, hnone, Option.none_or,
      (last_eq_some_iff (hcells ▸ hcols)).mpr hcell, Option.getD_some]
  have hsecond : ∀ name ∈ more, last name (cells ++ later) = last name later := by
    intro name hname
    have hnone : last name cells = none := by
      rw [Option.eq_none_iff_forall_ne_some]
      intro v hv
      have hmem : name ∈ cols := hcells ▸ List.mem_map_of_mem (mem_of_last hv)
      exact hapart name hmem name hname rfl
    rw [last_append, hnone, Option.or_none]
  rw [shownUnder, List.map_append, hcells, width_append hnodup hnames, List.take_length_add_append,
    List.map_append, shownUnder]
  congr 1
  · rw [← hcells, List.map_map]
    exact List.map_congr_left hfirst
  · refine List.map_congr_left fun name hname => ?_
    rw [hsecond name (List.mem_of_mem_take hname)]

/-! ### The summary file -/

/-- The text of a table with these rows: the columns, then a line for each row. -/
def summaryOf (rows : List Row) : Str :=
  let cols := registerAll (cellNames rows)
  ['#', ' '] ++ join (KEY_COLUMN_NAME :: cols) [' ']
    ++ rows.flatMap fun r => '\n' :: join (r.1 :: shownUnder cols r.2) [' ']

/-- **What the summary file holds** after any number of runs that each write one row after the other. -/
theorem exists_summarised {σ : Type*} {filename : Str} (hfilename : filename ≠ []) (disk : Disk)
    (order : EvalOrder) {rows : σ → List Row} {events : σ → List SupportEvent} {runs : List σ}
    {last : σ} (hrows : ∀ s ∈ runs ++ [last], RowsApart (rows s))
    (hevents : ∀ s ∈ runs ++ [last], events s = runEvents (rowInserts order (rows s))) :
    ∃ support, run DataTableSupport.step { myFilename := filename, disk := disk }
        ((runs ++ [last]).flatMap events) = some support ∧
      ((∀ previous ∈ runs.getLast?,
          (summaryOf (rows previous)).length < (summaryOf (rows last)).length) →
        support.file = some (summaryOf (rows last))) := by
  have htext : ∀ s ∈ runs ++ [last],
      (tableOf (rowInserts order (rows s))).text [' '] = summaryOf (rows s) :=
    fun s hs => (hrows s hs).text_eq order [' ']
  have hidle : DataTableSupport.Idle none { myFilename := filename, disk := disk } :=
    ⟨⟨hfilename, rfl, rfl⟩, rfl, fun w hw => absurd hw (by simp), rfl⟩
  have hfresh : ∀ inserts ∈ runs.map fun s => rowInserts order (rows s), Fresh inserts := by
    intro inserts hinserts
    obtain ⟨s, hs, rfl⟩ := List.mem_map.mp hinserts
    exact (hrows s (List.mem_append_left _ hs)).fresh order
  obtain ⟨s₀, hs₀, hidle₀⟩ := hidle.runs (runs.map fun s => rowInserts order (rows s)) hfresh
  rw [List.flatMap_map] at hs₀
  obtain ⟨s₁, s₂, w, hs₁, _, hs₂, hw, _, hdisk, _⟩ := hidle₀.run ((hrows last (by simp)).fresh order)
  refine ⟨s₂, ?_, fun hprevious => ?_⟩
  · rw [List.flatMap_congr hevents, List.flatMap_append, run_append, hs₀, Option.bind_some,
      List.flatMap_singleton, runEvents, run_append, hs₁, Option.bind_some, run_cons, hs₂]
    rfl
  · have hleft : (leftover ((runs.map fun s => rowInserts order (rows s)).getLast?.map fun inserts =>
        ((tableOf inserts).text [' ']).length)).drop (summaryOf (rows last)).length = [] := by
      rw [drop_leftover_eq_nil_iff, List.getLast?_map, Option.map_map]
      intro m hm
      obtain ⟨previous, hprev, rfl⟩ := Option.map_eq_some_iff.mp hm
      rw [Function.comp_apply, htext previous (List.mem_append_left _ (List.mem_of_getLast? hprev))]
      exact hprevious previous hprev
    rw [DataTableSupport.file, hw]
    rw [htext last (by simp), hleft, List.append_nil] at hdisk
    exact hdisk

end StructurePipe.Utility
