import StructurePipe.Utility.DataTableWriter

/-!
# The text of a table in two parts

An incremental write relies on the text of a table being the text up to a position followed by what
comes behind it.  This file says which text that is, and which changes of the table leave it alone.

* `textUpTo_append_pending` — the two parts make up the text;
* `SameHead.textUpTo_of_prefix` — new rows leave the first part alone;
* `textUpTo_insertValue` — so does a cell written at or behind the position.
-/

namespace StructurePipe.Utility

namespace DataTable

/-- The text of a table up to a position: the rows above it, then the cells before it in its row. -/
def textUpTo (t : DataTable) (colDelimiter : Str) (c : Coords) : Str :=
  t.headerText colDelimiter ++ t.notesText ++ rowsText (t.myRows.take c.1) colDelimiter
    ++ '\n' :: join ((t.myRows.getD c.1 []).take c.2) colDelimiter

/-- A row printed in two parts. -/
theorem join_take_append_drop {row : List Str} {n : ℕ} (hpos : 0 < n) (hlt : n < row.length)
    (d : Str) : join (row.take n) d ++ (d ++ join (row.drop n) d) = join row d := by
  have htake : row.take n ≠ [] := by
    rw [← List.length_pos_iff, List.length_take]; omega
  have hdrop : row.drop n ≠ [] := by
    rw [← List.length_pos_iff, List.length_drop]; omega
  calc join (row.take n) d ++ (d ++ join (row.drop n) d)
      = join (row.take n ++ row.drop n) d := by
        rw [← List.append_assoc, join, join, join, TextLines.intercalate_append _ htake hdrop]
    _ = join row d := by rw [List.take_append_drop]

/-- The columns and the notes of two tables are the same. -/
structure SameHead (t t' : DataTable) : Prop where
  columnNames : t'.myColumnNames = t.myColumnNames
  notes : t'.myTableNotes = t.myTableNotes

theorem SameHead.headerText {t t' : DataTable} (h : t.SameHead t') (d : Str) :
    t'.headerText d = t.headerText d := by
  rw [DataTable.headerText, DataTable.headerText, h.columnNames]

theorem SameHead.notesText {t t' : DataTable} (h : t.SameHead t') :
    t'.notesText = t.notesText := by
  rw [DataTable.notesText, DataTable.notesText, hasNotes, hasNotes, h.notes]

/-- **New rows leave the text up to a position in the old ones alone.** -/
theorem SameHead.textUpTo_of_prefix {t t' : DataTable} (h : t.SameHead t')
    (hrows : t.myRows <+: t'.myRows) {c : Coords} (hc : c.1 < t.numRows) (d : Str) :
    t'.textUpTo d c = t.textUpTo d c := by
  obtain ⟨more, hmore⟩ := hrows
  have hlt : c.1 < t.myRows.length := hc
  have htake : t'.myRows.take c.1 = t.myRows.take c.1 := by
    rw [← hmore, List.take_append_of_le_length hlt.le]
  have hrow : t'.myRows.getD c.1 [] = t.myRows.getD c.1 [] := by
    rw [← hmore, List.getD_append _ _ _ _ hlt]
  rw [textUpTo, textUpTo, h.headerText, h.notesText, htake, hrow]

/-- **A cell written at or behind a position leaves the text up to it alone.** -/
theorem textUpTo_insertValue {t : DataTable} {c n : Coords} (hc : c.1 < t.numRows)
    (hle : ¬ c.lt n) (hn : n.2 ≤ (t.myRows.getD n.1 []).length) (value d : Str) :
    (t.insertValue c value).2.textUpTo d n = t.textUpTo d n := by
  have hlen : c.1 < t.myRows.length := hc
  have hcase : n.1 < c.1 ∨ c.1 = n.1 ∧ n.2 ≤ c.2 := by
    simp only [Coords.lt] at hle
    omega
  have htake : (t.insertValue c value).2.myRows.take n.1 = t.myRows.take n.1 := by
    rw [insertValue_snd hlen]
    exact List.take_set_of_le (by omega)
  have hrow : ((t.insertValue c value).2.myRows.getD n.1 []).take n.2
      = (t.myRows.getD n.1 []).take n.2 := by
    rw [insertValue_snd hlen]
    show ((t.myRows.set c.1 _).getD n.1 []).take n.2 = _
    rw [FirstInsertion.getD_set _ hlen]
    rcases hcase with hlt | ⟨heq, hle⟩
    · rw [if_neg (by omega)]
    · rw [if_pos heq, heq]
      exact FirstInsertion.take_setGrown hle hn _ _
  have hhead : t.SameHead (t.insertValue c value).2 := by
    rw [insertValue_snd hlen]
    exact ⟨rfl, rfl⟩
  rw [textUpTo, textUpTo, hhead.headerText, hhead.notesText, htake, hrow]

/-- A row only grows when one of its cells is written. -/
theorem le_length_insertValue {t : DataTable} {c : Coords} (hc : c.1 < t.numRows) (i : ℕ)
    (value : Str) :
    (t.myRows.getD i []).length ≤ ((t.insertValue c value).2.myRows.getD i []).length := by
  have hlen : c.1 < t.myRows.length := hc
  rw [insertValue_snd hlen]
  show _ ≤ ((t.myRows.set c.1 _).getD i []).length
  rw [FirstInsertion.getD_set _ hlen]
  by_cases heq : c.1 = i
  · rw [if_pos heq, FirstInsertion.length_setGrown, heq]
    exact le_max_left _ _
  · rw [if_neg heq]

theorem numRows_insertValue {t : DataTable} {c : Coords} (hc : c.1 < t.numRows) (value : Str) :
    (t.insertValue c value).2.numRows = t.numRows := by
  have hlen : c.1 < t.myRows.length := hc
  rw [insertValue_snd hlen, numRows, numRows, List.length_set]

/-- A place behind a cell of a row, where the rest of the table may start. -/
structure Position (t : DataTable) (c : Coords) : Prop where
  row_lt : c.1 < t.numRows
  width_pos : 0 < c.2
  width_le : c.2 ≤ (t.myRows.getD c.1 []).length

theorem Position.row_eq {t : DataTable} {c : Coords} (h : t.Position c) :
    t.myRows[c.1]? = some (t.myRows.getD c.1 []) := by
  have hlen : c.1 < t.myRows.length := h.row_lt
  rw [List.getD_eq_getElem _ _ hlen, List.getElem?_eq_getElem hlen]

theorem Position.mono {t T : DataTable} {c : Coords} (h : t.Position c)
    (hrows : t.myRows <+: T.myRows) : T.Position c := by
  have hlen : c.1 < t.myRows.length := h.row_lt
  obtain ⟨more, hmore⟩ := id hrows
  refine ⟨h.row_lt.trans_le hrows.length_le, h.width_pos, ?_⟩
  rw [← hmore, List.getD_append _ _ _ _ hlen]
  exact h.width_le

theorem Position.insertValue {t : DataTable} {n : Coords} (h : t.Position n) {c : Coords}
    (hc : c.1 < t.numRows) (value : Str) : (t.insertValue c value).2.Position n :=
  ⟨h.row_lt.trans_eq (numRows_insertValue hc value).symm, h.width_pos,
    h.width_le.trans (le_length_insertValue hc _ value)⟩

theorem myRows_split {t : DataTable} {i : ℕ} (hi : i < t.numRows) :
    t.myRows = t.myRows.take i ++ t.myRows.getD i [] :: t.myRows.drop (i + 1) := by
  have hlen : i < t.myRows.length := hi
  rw [List.getD_eq_getElem _ _ hlen, List.cons_getElem_drop_succ, List.take_append_drop]

/-! ### The table between the messages of an insert -/

theorem sameHead_withRow (t : DataTable) (key : Str) : t.SameHead (t.withRow key) := by
  rw [withRow, row]
  split <;> exact ⟨rfl, rfl⟩

theorem prefix_withRow (t : DataTable) (key : Str) : t.myRows <+: (t.withRow key).myRows := by
  rw [withRow, row]
  split
  · exact List.prefix_rfl
  · exact List.prefix_append _ _

/-- The table of the column message differs from the table of the value message by a row at most. -/
theorem seenByColumn_withColumn (order : EvalOrder) (t : DataTable) (key name : Str) :
    ((seenByColumn order t key).withColumn name).SameHead ((t.withRow key).withColumn name) ∧
      ((seenByColumn order t key).withColumn name).myRows
        <+: ((t.withRow key).withColumn name).myRows := by
  cases order with
  | rowFirst => exact ⟨⟨rfl, rfl⟩, List.prefix_rfl⟩
  | colFirst =>
      rw [← withColumn_withRow]
      exact ⟨sameHead_withRow _ key, prefix_withRow _ key⟩

theorem Consistent.seenByColumn {t : DataTable} (h : t.Consistent) (order : EvalOrder)
    (key : Str) : (DataTable.seenByColumn order t key).Consistent := by
  cases order with
  | rowFirst => exact h.withRow key
  | colFirst => exact h

theorem Consistent.coordsOf_fst_le {t : DataTable} (h : t.Consistent) (order : EvalOrder)
    (key name : Str) :
    (t.coordsOf key name).1 ≤ ((DataTable.seenByColumn order t key).withColumn name).numRows := by
  have hle : (t.coordsOf key name).1 ≤ t.numRows := by
    rw [h.numRows_eq]
    exact List.idxOf_le_length
  refine hle.trans ?_
  rw [numRows, numRows, withColumn_myRows]
  cases order with
  | rowFirst => exact (prefix_withRow t key).length_le
  | colFirst => exact le_rfl

theorem seenByColumn_cols (order : EvalOrder) (t : DataTable) (key : Str) :
    (DataTable.seenByColumn order t key).cols = t.cols := by
  cases order with
  | rowFirst => exact withRow_cols t key
  | colFirst => rfl

theorem seenByColumn_notes (order : EvalOrder) (t : DataTable) (key name : Str) :
    ((seenByColumn order t key).withColumn name).myTableNotes = t.myTableNotes := by
  have hcolumn : ∀ t : DataTable, (t.withColumn name).myTableNotes = t.myTableNotes := by
    intro t
    rw [withColumn]
    split <;> rfl
  rw [hcolumn]
  cases order with
  | rowFirst => exact (sameHead_withRow t key).notes
  | colFirst => rfl

theorem Consistent.put_notes {t : DataTable} (h : t.Consistent) (key colName value : Str) :
    (t.put key colName value).myTableNotes = t.myTableNotes := by
  rw [DataTable.put, insertValue_snd (h.coordsOf_fst_lt key colName)]
  exact seenByColumn_notes .rowFirst t key colName

/-! ### A table with other notes -/

def withNotes (t : DataTable) (notes : List Str) : DataTable := { t with myTableNotes := notes }

@[simp] theorem withNotes_myTableNotes (t : DataTable) : t.withNotes t.myTableNotes = t := rfl

@[simp] theorem withNotes_myRows (t : DataTable) (notes : List Str) :
    (t.withNotes notes).myRows = t.myRows := rfl

@[simp] theorem withNotes_numRows (t : DataTable) (notes : List Str) :
    (t.withNotes notes).numRows = t.numRows := rfl

theorem Consistent.withNotes {t : DataTable} (h : t.Consistent) (notes : List Str) :
    (t.withNotes notes).Consistent :=
  ⟨h.keys_nodup, h.rowMap, h.heads, h.cols_nodup, h.columnMap, h.columnNames, h.row_le⟩

theorem SameHead.withNotes {t t' : DataTable} (h : t.SameHead t') (notes : List Str) :
    (t.withNotes notes).SameHead (t'.withNotes notes) := ⟨h.columnNames, rfl⟩

theorem insertValue_withNotes (t : DataTable) (notes : List Str) (c : Coords) (value : Str) :
    ((t.withNotes notes).insertValue c value).2 = (t.insertValue c value).2.withNotes notes := rfl

end DataTable

namespace DataTableWriter

/-- **The text of a table is what is printed up to a position and what is then pending.** -/
theorem textUpTo_append_pending {t : DataTable} {c : Coords} (hc : c.1 < t.numRows)
    (hpos : 0 < c.2) (hle : c.2 ≤ (t.myRows.getD c.1 []).length) :
    t.textUpTo myColumnDelimiter c ++ pendingText t c (t.myRows.getD c.1 [])
      = t.text myColumnDelimiter := by
  set row := t.myRows.getD c.1 [] with hrow
  set d := myColumnDelimiter
  have hjoin : join (row.take c.2) d ++ (if c.2 < row.length then d ++ join (row.drop c.2) d else [])
      = join row d := by
    rcases Nat.lt_or_ge c.2 row.length with hlt | hge
    · rw [if_pos hlt, DataTable.join_take_append_drop hpos hlt]
    · rw [if_neg (by omega), List.append_nil, List.take_of_length_le hge]
  have hrows : DataTable.rowsText t.myRows d = DataTable.rowsText (t.myRows.take c.1) d
      ++ ('\n' :: join row d ++ DataTable.rowsText (t.myRows.drop (c.1 + 1)) d) := by
    conv_lhs => rw [DataTable.myRows_split hc]
    simp only [DataTable.rowsText, List.flatMap_append, List.flatMap_cons]
    rfl
  rw [DataTable.text, hrows, ← hjoin, DataTable.textUpTo, pendingText]
  simp only [List.append_assoc, List.cons_append]
  rfl

end DataTableWriter

end StructurePipe.Utility
