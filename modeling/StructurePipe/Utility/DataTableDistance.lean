import StructurePipe.Lib.CharDistance
import StructurePipe.Utility.DataTableMap
import StructurePipe.Utility.DataTableText

/-!
# How far two tables are apart

Two versions of a table are compared text by text: the column names, and the cells of the value columns,
a missing cell counting as the empty string.  The keys of the rows are left out.

A new row does not change any of these texts, a new column or a new value changes one.

* `differenceBy_triangle` — **the triangle inequality**, for whatever distance of texts has it;
* `differenceBy_seenByColumn`, `differenceBy_put` — **what the two halves of an insert change.**
-/

namespace StructurePipe.Utility

open CharDistance FirstInsertion

namespace DataTable

/-- The texts of a table: its column names in line `0`, its rows in the lines behind. -/
def entry (t : DataTable) : ℕ × ℕ → Str
  | (0, j) => t.myColumnNames.getD j []
  | (i + 1, j) => t.cell (i, j)

/-- The positions of the texts in a table with so many rows and columns, but for the key column. -/
def positions (numRows numColumns : ℕ) : Finset (ℕ × ℕ) :=
  Finset.range (numRows + 1) ×ˢ Finset.Ico 1 numColumns

/-- How far two tables are apart, if two texts are apart by `δ`. -/
def differenceBy (δ : Str → Str → ℕ) (t t' : DataTable) : ℕ :=
  total δ (positions (max t.numRows t'.numRows) (max t.numColumns t'.numColumns)) t.entry t'.entry

theorem mem_positions {m n : ℕ} {p : ℕ × ℕ} :
    p ∈ positions m n ↔ p.1 ≤ m ∧ 0 < p.2 ∧ p.2 < n := by
  simp only [positions, Finset.mem_product, Finset.mem_range, Finset.mem_Ico]
  omega

/-- There is no text outside a table. -/
theorem Consistent.entry_eq_nil {t : DataTable} (h : t.Consistent) {p : ℕ × ℕ}
    (hp : t.numRows < p.1 ∨ t.numColumns ≤ p.2) : t.entry p = [] := by
  obtain ⟨i, j⟩ := p
  cases i with
  | zero => exact List.getD_eq_default _ _ (hp.resolve_left (Nat.not_lt_zero _))
  | succ i =>
      rcases hp with hrow | hcol
      · exact cell_of_numRows_le (Nat.le_of_lt_succ hrow)
      · exact h.cell_of_numColumns_le hcol

section Metric

variable {δ : Str → Str → ℕ} {a b c : DataTable}

/-- More positions change nothing. -/
theorem differenceBy_eq (hself : ∀ v, δ v v = 0) (ha : a.Consistent) (hb : b.Consistent) {m n : ℕ}
    (hrows : max a.numRows b.numRows ≤ m) (hcols : max a.numColumns b.numColumns ≤ n) :
    differenceBy δ a b = total δ (positions m n) a.entry b.entry := by
  refine total_of_subset hself (fun p hp => ?_) (fun p hp hnot => ?_)
  · rw [mem_positions] at hp ⊢
    omega
  · rw [mem_positions] at hp hnot
    rw [ha.entry_eq_nil (by omega), hb.entry_eq_nil (by omega)]

/-- **The triangle inequality.** -/
theorem differenceBy_triangle (hself : ∀ v, δ v v = 0)
    (htriangle : ∀ u v w, δ u w ≤ δ u v + δ v w) (ha : a.Consistent) (hb : b.Consistent)
    (hc : c.Consistent) : differenceBy δ a c ≤ differenceBy δ a b + differenceBy δ b c := by
  rw [differenceBy_eq hself ha hc (m := max a.numRows (max b.numRows c.numRows))
      (n := max a.numColumns (max b.numColumns c.numColumns)) (by omega) (by omega),
    differenceBy_eq hself ha hb (m := max a.numRows (max b.numRows c.numRows))
      (n := max a.numColumns (max b.numColumns c.numColumns)) (by omega) (by omega),
    differenceBy_eq hself hb hc (m := max a.numRows (max b.numRows c.numRows))
      (n := max a.numColumns (max b.numColumns c.numColumns)) (by omega) (by omega)]
  exact total_triangle htriangle

theorem differenceBy_self (hself : ∀ v, δ v v = 0) (t : DataTable) : differenceBy δ t t = 0 :=
  total_of_agree hself fun _ _ => rfl

end Metric

/-! ### The halves of an insert -/

/-- The table after the column half of an insert. -/
theorem seenByColumn_names (order : EvalOrder) (t : DataTable) (key name : Str) :
    ((seenByColumn order t key).withColumn name).myColumnNames
      = if name ∈ t.cols then t.myColumnNames else t.myColumnNames ++ [name] := by
  have hnames : (seenByColumn order t key).myColumnNames = t.myColumnNames := by
    cases order with
    | rowFirst => exact (sameHead_withRow t key).columnNames
    | colFirst => rfl
  rw [DataTable.withColumn, seenByColumn_cols]
  split
  · exact hnames
  · rw [addColumn, hnames]

theorem Consistent.seenByColumn_entry {t : DataTable} (h : t.Consistent) (order : EvalOrder)
    (key name : Str) {p : ℕ × ℕ} (hp : 0 < p.2) :
    ((DataTable.seenByColumn order t key).withColumn name).entry p
      = if p = (0, t.numColumns) ∧ name ∉ t.cols then name else t.entry p := by
  obtain ⟨i, j⟩ := p
  cases i with
  | zero =>
      simp only [entry, seenByColumn_names]
      by_cases hname : name ∈ t.cols
      · simp [hname]
      · rcases Nat.lt_trichotomy j t.numColumns with hlt | heq | hgt
        · rw [if_neg hname, if_neg (by simp [hlt.ne]), List.getD_append _ _ _ _ hlt]
        · rw [if_neg hname, if_pos ⟨by rw [heq], hname⟩, heq, numColumns,
            List.getD_append_right _ _ _ _ le_rfl, Nat.sub_self]
          rfl
        · rw [if_neg hname, if_neg (by simp [hgt.ne']), List.getD_eq_default _ _ (by
            rw [List.length_append]; exact hgt), List.getD_eq_default _ _ hgt.le]
  | succ i =>
      have hrows : ((DataTable.seenByColumn order t key).withColumn name).cell (i, j) = t.cell (i, j) := by
        rw [cell, withColumn_myRows]
        cases order with
        | rowFirst => exact h.cell_withRow key hp
        | colFirst => rfl
      rw [if_neg (by simp)]
      exact hrows

/-- **What the column half of an insert changes.** -/
theorem Consistent.differenceBy_seenByColumn {δ : Str → Str → ℕ} (hself : ∀ v, δ v v = 0)
    {t : DataTable} (h : t.Consistent) (order : EvalOrder) (key name : Str) :
    differenceBy δ t ((DataTable.seenByColumn order t key).withColumn name)
      = if name ∈ t.cols then 0 else δ [] name := by
  have hentry : ∀ p : ℕ × ℕ, p ∈ positions
      (max t.numRows ((DataTable.seenByColumn order t key).withColumn name).numRows)
      (max t.numColumns ((DataTable.seenByColumn order t key).withColumn name).numColumns) → _ :=
    fun p hp => h.seenByColumn_entry order key name (mem_positions.mp hp).2.1
  by_cases hname : name ∈ t.cols
  · rw [if_pos hname]
    refine total_of_agree hself fun p hp => ?_
    rw [hentry p hp, if_neg (by simp [hname])]
  · have hmem : (0, t.numColumns) ∈ positions
        (max t.numRows ((DataTable.seenByColumn order t key).withColumn name).numRows)
        (max t.numColumns ((DataTable.seenByColumn order t key).withColumn name).numColumns) := by
      rw [mem_positions]
      refine ⟨Nat.zero_le _, ?_, ?_⟩
      · rw [h.numColumns_eq]
        exact Nat.succ_pos _
      · rw [numColumns, numColumns, seenByColumn_names, if_neg hname, List.length_append]
        exact (Nat.lt_succ_self _).trans_le (le_max_right _ _)
    rw [if_neg hname, differenceBy, total_of_single hself hmem, hentry _ hmem,
      if_pos ⟨rfl, hname⟩, h.entry_eq_nil (Or.inr le_rfl)]
    intro p hp hne
    rw [hentry p hp, if_neg (by simp [hne])]

/-- The old value of an insert is the text of its cell. -/
theorem Consistent.oldValue_eq {t : DataTable} (h : t.Consistent) (key colName value : Str) :
    t.oldValue key colName value = t.cell (t.coordsOf key colName) := by
  have hlen : (t.coordsOf key colName).1 < (t.withRow key).myRows.length := by
    have hlt := h.coordsOf_fst_lt key colName
    rwa [numRows, withColumn_myRows] at hlt
  rw [← h.cell_withRow key (Nat.succ_pos _), DataTable.oldValue, DataTable.insertValue,
    withColumn_myRows]
  simp only [if_neg (not_le.mpr hlen)]
  split
  · rename_i hle
    rw [cell, List.getD_eq_default _ _ hle]
  · rfl

theorem Consistent.put_entry {t : DataTable} (h : t.Consistent) (order : EvalOrder)
    (key colName value : Str) {p : ℕ × ℕ} (hp : 0 < p.2) :
    (t.put key colName value).entry p
      = if p = ((t.coordsOf key colName).1 + 1, (t.coordsOf key colName).2) then value
        else ((DataTable.seenByColumn order t key).withColumn colName).entry p := by
  obtain ⟨i, j⟩ := p
  cases i with
  | zero =>
      have hnames : (t.put key colName value).myColumnNames
          = ((DataTable.seenByColumn order t key).withColumn colName).myColumnNames := by
        rw [DataTable.put, insertValue_snd (h.coordsOf_fst_lt key colName)]
        exact (seenByColumn_withColumn order t key colName).1.columnNames
      rw [if_neg (by simp)]
      simp only [entry, hnames]
  | succ i =>
      rw [h.seenByColumn_entry order key colName hp, if_neg (by simp : ¬ ((i + 1, j) = _ ∧ _))]
      simp only [entry, h.cell_put key colName value (p := (i, j)) hp, Prod.ext_iff,
        Nat.add_right_cancel_iff]

/-- **What the value half of an insert changes.** -/
theorem Consistent.differenceBy_put {δ : Str → Str → ℕ} (hself : ∀ v, δ v v = 0) {t : DataTable}
    (h : t.Consistent) (order : EvalOrder) (key colName value : Str) :
    differenceBy δ ((DataTable.seenByColumn order t key).withColumn colName)
        (t.put key colName value)
      = δ (t.oldValue key colName value) value := by
  have hmem : ((t.coordsOf key colName).1 + 1, (t.coordsOf key colName).2) ∈ positions
      (max ((DataTable.seenByColumn order t key).withColumn colName).numRows
        (t.put key colName value).numRows)
      (max ((DataTable.seenByColumn order t key).withColumn colName).numColumns
        (t.put key colName value).numColumns) := by
    have hrow := (h.put key colName value).numRows_eq
    have hcol := (h.put key colName value).numColumns_eq
    have hkey := idxOf_lt_register t.keys key
    have hname := idxOf_lt_register t.cols colName
    rw [h.put_keys] at hrow
    rw [h.put_cols] at hcol
    rw [mem_positions]
    simp only [coordsOf]
    omega
  have hcolumn := h.seenByColumn_entry order key colName
    (p := ((t.coordsOf key colName).1 + 1, (t.coordsOf key colName).2)) (Nat.succ_pos _)
  rw [if_neg (by simp)] at hcolumn
  rw [differenceBy, total_of_single hself hmem, hcolumn, h.oldValue_eq,
    h.put_entry order key colName value (Nat.succ_pos _), if_pos rfl]
  · rfl
  · intro p hp hne
    rw [h.put_entry order key colName value (mem_positions.mp hp).2.1, if_neg hne]

/-! ### Tables with bounded texts -/

/-- Every column name and every value is shorter than `bound`. -/
def TextsBelow (bound : ℕ) (t : DataTable) : Prop :=
  ∀ p : ℕ × ℕ, 0 < p.2 → (t.entry p).length < bound

theorem TextsBelow.seenByColumn {bound : ℕ} {t : DataTable} (h : t.TextsBelow bound)
    (ht : t.Consistent) (order : EvalOrder) (key : Str) {name : Str} (hname : name.length < bound) :
    ((DataTable.seenByColumn order t key).withColumn name).TextsBelow bound := by
  intro p hp
  rw [ht.seenByColumn_entry order key name hp]
  split
  · exact hname
  · exact h p hp

theorem TextsBelow.put {bound : ℕ} {t : DataTable} (h : t.TextsBelow bound) (ht : t.Consistent)
    (key : Str) {colName value : Str} (hname : colName.length < bound) (hvalue : value.length < bound) :
    (t.put key colName value).TextsBelow bound := by
  intro p hp
  rw [ht.put_entry .rowFirst key colName value hp]
  split
  · exact hvalue
  · exact h.seenByColumn ht .rowFirst key hname p hp

/-- Distances that agree on bounded texts agree on tables of them. -/
theorem TextsBelow.differenceBy_congr {δ δ' : Str → Str → ℕ} {bound : ℕ} {t t' : DataTable}
    (h : t.TextsBelow bound) (h' : t'.TextsBelow bound)
    (heq : ∀ v w, v.length < bound → w.length < bound → δ v w = δ' v w) :
    differenceBy δ t t' = differenceBy δ' t t' :=
  total_congr fun p hp =>
    heq _ _ (h p (mem_positions.mp hp).2.1) (h' p (mem_positions.mp hp).2.1)

end DataTable

end StructurePipe.Utility
