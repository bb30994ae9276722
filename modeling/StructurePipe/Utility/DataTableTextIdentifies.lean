import StructurePipe.Lib.Delimited
import StructurePipe.Utility.DataTableMap

/-!
# When the written file identifies the table

`writeToFile` joins the column names and the cells of each row with the delimiter and escapes
nothing.  A cell that contains the delimiter reads like two cells, and one that contains a newline
like the end of its row.  For texts that do neither the file determines the column names and every
row, holes and all.

* `Plain` — no name of a value column and no cell shows the delimiter early or contains a newline;
* `writeToFile_eq` — the file is the header line, the lines of the notes and one line for each row;
* `plain_files_differ` — **two plain tables with the same notes, each left by some history, have
  different files if their column names or rows differ;**
* `same_file_for_different_rows` — with the default delimiter, a value with a blank in it is not told
  from two values.
-/

namespace StructurePipe.Utility

open Delimited StepRuns

namespace DataTable

/-- The texts of the table leave its layout visible: none of them contains a newline, and none shows
the delimiter before its own end, when the delimiter is written after it. -/
structure Plain (colDelimiter : Str) (t : DataTable) : Prop where
  cols : ∀ name ∈ t.cols, Unmarked colDelimiter name ∧ '\n' ∉ name
  cells : ∀ row ∈ t.myRows, ∀ cell ∈ row, Unmarked colDelimiter cell ∧ '\n' ∉ cell

/-! ### The lines of the file -/

/-- The lines of the notes. -/
def noteLines (t : DataTable) : Str := t.myTableNotes.flatMap fun note => ['#', ' '] ++ note ++ ['\n']

/-- The lines of the rows. -/
def rowLines (t : DataTable) (colDelimiter : Str) : Str :=
  t.myRows.flatMap fun row => join row colDelimiter ++ ['\n']

/-- The file: a header line, the lines of the notes, and a line for each row. -/
theorem writeToFile_eq (t : DataTable) (colDelimiter : Str) :
    t.writeToFile colDelimiter
      = t.headerText colDelimiter ++ ['\n'] ++ (t.noteLines ++ t.rowLines colDelimiter) := by
  have hrows : rowsText t.myRows colDelimiter ++ ['\n'] = '\n' :: t.rowLines colDelimiter :=
    flatMap_cons_append_singleton '\n' _ t.myRows
  have hnotes : t.notesText ++ ['\n'] = '\n' :: t.noteLines := by
    rw [notesText_eq]
    exact flatMap_cons_append_singleton '\n' (['#', ' '] ++ ·) t.myTableNotes
  calc t.writeToFile colDelimiter
      = t.headerText colDelimiter
          ++ (t.notesText ++ (rowsText t.myRows colDelimiter ++ ['\n'])) := by
        simp only [writeToFile, text, List.append_assoc]
    _ = t.headerText colDelimiter ++ (t.notesText ++ ['\n'] ++ t.rowLines colDelimiter) := by
        rw [hrows, List.append_assoc, List.singleton_append]
    _ = t.headerText colDelimiter ++ ['\n'] ++ (t.noteLines ++ t.rowLines colDelimiter) := by
        rw [hnotes]
        simp

/-! ### Reading it back -/

section Injective

variable {colDelimiter : Str} {t t' : DataTable}

theorem Plain.newline_notMem_row (h : t.Plain colDelimiter) (hnl : '\n' ∉ colDelimiter)
    {row : List Str} (hrow : row ∈ t.myRows) : '\n' ∉ join row colDelimiter :=
  notMem_intercalate hnl fun cell hcell => (h.cells row hrow cell hcell).2

theorem Consistent.newline_notMem_header (ht : t.Consistent) (h : t.Plain colDelimiter)
    (hnl : '\n' ∉ colDelimiter) : '\n' ∉ t.headerText colDelimiter := by
  have hnames : '\n' ∉ join t.myColumnNames colDelimiter := by
    refine notMem_intercalate hnl fun name hname => ?_
    rw [ht.columnNames] at hname
    rcases List.mem_cons.mp hname with rfl | hname
    · decide
    · exact (h.cols name hname).2
  simpa [headerText] using hnames

/-- The header line determines the column names. -/
theorem Consistent.columnNames_of_headerText (ht : t.Consistent) (ht' : t'.Consistent)
    (h : t.Plain colDelimiter) (h' : t'.Plain colDelimiter) (hd : colDelimiter ≠ [])
    (heq : t.headerText colDelimiter = t'.headerText colDelimiter) :
    t.myColumnNames = t'.myColumnNames := by
  have hjoin : join t.myColumnNames colDelimiter = join t'.myColumnNames colDelimiter :=
    List.append_cancel_left heq
  have hflat := congrArg (· ++ colDelimiter) hjoin
  simp only [ht.columnNames, ht'.columnNames, join, List.flatMap_cons,
    intercalate_append_self colDelimiter (List.cons_ne_nil _ _)] at hflat
  have hcols : t.cols = t'.cols :=
    flatMap_append_inj hd (fun name hname => (h.cols name hname).1)
      (fun name hname => (h'.cols name hname).1) (fun _ _ _ _ hab => hab)
      (List.append_cancel_left hflat)
  rw [ht.columnNames, ht'.columnNames, hcols]

/-- The lines of the rows determine the rows. -/
theorem Consistent.myRows_of_rowLines (ht : t.Consistent) (ht' : t'.Consistent)
    (h : t.Plain colDelimiter) (h' : t'.Plain colDelimiter) (hd : colDelimiter ≠ [])
    (hnl : '\n' ∉ colDelimiter)
    (heq : t.rowLines colDelimiter = t'.rowLines colDelimiter) : t.myRows = t'.myRows := by
  refine flatMap_append_inj (List.cons_ne_nil _ _)
    (fun row hrow => (unmarked_singleton_iff _ _).mpr (h.newline_notMem_row hnl hrow))
    (fun row hrow => (unmarked_singleton_iff _ _).mpr (h'.newline_notMem_row hnl hrow)) ?_ heq
  intro row hrow row' hrow' hjoin
  exact intercalate_inj hd (List.length_pos_iff.mp (ht.length_pos hrow))
    (List.length_pos_iff.mp (ht'.length_pos hrow')) (fun cell hcell => (h.cells row hrow cell hcell).1)
    (fun cell hcell => (h'.cells row' hrow' cell hcell).1) hjoin

/-- **The file of a plain table determines its column names and rows.** -/
theorem Consistent.eq_of_writeToFile (ht : t.Consistent) (ht' : t'.Consistent)
    (h : t.Plain colDelimiter) (h' : t'.Plain colDelimiter) (hd : colDelimiter ≠ [])
    (hnl : '\n' ∉ colDelimiter) (hnotes : t.myTableNotes = t'.myTableNotes)
    (heq : t.writeToFile colDelimiter = t'.writeToFile colDelimiter) :
    t.myColumnNames = t'.myColumnNames ∧ t.myRows = t'.myRows := by
  have hlines : t.noteLines = t'.noteLines := by
    rw [noteLines, noteLines, hnotes]
  rw [writeToFile_eq, writeToFile_eq, hlines] at heq
  obtain ⟨hheader, hrest⟩ :=
    ((unmarked_singleton_iff _ _).mpr (ht.newline_notMem_header h hnl)).append_inj
      ((unmarked_singleton_iff _ _).mpr (ht'.newline_notMem_header h' hnl)) heq
  exact ⟨ht.columnNames_of_headerText ht' h h' hd hheader,
    ht.myRows_of_rowLines ht' h h' hd hnl (List.append_cancel_left hrest)⟩

end Injective

end DataTable

/-- **Plain tables with the same notes are told apart by their files.**  Two tables, each left by a
history of inserts, notes and clears with any listener, are written with the same delimiter, which
is not empty and contains no newline.  If no text of either table contains a newline or shows the
delimiter early, and the tables differ in their column names or in a row, the files differ. -/
theorem plain_files_differ {σ σ' : Type*} (l : Listener σ) (l' : Listener σ') (s₀ : σ) (s₀' : σ')
    {ops ops' : List TableOp} {t t' : DataTable} {s : σ} {s' : σ'}
    (h : run (TableOp.apply l) ({}, s₀) ops = some (t, s))
    (h' : run (TableOp.apply l') ({}, s₀') ops' = some (t', s')) {colDelimiter : Str}
    (hd : colDelimiter ≠ []) (hnl : '\n' ∉ colDelimiter) (hplain : t.Plain colDelimiter)
    (hplain' : t'.Plain colDelimiter) (hnotes : t.myTableNotes = t'.myTableNotes)
    (hne : t.myColumnNames ≠ t'.myColumnNames ∨ t.myRows ≠ t'.myRows) :
    t.writeToFile colDelimiter ≠ t'.writeToFile colDelimiter := by
  intro heq
  obtain ⟨hnames, hrows⟩ := (represents_run l s₀ h).consistent.eq_of_writeToFile
    (represents_run l' s₀' h').consistent hplain hplain' hd hnl hnotes heq
  rcases hne with hne | hne
  · exact hne hnames
  · exact hne hrows

/-- A value and a hole against a value moved into the next column. -/
theorem plain_files_differ_at :
    ∃ t t', run (TableOp.apply silentListener) ({}, ())
        [.insert .rowFirst ['k'] ['x'] ['a'], .insert .rowFirst ['k'] ['y'] []] = some (t, ()) ∧
      run (TableOp.apply silentListener) ({}, ())
        [.insert .rowFirst ['k'] ['x'] [], .insert .rowFirst ['k'] ['y'] ['a']] = some (t', ()) ∧
      t.writeToFile [' '] ≠ t'.writeToFile [' '] := by
  have hleft : ∃ t, run (TableOp.apply silentListener) ({}, ())
        [.insert .rowFirst ['k'] ['x'] ['a'], .insert .rowFirst ['k'] ['y'] []] = some (t, ()) ∧
      t.cols = [['x'], ['y']] ∧ t.myTableNotes = [] ∧ t.myRows = [[['k'], ['a'], []]] :=
    ⟨_, rfl, by decide, rfl, by decide⟩
  have hright : ∃ t, run (TableOp.apply silentListener) ({}, ())
        [.insert .rowFirst ['k'] ['x'] [], .insert .rowFirst ['k'] ['y'] ['a']] = some (t, ()) ∧
      t.cols = [['x'], ['y']] ∧ t.myTableNotes = [] ∧ t.myRows = [[['k'], [], ['a']]] :=
    ⟨_, rfl, by decide, rfl, by decide⟩
  obtain ⟨t, h, hcols, hnotes, hrows⟩ := hleft
  obtain ⟨t', h', hcols', hnotes', hrows'⟩ := hright
  refine ⟨t, t', h, h', plain_files_differ silentListener silentListener () () h h' (by decide)
    (by decide) ⟨?_, ?_⟩ ⟨?_, ?_⟩ (hnotes.trans hnotes'.symm) (Or.inr ?_)⟩
  · simp [hcols, unmarked_singleton_iff]
  · simp [hrows, unmarked_singleton_iff]
  · simp [hcols', unmarked_singleton_iff]
  · simp [hrows', unmarked_singleton_iff]
  · simp [hrows, hrows']

/-- **A value with a blank in it reads like two values.**  Both tables have the columns `x` and `y`
and a row for each of the keys `k` and `m`; one has the value `a b` under `x` in the first row, the
other `a` and `b`. -/
theorem same_file_for_different_rows :
    ∃ t t', run (TableOp.apply silentListener) ({}, ())
        [.insert .rowFirst ['k'] ['x'] ['a', ' ', 'b'], .insert .rowFirst ['m'] ['y'] ['c']]
          = some (t, ()) ∧
      run (TableOp.apply silentListener) ({}, ())
        [.insert .rowFirst ['k'] ['x'] ['a'], .insert .rowFirst ['k'] ['y'] ['b'],
          .insert .rowFirst ['m'] ['y'] ['c']] = some (t', ()) ∧
      t.myColumnNames = t'.myColumnNames ∧ t.myRows ≠ t'.myRows ∧
      t.writeToFile [' '] = t'.writeToFile [' '] :=
  ⟨_, _, rfl, rfl, by decide, by decide, by decide⟩

end StructurePipe.Utility
