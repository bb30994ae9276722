import StructurePipe.Utility.DataTableSupport
import StructurePipe.Lib.LastWrites

/-!
# Summary files

A block names its summary file each time its pipe is initialised, and in a sub-pipe the directory is
another one in every run.  `DataTableSupport` can also be given a name while the pipe runs; it writes
the table to the old file then and goes on in the new one.

A writer that is destroyed ends its own file with a newline.  As long as the next file is another one,
no writer gets in the way of the next.

* `closed` — the files, if what was written to them last is ended with a newline;
* `Holds.close`, `Writing.setFilename`, `Writing.finished` — what a change of the file leaves behind;
* `files_hold_tables` — **every file holds the table as it was when it was left last.**
-/

namespace StructurePipe.Utility

open Delimited OverwrittenFile StepRuns LastWrites

/-- A support and the files.  `myOutputPath` is the path that the current writer has open, `running`
says whether the engine is, and `files` are the files as they were left; `support` sees the one that
is open. -/
structure FiledSupport where
  support : DataTableSupport
  myOutputPath : Str := []
  running : Bool := false
  files : Str → Disk

/-- Somebody names the file, the engine changes its state, or somebody inserts into the table. -/
inductive FileEvent where
  | setFilename (filename : Str)
  | stateChanged (newState : PipelineState)
  | insert (i : Insertion)
deriving DecidableEq, Repr

namespace FiledSupport

/-- The file at a path, as it is now. -/
def file (s : FiledSupport) (path : Str) : Disk :=
  match s.support.myWriter with
  | none => s.files path
  | some w => if path = s.myOutputPath then w.disk else s.files path

/-- Destroy the current writer. -/
def close (s : FiledSupport) : FiledSupport :=
  match s.support.myWriter with
  | none => s
  | some old =>
      { s with
        support := { s.support with myWriter := none }
        files := Function.update s.files s.myOutputPath old.destroy.disk }

/-- If the new writer has another file than the old one, it does not matter which of the two comes
first: the new file being opened or the old writer being destroyed. -/
def createWriter (s : FiledSupport) : FiledSupport :=
  if s.support.myFilename.isEmpty then s
  else if s.support.myWriter.isSome && s.myOutputPath == s.support.myFilename then
    { s with support := s.support.createWriter }
  else
    let s := s.close
    { s with
      support := { s.support with disk := s.files s.support.myFilename }.createWriter
      myOutputPath := s.support.myFilename }

def setFilename (s : FiledSupport) (filename : Str) : Option FiledSupport :=
  if s.support.myFilename = filename then some s
  else
    let s := { s with support := { s.support with myFilename := filename } }
    if s.running then
      -- write the final state of the old filename, and start the new writer
      s.support.writeTable.map fun support => { s with support := support }.createWriter
    else some s

def notify (s : FiledSupport) (newState : PipelineState) : Option FiledSupport :=
  let s := { s with running := newState == PipelineState.running }
  match newState with
  | .running => some s.createWriter
  | newState => (s.support.notify newState).map fun support => { s with support := support }

def step (s : FiledSupport) : FileEvent → Option FiledSupport
  | .setFilename filename => s.setFilename filename
  | .stateChanged newState => s.notify newState
  | .insert i => (s.support.insert i.order i.key i.colName i.value).map fun support =>
      { s with support := support }

end FiledSupport

/-! ### Runs with several files -/

/-- A run of the pipe: a file with the inserts that are made while it is open, and others that are
switched to. -/
structure FileRun where
  first : Str × List Insertion
  more : List (Str × List Insertion)

namespace FileRun

def switch (part : Str × List Insertion) : List FileEvent :=
  .setFilename part.1 :: part.2.map FileEvent.insert

def events (r : FileRun) : List FileEvent :=
  .setFilename r.first.1 :: .stateChanged .running :: r.first.2.map FileEvent.insert
    ++ (r.more.flatMap switch ++ [.stateChanged .finished])

/-- The files in their order, each with the table as it was when it was left. -/
def partsFrom (t : DataTable) : List (Str × List Insertion) → List (Str × DataTable)
  | [] => []
  | part :: rest =>
      let t := part.2.foldl (fun t i => t.put i.key i.colName i.value) t
      (part.1, t) :: partsFrom t rest

def parts (r : FileRun) : List (Str × DataTable) := partsFrom {} (r.first :: r.more)

/-- All inserts of the run. -/
def inserts (r : FileRun) : List Insertion := r.first.2 ++ r.more.flatMap Prod.snd

end FileRun

/-- The files, if each part is ended with a newline: a file holds what was written to it last. -/
def closed (files : Str → Disk) (parts : List (Str × DataTable)) (path : Str) : Disk :=
  match last path parts with
  | none => files path
  | some t => some (t.text [' '] ++ ['\n'])

theorem closed_concat (files : Str → Disk) (parts : List (Str × DataTable)) (filename : Str)
    (t : DataTable) (path : Str) : closed files (parts ++ [(filename, t)]) path
      = if path = filename then some (t.text [' '] ++ ['\n']) else closed files parts path := by
  rw [closed, last_append, last_singleton]
  by_cases h : path = filename
  · rw [if_pos h, if_pos h]
    rfl
  · rw [if_neg h, if_neg h]
    rfl

/-! ### One file after the other -/

namespace FiledSupport

/-- The writer has written a table to the end of its file. -/
def Full (t : DataTable) (w : DataTableWriter) : Prop :=
  w.Live (t.text [' ']) ∧ w.myOutStream.pos = (t.text [' ']).length

/-- All parts are written, the last one to the file that is open, if there is one. -/
def Holds (files : Str → Disk) (parts : List (Str × DataTable)) (s : FiledSupport) : Prop :=
  match parts.getLast? with
  | none => s.support.myWriter = none ∧ s.files = files
  | some part => s.myOutputPath = part.1 ∧ (∃ w, s.support.myWriter = some w ∧ Full part.2 w) ∧
      ∀ path, path ≠ part.1 → s.files path = closed files parts.dropLast path

theorem Full.destroy {t : DataTable} {w : DataTableWriter} (h : Full t w) :
    w.destroy.disk = some (t.text [' '] ++ ['\n']) := by
  obtain ⟨hlive, hpos⟩ := h
  rw [DataTableWriter.destroy, if_pos hlive.isOpen, DataTableWriter.emit, if_pos hlive.good]
  simp [hlive.disk, hpos, overwrite]

/-- **Closing the file** ends it with a newline and leaves the others alone. -/
theorem Holds.close {files : Str → Disk} {parts : List (Str × DataTable)} {s : FiledSupport}
    (h : Holds files parts s) : s.close.support.myWriter = none ∧ s.close.files = closed files parts := by
  induction parts using List.reverseRecOn with
  | nil =>
      obtain ⟨hwriter, hfiles⟩ := h
      rw [FiledSupport.close, hwriter]
      exact ⟨hwriter, hfiles⟩
  | append_singleton parts part _ =>
      rw [Holds, List.getLast?_concat, List.dropLast_concat] at h
      obtain ⟨hpath, ⟨w, hwriter, hfull⟩, hfiles⟩ := h
      rw [FiledSupport.close, hwriter]
      refine ⟨rfl, ?_⟩
      funext path
      show Function.update s.files s.myOutputPath w.destroy.disk path = _
      rw [closed_concat, hpath]
      by_cases heq : path = part.1
      · rw [heq, Function.update_self, if_pos rfl, hfull.destroy]
      · rw [Function.update_of_ne heq, if_neg heq, hfiles path heq]

/-- What each file holds now. -/
theorem Holds.file {files : Str → Disk} {parts : List (Str × DataTable)} {filename : Str}
    {t : DataTable} {s : FiledSupport} (h : Holds files (parts ++ [(filename, t)]) s) (path : Str) :
    s.file path = if path = filename then some (t.text [' ']) else closed files parts path := by
  rw [Holds, List.getLast?_concat, List.dropLast_concat] at h
  obtain ⟨hpath, ⟨w, hwriter, hfull⟩, hfiles⟩ := h
  rw [FiledSupport.file, hwriter]
  show (if path = s.myOutputPath then w.disk else s.files path) = _
  rw [hpath]
  split
  · exact hfull.1.disk
  · next hne => exact hfiles path hne

/-- The support writes to a file, with the cells `done` filled, after the parts that are closed. -/
structure Writing (files : Str → Disk) (parts : List (Str × DataTable)) (filename : Str)
    (done : List (Str × Str)) (s : FiledSupport) : Prop where
  inRun : s.support.InRun [] done
  name_eq : s.support.myFilename = filename
  path_eq : s.myOutputPath = filename
  running : s.running = true
  files_eq : s.files = closed files parts

/-- Between two runs. -/
structure Between (files : Str → Disk) (parts : List (Str × DataTable)) (s : FiledSupport) :
    Prop where
  holds : Holds files parts s
  stopped : s.running = false
  table : s.support.myTable = {}
  clears : s.support.myClearTableOnPipeFinish = true
  openable : s.support.openable = true

end FiledSupport

namespace DataTableSupport

/-- A support with a table that makes its first writer. -/
theorem inRun_createWriter {s : DataTableSupport} (hsettings : Settings s)
    (hwriter : s.myWriter = none) (ht : s.myTable.Consistent) {done : List (Str × Str)}
    (hblank : ∀ key colName, (key, colName) ∉ done →
      s.myTable.cell (s.myTable.coordsOf key colName) = []) :
    InRun [] done s.createWriter ∧ s.createWriter.myTable = s.myTable ∧
      s.createWriter.myFilename = s.myFilename := by
  obtain ⟨hsound, hfull, hhistory⟩ := DataTableWriter.sound_initialise true 50 s.file
  have hpos : (DataTableWriter.initialise true 50 true s.file).myOutStream.pos = 0 :=
    Nat.le_zero.mp hsound.live.pos_le
  have hfilename : s.myFilename.isEmpty = false := by simpa using hsettings.filename
  have hcreate : s.createWriter
      = { s with myWriter := some (DataTableWriter.initialise true 50 true s.file) } := by
    rw [createWriter, hfilename, hwriter, hsettings.openable]
    rfl
  rw [hcreate]
  refine ⟨⟨⟨hsettings.filename, hsettings.clears, hsettings.openable⟩, ht, hblank, _,
    s.myTable.myTableNotes, [], rfl, ⟨rfl, hsound.live, hsound.marker, ?_, by simp, ?_⟩,
    Or.inl hfull⟩, rfl, rfl⟩
  · rw [hpos]
    exact Nat.zero_le _
  · intro r hr
    rw [show _ = [] from hhistory] at hr
    exact absurd hr List.not_mem_nil

/-- What is written does not depend on the file name that is set. -/
theorem writeTable_named (s : DataTableSupport) (filename : Str) :
    ({ s with myFilename := filename } : DataTableSupport).writeTable
      = s.writeTable.map fun s => { s with myFilename := filename } := by
  obtain ⟨t, name, writer, clears, disk, openable⟩ := s
  cases writer with
  | none => rfl
  | some w =>
      show (w.write t).map _ = ((w.write t).map _).map _
      rw [Option.map_map]
      rfl

/-- **The table is written** to the end of a file in which nothing else was. -/
theorem InRun.writeTable {done : List (Str × Str)} {s : DataTableSupport} (h : InRun [] done s) :
    ∃ w, s.writeTable = some { s with myWriter := some w } ∧ FiledSupport.Full s.myTable w := by
  obtain ⟨_, ht, _, w, notes, f, hw, hcovers, htracks⟩ := h
  obtain ⟨w', notes', f', hw', hcovers', _⟩ :=
    (DataTableWriter.keeps_covers []).write hcovers ht htracks
  obtain ⟨r, hr, htable, hdisk, hpos⟩ := DataTableWriter.exists_record_of_write hw'
  obtain ⟨hpos', hdisk'⟩ := hcovers'.records r hr
  rw [htable] at hpos' hdisk'
  rw [List.drop_nil, List.append_nil] at hdisk'
  have hfile : f' = s.myTable.text [' '] :=
    Option.some.inj (hcovers'.live.disk.symm.trans (hdisk.symm.trans hdisk'))
  refine ⟨w', ?_, hfile ▸ hcovers'.live, hpos.symm.trans hpos'⟩
  rw [DataTableSupport.writeTable, hw]
  show (w.write s.myTable).map _ = _
  rw [hw']
  rfl

end DataTableSupport

namespace FiledSupport

variable {files : Str → Disk} {parts : List (Str × DataTable)} {filename : Str}
  {done : List (Str × Str)} {s : FiledSupport}

theorem Holds.of_eq (h : Holds files parts s) {s' : FiledSupport}
    (hwriter : s'.support.myWriter = s.support.myWriter) (hpath : s'.myOutputPath = s.myOutputPath)
    (hfiles : s'.files = s.files) : Holds files parts s' := by
  rw [Holds, hwriter, hpath, hfiles]
  exact h

/-- The file that is open is that of the last part. -/
theorem Holds.path_ne (h : Holds files parts s) (hne : ∀ part ∈ parts.getLast?, part.1 ≠ filename) :
    (s.support.myWriter.isSome && s.myOutputPath == filename) = false := by
  rw [Holds] at h
  cases hlast : parts.getLast? with
  | none =>
      rw [hlast] at h
      rw [h.1]
      rfl
  | some part =>
      rw [hlast] at h
      have hpath : (s.myOutputPath == filename) = false := by
        rw [h.1]
        exact beq_eq_false_iff_ne.mpr (hne part hlast)
      rw [hpath, Bool.and_false]

theorem close_support (s : FiledSupport) :
    s.close.support = { s.support with myWriter := none } := by
  rw [close]
  split
  · next h => rw [← h]
  · rfl

/-- **A new file is opened.** -/
theorem Holds.createWriter (h : Holds files parts s)
    (hne : ∀ part ∈ parts.getLast?, part.1 ≠ filename) (hname : s.support.myFilename = filename)
    (hsettings : s.support.Settings) (hrunning : s.running = true) (ht : s.support.myTable.Consistent)
    (hblank : ∀ key colName, (key, colName) ∉ done →
      s.support.myTable.cell (s.support.myTable.coordsOf key colName) = []) :
    Writing files parts filename done s.createWriter ∧
      s.createWriter.support.myTable = s.support.myTable := by
  obtain ⟨_, hfiles⟩ := h.close
  have hempty : s.support.myFilename.isEmpty = false := by simpa using hsettings.filename
  have hpath := h.path_ne hne
  rw [← hname] at hpath
  have hcreate : s.createWriter = { s.close with
      support := { s.close.support with disk := s.close.files s.close.support.myFilename }.createWriter
      myOutputPath := s.close.support.myFilename } := by
    rw [FiledSupport.createWriter, hempty, hpath]
    rfl
  have hclosed : s.close.running = s.running := by
    rw [FiledSupport.close]
    split <;> rfl
  rw [hcreate, close_support]
  obtain ⟨hin, htable, hfilename⟩ := DataTableSupport.inRun_createWriter
    (s := { s.support with myWriter := none, disk := s.close.files s.support.myFilename })
    ⟨hsettings.filename, hsettings.clears, hsettings.openable⟩ rfl ht hblank
  exact ⟨⟨hin, hfilename.trans hname, hname, hclosed.trans hrunning, hfiles⟩, htable⟩

/-- An insert goes to the file that is open. -/
theorem Writing.insert (h : Writing files parts filename done s) (i : Insertion)
    (hnew : (i.key, i.colName) ∉ done) :
    ∃ s', s.step (.insert i) = some s' ∧
      Writing files parts filename ((i.key, i.colName) :: done) s' ∧
      s'.support.myTable = s.support.myTable.put i.key i.colName i.value := by
  obtain ⟨support, hsupport, hin, htable⟩ := h.inRun.insert i hnew
  have hname : support.myFilename = s.support.myFilename := by
    have heq : s.support.insert i.order i.key i.colName i.value = some support := hsupport
    rw [DataTableSupport.insert] at heq
    split at heq
    · obtain ⟨_, _, rfl⟩ := Option.map_eq_some_iff.mp heq
      rfl
    · obtain ⟨_, _, rfl⟩ := Option.map_eq_some_iff.mp heq
      rfl
  refine ⟨{ s with support := support }, ?_, ⟨hin, hname.trans h.name_eq, h.path_eq, h.running,
    h.files_eq⟩, htable⟩
  show (s.support.insert i.order i.key i.colName i.value).map _ = _
  rw [show s.support.insert i.order i.key i.colName i.value = some support from hsupport]
  rfl

theorem Writing.inserts (h : Writing files parts filename done s) (inserts : List Insertion)
    (hfresh : Fresh inserts) (hdone : ∀ i ∈ inserts, (i.key, i.colName) ∉ done) :
    ∃ s', run step s (inserts.map FileEvent.insert) = some s' ∧
      Writing files parts filename ((inserts.map fun i => (i.key, i.colName)).reverse ++ done) s' ∧
      s'.support.myTable
        = inserts.foldl (fun t i => t.put i.key i.colName i.value) s.support.myTable := by
  induction inserts generalizing s done with
  | nil => exact ⟨s, rfl, h, rfl⟩
  | cons i inserts ih =>
      rw [Fresh, List.map_cons, List.nodup_cons] at hfresh
      obtain ⟨s₁, hs₁, hin₁, htable₁⟩ := h.insert i (hdone i List.mem_cons_self)
      obtain ⟨s₂, hs₂, hin₂, htable₂⟩ := ih hin₁ hfresh.2 fun j hj hmem => by
        rcases List.mem_cons.mp hmem with heq | hmem
        · exact hfresh.1 (heq ▸ List.mem_map_of_mem hj)
        · exact hdone j (List.mem_cons_of_mem _ hj) hmem
      refine ⟨s₂, ?_, ?_, ?_⟩
      · rw [List.map_cons, run_cons, hs₁]
        exact hs₂
      · rw [List.map_cons, List.reverse_cons, List.append_assoc]
        exact hin₂
      · rw [htable₂, htable₁]
        rfl

/-- Once the table is written, its part is one that the support holds. -/
theorem Writing.written (h : Writing files parts filename done s) :
    ∃ support, s.support.writeTable = some support ∧
      Holds files (parts ++ [(filename, s.support.myTable)]) { s with support := support } ∧
      support.myTable = s.support.myTable ∧ support.Settings ∧
      support.myFilename = filename := by
  obtain ⟨w, hwrite, hfull⟩ := h.inRun.writeTable
  refine ⟨_, hwrite, ?_, rfl, ?_, h.name_eq⟩
  · rw [Holds, List.getLast?_concat, List.dropLast_concat]
    exact ⟨h.path_eq, ⟨w, rfl, hfull⟩, fun path _ => congrFun h.files_eq path⟩
  · have hsettings := h.inRun.toSettings
    exact ⟨hsettings.filename, hsettings.clears, hsettings.openable⟩

/-- **The file is changed while the pipe runs.** -/
theorem Writing.setFilename (h : Writing files parts filename done s) {next : Str}
    (hnext : next ≠ []) (hne : filename ≠ next) :
    ∃ s', s.step (.setFilename next) = some s' ∧
      Writing files (parts ++ [(filename, s.support.myTable)]) next done s' ∧
      s'.support.myTable = s.support.myTable := by
  obtain ⟨support, hwrite, hholds, htable, hsettings, _⟩ := h.written
  let written : FiledSupport :=
    { s with support := { support with myFilename := next }, running := true }
  have hstep : s.step (.setFilename next) = some written.createWriter := by
    show s.setFilename next = _
    rw [FiledSupport.setFilename, h.name_eq, if_neg hne]
    simp only [h.running, if_true, DataTableSupport.writeTable_named, hwrite]
    rfl
  have hlast : ∀ part ∈ (parts ++ [(filename, s.support.myTable)]).getLast?, part.1 ≠ next := by
    intro part hpart
    rw [List.getLast?_concat] at hpart
    obtain rfl := Option.some.inj hpart
    exact hne
  have hwritten : Holds files (parts ++ [(filename, s.support.myTable)]) written :=
    hholds.of_eq rfl rfl rfl
  obtain ⟨hwriting, hsame⟩ := hwritten.createWriter hlast rfl
    ⟨hnext, hsettings.clears, hsettings.openable⟩ rfl (htable ▸ h.inRun.consistent)
    (htable ▸ h.inRun.blank)
  exact ⟨_, hstep, hwriting, hsame.trans htable⟩

/-- **A run starts.** -/
theorem Between.start (h : Between files parts s) (hfilename : filename ≠ [])
    (hne : ∀ part ∈ parts.getLast?, part.1 ≠ filename) :
    ∃ s', run step s [.setFilename filename, .stateChanged .running] = some s' ∧
      Writing files parts filename [] s' ∧ s'.support.myTable = {} := by
  let named : FiledSupport := { s with support := { s.support with myFilename := filename } }
  have hnamed : s.step (.setFilename filename) = some named := by
    show s.setFilename filename = _
    rw [FiledSupport.setFilename]
    split
    · next heq => subst heq; rfl
    · simp [h.stopped, named]
  let running : FiledSupport := { named with running := true }
  have hempty : named.support.myTable = {} := h.table
  have hconsistent : running.support.myTable.Consistent := by
    show named.support.myTable.Consistent
    rw [hempty]
    exact DataTable.consistent_empty
  have hblank : ∀ key colName, (key, colName) ∉ ([] : List (Str × Str)) →
      running.support.myTable.cell (running.support.myTable.coordsOf key colName) = [] := by
    intro key colName _
    show named.support.myTable.cell (named.support.myTable.coordsOf key colName) = []
    rw [hempty]
    exact DataTable.cell_of_numRows_le (Nat.zero_le _)
  have hholds : Holds files parts running := h.holds.of_eq rfl rfl rfl
  obtain ⟨hwriting, hsame⟩ := hholds.createWriter hne rfl ⟨hfilename, h.clears, h.openable⟩ rfl
    hconsistent hblank
  refine ⟨_, ?_, hwriting, hsame.trans hempty⟩
  rw [run_cons, hnamed]
  rfl

/-- **A run ends.** -/
theorem Writing.finished (h : Writing files parts filename done s) :
    ∃ s', s.step (.stateChanged .finished) = some s' ∧
      Between files (parts ++ [(filename, s.support.myTable)]) s' := by
  obtain ⟨support, hwrite, hholds, htable, hsettings, _⟩ := h.written
  let cleared : FiledSupport :=
    { s with support := { support with myTable := support.myTable.clear }, running := false }
  have hcleared : Holds files (parts ++ [(filename, s.support.myTable)]) cleared :=
    hholds.of_eq rfl rfl rfl
  refine ⟨cleared, ?_, hcleared, rfl, rfl, hsettings.clears, hsettings.openable⟩
  have hnotify : s.support.notify .finished
      = some { support with myTable := support.myTable.clear } := by
    show s.support.writeTable.map _ = _
    rw [hwrite, Option.map_some, if_pos hsettings.clears]
  show (s.support.notify .finished).map _ = _
  rw [hnotify]
  rfl

/-! ### Whole runs -/

/-- The files that a run switches to. -/
theorem Writing.switches {t : DataTable} (h : Writing files parts filename done s)
    (htable : s.support.myTable = t) (more : List (Str × List Insertion))
    (hnames : ∀ part ∈ more, part.1 ≠ [])
    (hchain : List.IsChain (· ≠ ·) (filename :: more.map Prod.fst))
    (hfresh : Fresh (more.flatMap Prod.snd))
    (hdone : ∀ i ∈ more.flatMap Prod.snd, (i.key, i.colName) ∉ done) :
    ∃ s', run step s (more.flatMap FileRun.switch ++ [.stateChanged .finished]) = some s' ∧
      Between files (parts ++ (filename, t) :: FileRun.partsFrom t more) s' := by
  induction more generalizing s parts filename done t with
  | nil =>
      obtain ⟨s', hs', hbetween⟩ := h.finished
      rw [htable] at hbetween
      exact ⟨s', by rw [List.flatMap_nil, List.nil_append, run_cons, hs']; rfl, hbetween⟩
  | cons part more ih =>
      obtain ⟨next, inserts⟩ := part
      obtain ⟨hne, hchain'⟩ := List.isChain_cons_cons.mp hchain
      rw [Fresh, List.flatMap_cons, List.map_append, List.nodup_append] at hfresh
      obtain ⟨hfresh₁, hfresh₂, hdisjoint⟩ := hfresh
      obtain ⟨s₁, hs₁, hwriting₁, htable₁⟩ := h.setFilename (hnames _ (by simp)) hne
      obtain ⟨s₂, hs₂, hwriting₂, htable₂⟩ := hwriting₁.inserts inserts hfresh₁ fun i hi =>
        hdone i (List.mem_append_left _ hi)
      rw [htable₁, htable] at htable₂
      rw [htable] at hwriting₂
      obtain ⟨s₃, hs₃, hbetween⟩ := ih hwriting₂ htable₂ (fun part hp => hnames part (by simp [hp]))
        hchain' hfresh₂ fun i hi hmem => by
          rcases List.mem_append.mp hmem with hmem | hmem
          · exact hdisjoint _ (List.mem_reverse.mp hmem) _ (List.mem_map_of_mem hi) rfl
          · exact hdone i (List.mem_append_right _ hi) hmem
      refine ⟨s₃, ?_, ?_⟩
      · rw [List.flatMap_cons, FileRun.switch, List.append_assoc, List.cons_append, run_cons, hs₁,
          Option.bind_some, run_append, hs₂]
        exact hs₃
      · rw [List.append_assoc] at hbetween
        exact hbetween

theorem map_fst_partsFrom (t : DataTable) (l : List (Str × List Insertion)) :
    (FileRun.partsFrom t l).map Prod.fst = l.map Prod.fst := by
  induction l generalizing t with
  | nil => rfl
  | cons part l ih => rw [FileRun.partsFrom, List.map_cons, ih, List.map_cons]

/-- **One run of the pipe.** -/
theorem Between.run (h : Between files parts s) (r : FileRun)
    (hnames : ∀ part ∈ r.parts, part.1 ≠ [])
    (hchain : List.IsChain (· ≠ ·) ((parts ++ r.parts).map Prod.fst)) (hfresh : Fresh r.inserts) :
    ∃ s', StepRuns.run step s r.events = some s' ∧ Between files (parts ++ r.parts) s' := by
  obtain ⟨⟨filename, inserts⟩, more⟩ := r
  rw [List.map_append, List.isChain_append, FileRun.parts, map_fst_partsFrom] at hchain
  obtain ⟨_, hchain, hlast⟩ := hchain
  have hmore : ∀ part ∈ (filename, inserts) :: more, part.1 ≠ [] := by
    intro part hpart
    have hmem : part.1 ∈ (FileRun.parts ⟨(filename, inserts), more⟩).map Prod.fst := by
      rw [FileRun.parts, map_fst_partsFrom]
      exact List.mem_map_of_mem hpart
    obtain ⟨p, hp, heq⟩ := List.mem_map.mp hmem
    exact heq ▸ hnames p hp
  have hne : ∀ part ∈ parts.getLast?, part.1 ≠ filename := by
    intro part hpart
    exact hlast part.1 (by rw [List.getLast?_map]; exact Option.mem_map_of_mem _ hpart) filename rfl
  rw [Fresh, FileRun.inserts, List.map_append, List.nodup_append] at hfresh
  obtain ⟨hfresh₁, hfresh₂, hdisjoint⟩ := hfresh
  obtain ⟨s₀, hs₀, hwriting₀, htable₀⟩ := h.start (hmore (filename, inserts) (by simp)) hne
  obtain ⟨s₁, hs₁, hwriting₁, htable₁⟩ := hwriting₀.inserts inserts hfresh₁ fun _ _ =>
    List.not_mem_nil
  rw [htable₀] at htable₁
  obtain ⟨s₂, hs₂, hbetween⟩ := hwriting₁.switches htable₁ more
    (fun part hp => hmore part (List.mem_cons_of_mem _ hp)) hchain hfresh₂ fun i hi hmem => by
      rw [List.append_nil, List.mem_reverse] at hmem
      exact hdisjoint _ hmem _ (List.mem_map_of_mem hi) rfl
  refine ⟨s₂, ?_, hbetween⟩
  have hevents : FileRun.events ⟨(filename, inserts), more⟩
      = [FileEvent.setFilename filename, .stateChanged .running]
        ++ (inserts.map FileEvent.insert
          ++ (more.flatMap FileRun.switch ++ [.stateChanged .finished])) := by
    simp [FileRun.events]
  rw [hevents, run_append, hs₀, Option.bind_some, run_append, hs₁]
  exact hs₂

/-- **All runs.** -/
theorem Between.runs (h : Between files [] s) (runs : List FileRun)
    (hnames : ∀ part ∈ runs.flatMap FileRun.parts, part.1 ≠ [])
    (hchain : List.IsChain (· ≠ ·) ((runs.flatMap FileRun.parts).map Prod.fst))
    (hfresh : ∀ r ∈ runs, Fresh r.inserts) :
    ∃ s', StepRuns.run step s (runs.flatMap FileRun.events) = some s' ∧
      Between files (runs.flatMap FileRun.parts) s' := by
  induction runs using List.reverseRecOn with
  | nil => exact ⟨s, rfl, h⟩
  | append_singleton runs r ih =>
      rw [List.flatMap_append, List.flatMap_singleton] at hnames hchain
      have hbefore := hchain
      rw [List.map_append, List.isChain_append] at hbefore
      obtain ⟨s₁, hs₁, hbetween₁⟩ := ih (fun part hp => hnames part (List.mem_append_left _ hp))
        hbefore.1 fun r' hr' => hfresh r' (List.mem_append_left _ hr')
      obtain ⟨s₂, hs₂, hbetween₂⟩ := hbetween₁.run r
        (fun part hp => hnames part (List.mem_append_right _ hp)) hchain (hfresh r (by simp))
      refine ⟨s₂, ?_, ?_⟩
      · rw [List.flatMap_append, List.flatMap_singleton, run_append, hs₁]
        exact hs₂
      · rw [List.flatMap_append, List.flatMap_singleton]
        exact hbetween₂

end FiledSupport

/-- What was written to a file last, if nothing of what follows was written to it. -/
theorem closed_of_last (files : Str → Disk) {before after : List (Str × DataTable)}
    {part : Str × DataTable} (h : part.1 ∉ after.map Prod.fst) :
    closed files (before ++ part :: after) part.1 = some (part.2.text [' '] ++ ['\n']) := by
  induction after using List.reverseRecOn with
  | nil => rw [closed_concat, if_pos rfl]
  | append_singleton after later ih =>
      rw [List.map_append, List.mem_append, not_or] at h
      rw [← List.cons_append, ← List.append_assoc, closed_concat, if_neg (by simpa using h.2), ih h.1]

theorem closed_of_notMem (files : Str → Disk) {parts : List (Str × DataTable)} {path : Str}
    (h : path ∉ parts.map Prod.fst) : closed files parts path = files path := by
  induction parts using List.reverseRecOn with
  | nil => rfl
  | append_singleton parts part ih =>
      rw [List.map_append, List.mem_append, not_or] at h
      rw [closed_concat, if_neg (by simpa using h.2), ih h.1]

/-- **Every file holds its table.**  A support makes any number of runs; before each of them it is given
a file name, and in each of them it may be given others, none of them the one that is in use; different
names are names of different files.  In a run no cell is overwritten.  Then nothing fails.  Every file that was named holds the text of the table as
it was when the file was left last, or when the pipe had finished, and behind it a newline, unless it
is the file that is still open; and no other file has changed. -/
theorem files_hold_tables (files : Str → Disk) (runs : List FileRun)
    (hnames : ∀ part ∈ runs.flatMap FileRun.parts, part.1 ≠ [])
    (hchain : List.IsChain (· ≠ ·) ((runs.flatMap FileRun.parts).map Prod.fst))
    (hfresh : ∀ r ∈ runs, Fresh r.inserts) :
    ∃ s, run FiledSupport.step { support := { myFilename := [], disk := none }, files := files }
        (runs.flatMap FileRun.events) = some s ∧ s.support.myTable = {} ∧
      (∀ before part after, runs.flatMap FileRun.parts = before ++ part :: after →
        part.1 ∉ after.map Prod.fst →
        s.file part.1 = some (part.2.text [' '] ++ if after = [] then [] else ['\n'])) ∧
      ∀ path, path ∉ (runs.flatMap FileRun.parts).map Prod.fst → s.file path = files path := by
  have hstart : FiledSupport.Between files []
      { support := { myFilename := [], disk := none }, files := files } :=
    ⟨⟨rfl, rfl⟩, rfl, rfl, rfl, rfl⟩
  obtain ⟨s, hs, hbetween⟩ := hstart.runs runs hnames hchain hfresh
  refine ⟨s, hs, hbetween.table, ?_, ?_⟩
  · intro before part after hparts hlast
    have hholds := hbetween.holds
    rw [hparts] at hholds
    cases after using List.reverseRecOn with
    | nil =>
        rw [hholds.file, if_pos rfl, if_pos rfl, List.append_nil]
    | append_singleton after last =>
        rw [List.map_append, List.mem_append, not_or] at hlast
        rw [← List.cons_append, ← List.append_assoc] at hholds
        rw [hholds.file, if_neg (by simpa using hlast.2), closed_of_last files hlast.1, if_neg (by simp)]
  · intro path hpath
    have hholds := hbetween.holds
    generalize runs.flatMap FileRun.parts = parts at hholds hpath
    cases parts using List.reverseRecOn with
    | nil =>
        obtain ⟨hwriter, hfiles⟩ := hholds
        rw [FiledSupport.file, hwriter, hfiles]
    | append_singleton parts last =>
        rw [List.map_append, List.mem_append, not_or] at hpath
        rw [hholds.file, if_neg (by simpa using hpath.2), closed_of_notMem files hpath.1]

/-- A file, another one in the same run, and the first one again in the next run. -/
theorem files_hold_tables_at :
    ∃ s, run FiledSupport.step { support := { myFilename := [], disk := none }, files := fun _ => none }
        [.setFilename ['f'], .stateChanged .running, .insert ⟨.rowFirst, ['a'], ['x'], ['1']⟩,
          .setFilename ['g'], .insert ⟨.rowFirst, ['b'], ['x'], ['2']⟩, .stateChanged .finished,
          .setFilename ['f'], .stateChanged .running, .insert ⟨.rowFirst, ['c'], ['x'], ['3']⟩,
          .stateChanged .finished] = some s ∧
      s.file ['f'] = some "# [key] x\nc 3".toList ∧
      s.file ['g'] = some "# [key] x\na 1\nb 2\n".toList := by
  let runs : List FileRun := [
    ⟨(['f'], [⟨.rowFirst, ['a'], ['x'], ['1']⟩]), [(['g'], [⟨.rowFirst, ['b'], ['x'], ['2']⟩])]⟩,
    ⟨(['f'], [⟨.rowFirst, ['c'], ['x'], ['3']⟩]), []⟩]
  obtain ⟨s, hs, _, hfiles, _⟩ := files_hold_tables (fun _ => none) runs (by decide) (by decide)
    (by decide)
  refine ⟨s, hs, ?_, ?_⟩
  · have hlast := hfiles ((runs.flatMap FileRun.parts).take 2) _ [] rfl (by decide)
    exact hlast.trans (by decide)
  · have hleft := hfiles ((runs.flatMap FileRun.parts).take 1) _ ((runs.flatMap FileRun.parts).drop 2)
      rfl (by decide)
    exact hleft.trans (by decide)

end StructurePipe.Utility
