import StructurePipe.Common.Paths
import StructurePipe.Common.PipeFunctions

/-!
# Writing structures

`WriteStructures` writes every structure that passes to a file: to one that all structures share, if
it is set to and the writer can put several structures in a file, or to one named after the structure.

`setWriteMulti` takes no notice of its argument, so the block cannot be told to write to separate
files: whether it does is decided by the writer alone.  If it does, different names make different
paths, unless they differ in nothing but how many separators stand somewhere in them.

* `generateLocator_of_named` — the locator of a structure that has a name;
* `input_eq` — what a started block writes is what `generateLocator` names;
* `savePath_injOn` — names that do not start with a separator make paths that are different strings;
* `separate_paths_nodup_iff` — when the names make different paths;
* `single_structure_paths_nodup_iff` — **when the paths of a block told to write to separate files are
  different.**
-/

namespace StructurePipe.Blocks

open StructurePipe.Common

/-- What the block asks of an `IStructureWriter`. -/
structure StructureWriter where
  multiStructureSupport : Bool
deriving DecidableEq, Repr

structure StructureReadWriteManager where
  getWriter : Str → Option StructureWriter
  getDefaultWriter : Option StructureWriter

/-- What the block reads of its engine: the names of the run and of the instance, the writers, what
`workingDir` returns, and the source of unique names. -/
structure WriteStructuresEngine (ρ : Type*) where
  seedName : Str
  instanceName : Str
  workingDir : Path
  structureIo : StructureReadWriteManager
  generateUniqueName : ρ → Str × ρ

namespace WriteStructures

inductive State where
  | DISABLED
  | USE_CUSTOM_WRITER
  | USE_DEFAULT_WRITER
deriving DecidableEq, Repr

end WriteStructures

/-- The block; the defaults are those of the constructor. -/
structure WriteStructures where
  myState : WriteStructures.State := .DISABLED
  myWriteMultiStructure : Bool := true
  myMultiStructureFromPath : Bool := false
  myFileType : Str := []
deriving DecidableEq, Repr

namespace WriteStructures

variable {γ ρ : Type*}

def getWriteMulti (b : WriteStructures) : Bool := b.myWriteMultiStructure

/-- The argument is not used. -/
def setWriteMulti (b : WriteStructures) (_writeMulti : Bool) : WriteStructures :=
  { b with myWriteMultiStructure := true }

def setFileType (b : WriteStructures) (extension : Str) : WriteStructures :=
  { b with myFileType := extension }

def pipelineStarting (b : WriteStructures) (rwMan : StructureReadWriteManager) : WriteStructures :=
  if !b.myFileType.isEmpty && (rwMan.getWriter b.myFileType).isSome then
    { b with myState := .USE_CUSTOM_WRITER }
  else if rwMan.getDefaultWriter.isSome then
    { b with myState := .USE_DEFAULT_WRITER }
  else
    { b with myState := .DISABLED }

def useMultiStructure (b : WriteStructures) (writer : StructureWriter) : Bool :=
  b.myWriteMultiStructure && writer.multiStructureSupport

/-- The path in `generateLocator`, for a structure of this name. -/
def savePath (b : WriteStructures) (engine : WriteStructuresEngine ρ) (writer : StructureWriter)
    (name : Str) : Path :=
  let p := engine.workingDir
  let p :=
    if b.useMultiStructure writer then
      if b.myMultiStructureFromPath then p
      else p.append (getOutputFileStem engine.instanceName engine.seedName)
    else p.append name
  if b.myState = .USE_CUSTOM_WRITER then p ++ ['.'] ++ b.myFileType else p

/-- `generateLocator`: the structure, which gets a name if it has none, and its locator. -/
def generateLocator (b : WriteStructures) (engine : WriteStructuresEngine ρ)
    (writer : StructureWriter) (structure_ : NamedStructure γ) (rng : ρ) :
    NamedStructure γ × ResourceLocator × ρ :=
  let (structure_, rng) :=
    structure_.setNameIfNeeded engine.generateUniqueName engine.seedName rng
  (structure_, ⟨b.savePath engine writer structure_.name, structure_.name⟩, rng)

/-- `in`: the structure sent out, and the locator it was written to if it was written. -/
def input (b : WriteStructures) (engine : WriteStructuresEngine ρ) (structure_ : NamedStructure γ)
    (rng : ρ) : NamedStructure γ × Option ResourceLocator × ρ :=
  let writer :=
    match b.myState with
    | .DISABLED => none
    | .USE_CUSTOM_WRITER => engine.structureIo.getWriter b.myFileType
    | .USE_DEFAULT_WRITER => engine.structureIo.getDefaultWriter
  match writer with
  | none => (structure_, none, rng)
  | some writer =>
      let (structure_, saveLocation, rng) := b.generateLocator engine writer structure_ rng
      (structure_, some saveLocation, rng)

/-- The locators of a sequence of structures. -/
def locators (b : WriteStructures) (engine : WriteStructuresEngine ρ) (writer : StructureWriter) :
    List (NamedStructure γ) → ρ → List ResourceLocator
  | [], _ => []
  | structure_ :: structures, rng =>
      let (_, locator, rng) := b.generateLocator engine writer structure_ rng
      locator :: b.locators engine writer structures rng

/-! ### One structure -/

variable (b : WriteStructures) (engine : WriteStructuresEngine ρ) (writer : StructureWriter)

theorem generateLocator_of_named {structure_ : NamedStructure γ} (hname : structure_.name ≠ [])
    (rng : ρ) :
    b.generateLocator engine writer structure_ rng
      = (structure_, ⟨b.savePath engine writer structure_.name, structure_.name⟩, rng) := by
  rw [generateLocator, structure_.setNameIfNeeded_of_named _ _ hname]

/-- **A started block.**  It has a writer, and writes to the locator that `generateLocator` makes for
it, unless there is neither a writer for its file type nor a default one. -/
theorem input_eq (structure_ : NamedStructure γ) (rng : ρ) :
    let started := b.pipelineStarting engine.structureIo
    (started.myState = .DISABLED ∧
        started.input engine structure_ rng = (structure_, none, rng)) ∨
      ∃ writer, started.input engine structure_ rng =
        ((started.generateLocator engine writer structure_ rng).1,
          some (started.generateLocator engine writer structure_ rng).2.1,
          (started.generateLocator engine writer structure_ rng).2.2) := by
  intro started
  have hstarted : started = b.pipelineStarting engine.structureIo := rfl
  rw [pipelineStarting] at hstarted
  split at hstarted
  · next hcustom =>
      rw [Bool.and_eq_true, Option.isSome_iff_exists] at hcustom
      obtain ⟨_, writer, hwriter⟩ := hcustom
      refine Or.inr ⟨writer, ?_⟩
      rw [input, hstarted]
      simp only [hwriter]
  · split at hstarted
    · next hdefault =>
        obtain ⟨writer, hwriter⟩ := Option.isSome_iff_exists.mp hdefault
        refine Or.inr ⟨writer, ?_⟩
        rw [input, hstarted]
        simp only [hwriter]
    · refine Or.inl ⟨by rw [hstarted], ?_⟩
      rw [input, hstarted]

/-! ### All structures -/

/-- Structures that have names are given locators by their names. -/
theorem locators_of_named {structures : List (NamedStructure γ)}
    (hnames : ∀ s ∈ structures, s.name ≠ []) (rng : ρ) :
    (b.locators engine writer structures rng).map ResourceLocator.path
      = (structures.map NamedStructure.name).map (b.savePath engine writer) := by
  induction structures with
  | nil => rfl
  | cons s structures ih =>
      obtain ⟨hname, hnames⟩ := List.forall_mem_cons.mp hnames
      rw [locators, generateLocator_of_named b engine writer hname]
      simp only [List.map_cons, ih hnames]

/-- With one file for all structures the name does not matter. -/
theorem savePath_of_multi (hmulti : b.useMultiStructure writer = true) (name name' : Str) :
    b.savePath engine writer name = b.savePath engine writer name' := by
  simp [savePath, hmulti]

theorem shared_paths_nodup_iff (hmulti : b.useMultiStructure writer = true) (names : List Str) :
    (names.map fun name => (b.savePath engine writer name).elements).Nodup ↔ names.length ≤ 1 := by
  cases names with
  | nil => simp
  | cons name names => cases names with
      | nil => simp
      | cons name' names =>
          have hsame := savePath_of_multi b engine writer hmulti name name'
          simp [hsame]

/-- What is added to a name. -/
def extension (b : WriteStructures) : Str :=
  if b.myState = .USE_CUSTOM_WRITER then '.' :: b.myFileType else []

/-- The path of a file of its own: the name with its extension, behind the working directory. -/
theorem savePath_of_separate (hmulti : b.useMultiStructure writer = false) {name : Str}
    (hname : name ≠ []) :
    b.savePath engine writer name = engine.workingDir.append (name ++ b.extension) := by
  rw [← Path.append_append hname, savePath, hmulti, extension]
  by_cases hcustom : b.myState = .USE_CUSTOM_WRITER
  · simp [hcustom]
  · simp [hcustom]

/-- Names that do not start with a separator make paths that are different strings. -/
theorem savePath_injOn (hmulti : b.useMultiStructure writer = false) {name name' : Str}
    (hname : name ≠ []) (hname' : name' ≠ []) (hhead : name.head? ≠ some '/')
    (hhead' : name'.head? ≠ some '/')
    (h : b.savePath engine writer name = b.savePath engine writer name') : name = name' := by
  have hext : ∀ {n : Str}, n ≠ [] → n.head? ≠ some '/' →
      b.savePath engine writer n = engine.workingDir.withSeparator ++ (n ++ b.extension) := by
    intro n hn hslash
    rw [savePath_of_separate b engine writer hmulti hn,
      Path.append_of_name (List.append_ne_nil_of_left_ne_nil hn _)
        (by rwa [List.head?_append_of_ne_nil _ hn])]
  rw [hext hname hhead, hext hname' hhead'] at h
  exact List.append_cancel_right (List.append_cancel_left h)

/-- **Separate files.**  The names make different paths if what shows of them behind the working
directory is different. -/
theorem separate_paths_nodup_iff (hmulti : b.useMultiStructure writer = false) {names : List Str}
    (hnonempty : ∀ name ∈ names, name ≠ []) :
    (names.map fun name => (b.savePath engine writer name).elements).Nodup ↔
      (names.map fun name => engine.workingDir.behind (name ++ b.extension)).Nodup := by
  have hpath : ∀ name ∈ names, b.savePath engine writer name
      = engine.workingDir.append (name ++ b.extension) := fun name hname =>
    savePath_of_separate b engine writer hmulti (hnonempty name hname)
  have hne : ∀ name ∈ names, name ++ b.extension ≠ [] := fun name hname =>
    List.append_ne_nil_of_left_ne_nil (hnonempty name hname) _
  unfold List.Nodup
  rw [List.pairwise_map, List.pairwise_map]
  refine List.Pairwise.iff_of_mem fun {name name'} hname hname' => not_congr ?_
  rw [hpath name hname, hpath name' hname',
    Path.elements_append_eq_iff (hne name hname) (hne name' hname')]

/-- **When the paths are different,** after the block was told to write to separate files: for at most
one structure, or if the writer cannot put several structures in a file and the names, with the
extension, are different behind the working directory: as lists of the names between separators, if
that directory is more than a root. -/
theorem single_structure_paths_nodup_iff {structures : List (NamedStructure γ)} (rng : ρ)
    (hnonempty : ∀ s ∈ structures, s.name ≠ []) :
    (((b.setWriteMulti false).locators engine writer structures rng).map fun locator =>
        locator.path.elements).Nodup ↔
      structures.length ≤ 1 ∨ writer.multiStructureSupport = false ∧
        (structures.map fun s => engine.workingDir.behind (s.name ++ b.extension)).Nodup := by
  have hnames : ∀ name ∈ structures.map NamedStructure.name, name ≠ [] :=
    List.forall_mem_map.mpr hnonempty
  have huse : (b.setWriteMulti false).useMultiStructure writer = writer.multiStructureSupport :=
    Bool.true_and _
  have hpaths : ((b.setWriteMulti false).locators engine writer structures rng).map
        (fun locator => locator.path.elements)
      = (structures.map NamedStructure.name).map fun name =>
          ((b.setWriteMulti false).savePath engine writer name).elements := by
    have hlocators := congrArg (List.map Path.elements)
      (locators_of_named (b.setWriteMulti false) engine writer hnonempty rng)
    rw [List.map_map, List.map_map] at hlocators
    exact hlocators
  rw [hpaths]
  cases hsupport : writer.multiStructureSupport with
  | true =>
      rw [shared_paths_nodup_iff _ engine writer (huse.trans hsupport), List.length_map]
      simp
  | false =>
      rw [separate_paths_nodup_iff _ engine writer (huse.trans hsupport) hnames, List.map_map]
      refine ⟨fun hcond => Or.inr ⟨rfl, hcond⟩, ?_⟩
      rintro (hshort | ⟨_, hcond⟩)
      · match structures, hshort with
        | [], _ => exact List.nodup_nil
        | [only], _ => exact List.nodup_singleton _
      · exact hcond

/-- A run in a directory, with a writer for one structure at a time. -/
def plainEngine : WriteStructuresEngine ℕ where
  seedName := ['s']
  instanceName := []
  workingDir := ['d']
  structureIo := ⟨fun _ => none, some ⟨false⟩⟩
  generateUniqueName rng := (decimal rng, rng + 1)

/-- Names that differ in the number of separators are one path. -/
example : Path.elements ['d', '/', 'b'] = Path.elements ['d', '/', '/', 'b'] := by decide

/-- Two structures, and a file type of their own. -/
theorem single_structure_paths_nodup_iff_at :
    ((({ myState := .USE_CUSTOM_WRITER, myFileType := ['r'] } : WriteStructures).setWriteMulti
        false).locators plainEngine ⟨false⟩ [⟨['a'], ()⟩, ⟨['b'], ()⟩] 0 |>.map fun locator =>
          locator.path.elements).Nodup :=
  (single_structure_paths_nodup_iff
    { myState := .USE_CUSTOM_WRITER, myFileType := ['r'] } plainEngine ⟨false⟩ 0
    (by decide)).mpr (Or.inr ⟨rfl, by decide⟩)

/-- **Told to write to separate files, the block writes to one.** -/
theorem single_structures_share_a_file :
    let engine := { plainEngine with structureIo := ⟨fun _ => none, some ⟨true⟩⟩ }
    let told := WriteStructures.setWriteMulti {} false
    let started := told.pipelineStarting engine.structureIo
    told.getWriteMulti = true ∧ started.myState = .USE_DEFAULT_WRITER ∧
      (started.locators engine ⟨true⟩ [⟨['a'], ()⟩, ⟨['b'], ()⟩] 0).map ResourceLocator.path
        = [['d', '/', 's'], ['d', '/', 's']] ∧
      ¬ ((started.locators engine ⟨true⟩ [⟨['a'], ()⟩, ⟨['b'], ()⟩] 0).map fun locator =>
          locator.path.elements).Nodup := by
  intro engine told started
  exact ⟨rfl, rfl, by decide, by decide⟩

end WriteStructures

end StructurePipe.Blocks
