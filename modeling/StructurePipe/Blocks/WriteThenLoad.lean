import StructurePipe.Blocks.LoadStructures
import StructurePipe.Blocks.WriteStructures
import Mathlib.Data.List.Dedup

/-!
# Writing structures and loading them again

`WriteStructures` and `LoadStructures` leave the files themselves to the structure library.
`StructureDisk` is what they ask of it, and `Lawful` what they rely on: a file holds what was written
to it last, or everything that was written to it if the writer can put several structures in a file.

* `writeAll_eq` — what a started block does with a sequence of structures;
* `content_of_separate`, `content_of_shared` — what is in the files then;
* `written_structures_load` — **what was written is loaded, in the order in which it was written.**
-/

namespace StructurePipe.Blocks

open StructurePipe.Common TextLines

/-- What the blocks ask of the files with structures in them. -/
structure StructureDisk (γ σ : Type*) where
  files : σ → StructureFiles γ
  writeStructure : NamedStructure γ → ResourceLocator → σ → σ

namespace StructureDisk

variable {γ σ : Type*} (D : StructureDisk γ σ)

/-- The structures in a file, if it is one. -/
def content (disk : σ) (p : Path) : Option (List (NamedStructure γ)) :=
  if (D.files disk).fileExists p && (D.files disk).isRegularFile p then
    some ((D.files disk).readStructures { path := p })
  else none

/-- What the blocks rely on, for a writer and the paths of some files, of which different ones are the
paths of different files.  A structure that is written to a file is the only one in it, or comes behind
those with other names that are there; other files stay as they are, and the text of a path is a locator
for all structures there. -/
structure Lawful (writer : StructureWriter) (isPath : Path → Prop) : Prop where
  written : ∀ x loc disk, isPath loc.path → loc.id = x.name →
    (writer.multiStructureSupport = true →
      ∀ y ∈ (D.content disk loc.path).getD [], y.name ≠ x.name) →
    D.content (D.writeStructure x loc disk) loc.path
      = some ((if writer.multiStructureSupport then (D.content disk loc.path).getD [] else []) ++ [x])
  others : ∀ x loc disk p, isPath loc.path → isPath p → p ≠ loc.path →
    D.content (D.writeStructure x loc disk) p = D.content disk p
  locator : ∀ disk p, isPath p → (D.files disk).setLocator p = some { path := p }

end StructureDisk

namespace WriteStructures

variable {γ ρ σ : Type*}

/-- The writer that `in` takes. -/
def usedWriter (b : WriteStructures) (engine : WriteStructuresEngine ρ) : Option StructureWriter :=
  match b.myState with
  | .DISABLED => none
  | .USE_CUSTOM_WRITER => engine.structureIo.getWriter b.myFileType
  | .USE_DEFAULT_WRITER => engine.structureIo.getDefaultWriter

/-- `in` for one structure after the other: those sent out, and the disk. -/
def writeAll (D : StructureDisk γ σ) (b : WriteStructures) (engine : WriteStructuresEngine ρ) :
    List (NamedStructure γ) → ρ → σ → List (NamedStructure γ) × σ
  | [], _, disk => ([], disk)
  | structure_ :: structures, rng, disk =>
      let (structure_, saveLocation, rng) := b.input engine structure_ rng
      let disk :=
        match saveLocation with
        | none => disk
        | some saveLocation => D.writeStructure structure_ saveLocation disk
      let (sent, disk) := writeAll D b engine structures rng disk
      (structure_ :: sent, disk)

/-- Starting a block leaves its setting for files alone. -/
theorem pipelineStarting_multi (b : WriteStructures) (rwMan : StructureReadWriteManager) :
    (b.pipelineStarting rwMan).myWriteMultiStructure = b.myWriteMultiStructure := by
  rw [pipelineStarting]
  split
  · rfl
  · split <;> rfl

section Written

variable (D : StructureDisk γ σ) (b : WriteStructures) (engine : WriteStructuresEngine ρ)
  (writer : StructureWriter)

/-- Where a structure is written to. -/
def saveLocator (x : NamedStructure γ) : ResourceLocator :=
  ⟨b.savePath engine writer x.name, x.name⟩

/-- The disk after some structures were written. -/
def written (xs : List (NamedStructure γ)) (disk : σ) : σ :=
  xs.foldl (fun disk x => D.writeStructure x (b.saveLocator engine writer x) disk) disk

variable {D b engine writer}

theorem input_of_used (hused : b.usedWriter engine = some writer) (x : NamedStructure γ) (rng : ρ) :
    b.input engine x rng = ((b.generateLocator engine writer x rng).1,
      some (b.generateLocator engine writer x rng).2.1,
      (b.generateLocator engine writer x rng).2.2) := by
  unfold usedWriter at hused
  unfold input
  cases hstate : b.myState with
  | DISABLED => simp [hstate] at hused
  | USE_CUSTOM_WRITER =>
      simp only [hstate] at hused ⊢
      rw [hused]
  | USE_DEFAULT_WRITER =>
      simp only [hstate] at hused ⊢
      rw [hused]

/-- **What a started block does:** each structure gets a name if it has none, is written to its file
and sent out. -/
theorem writeAll_eq (hused : b.usedWriter engine = some writer) (xs : List (NamedStructure γ))
    (rng : ρ) (disk : σ) :
    let sent := (LoadStructures.start engine.generateUniqueName engine.seedName xs rng).1
    writeAll D b engine xs rng disk = (sent, written D b engine writer sent disk) := by
  intro sent
  induction xs generalizing rng disk with
  | nil => rfl
  | cons x xs ih =>
      rw [writeAll, input_of_used hused]
      simp only [ih]
      rfl

/-! ### What is in the files -/

variable {isPath : Path → Prop} (hD : D.Lawful writer isPath)

include hD

/-- The files that are not written to stay as they are. -/
theorem content_written_of_notMem {xs : List (NamedStructure γ)} (disk : σ) {p : Path} (hp : isPath p)
    (hpath : ∀ x ∈ xs, isPath (b.savePath engine writer x.name))
    (h : ∀ x ∈ xs, (b.saveLocator engine writer x).path ≠ p) :
    D.content (written D b engine writer xs disk) p = D.content disk p := by
  induction xs generalizing disk with
  | nil => rfl
  | cons x xs ih =>
      obtain ⟨hx, hxs⟩ := List.forall_mem_cons.mp h
      obtain ⟨hthis, hpath⟩ := List.forall_mem_cons.mp hpath
      have hstep : written D b engine writer (x :: xs) disk = written D b engine writer xs
          (D.writeStructure x (b.saveLocator engine writer x) disk) := rfl
      rw [hstep, ih _ hpath hxs, hD.others x (b.saveLocator engine writer x) disk p hthis hp hx.symm]

/-- **Separate files:** each structure is alone in its own. -/
theorem content_of_separate (hsupport : writer.multiStructureSupport = false)
    {xs : List (NamedStructure γ)} (disk : σ)
    (hpath : ∀ x ∈ xs, isPath (b.savePath engine writer x.name))
    (hnodup : (xs.map fun x => b.savePath engine writer x.name).Nodup) :
    ∀ x ∈ xs, D.content (written D b engine writer xs disk) (b.savePath engine writer x.name)
      = some [x] := by
  induction xs generalizing disk with
  | nil => exact fun x hx => absurd hx List.not_mem_nil
  | cons x xs ih =>
      obtain ⟨hx, hxs⟩ := List.forall_mem_cons.mp hpath
      obtain ⟨hnew, hnodup⟩ := List.nodup_cons.mp hnodup
      refine List.forall_mem_cons.mpr ⟨?_, ih _ hxs hnodup⟩
      have hlater : ∀ y ∈ xs, (b.saveLocator engine writer y).path
          ≠ b.savePath engine writer x.name := fun y hy heq =>
        hnew (List.mem_map.mpr ⟨y, hy, heq⟩)
      have hstep : written D b engine writer (x :: xs) disk = written D b engine writer xs
          (D.writeStructure x (b.saveLocator engine writer x) disk) := rfl
      have hmulti : writer.multiStructureSupport = true →
          ∀ y ∈ (D.content disk (b.savePath engine writer x.name)).getD [], y.name ≠ x.name := by
        simp [hsupport]
      have hwritten := hD.written x (b.saveLocator engine writer x) disk hx rfl hmulti
      rw [hsupport] at hwritten
      rw [hstep, content_written_of_notMem hD _ hx hxs hlater]
      exact hwritten

/-- **A shared file:** the structures are in it in the order in which they were written. -/
theorem content_of_shared (hsupport : writer.multiStructureSupport = true) {p : Path} (hp : isPath p)
    {xs : List (NamedStructure γ)} (hshared : ∀ x ∈ xs, b.savePath engine writer x.name = p)
    (disk : σ) (hnodup : (((D.content disk p).getD [] ++ xs).map NamedStructure.name).Nodup) :
    (D.content (written D b engine writer xs disk) p).getD [] = (D.content disk p).getD [] ++ xs := by
  induction xs generalizing disk with
  | nil => exact (List.append_nil _).symm
  | cons x xs ih =>
      obtain ⟨hx, hxs⟩ := List.forall_mem_cons.mp hshared
      have hpath : (b.saveLocator engine writer x).path = p := hx
      have hother : ∀ y ∈ (D.content disk p).getD [], y.name ≠ x.name := by
        intro y hy hname
        rw [List.map_append, List.nodup_append] at hnodup
        exact hnodup.2.2 _ (List.mem_map_of_mem hy) _ (by simp) hname
      have hwritten := hD.written x (b.saveLocator engine writer x) disk (hpath ▸ hp) rfl
        fun _ => hpath ▸ hother
      rw [hpath, hsupport, if_pos rfl] at hwritten
      have hstep : written D b engine writer (x :: xs) disk = written D b engine writer xs
          (D.writeStructure x (b.saveLocator engine writer x) disk) := rfl
      have hnext : (D.content disk p).getD [] ++ x :: xs
          = (D.content (D.writeStructure x (b.saveLocator engine writer x) disk) p).getD [] ++ xs := by
        rw [hwritten, Option.getD_some, List.append_assoc, List.singleton_append]
      rw [hstep, hnext]
      rw [hnext] at hnodup
      exact ih hxs _ hnodup

end Written

end WriteStructures

/-! ### Loading them again -/

section Load

open WriteStructures

variable {γ ρ ρ' σ : Type*}

theorem LoadStructures.load_of_content {D : StructureDisk γ σ} {disk : σ} {p : Path}
    {ys : List (NamedStructure γ)} (hlocator : (D.files disk).setLocator p = some { path := p })
    (hplain : '*' ∉ p) (h : D.content disk p = some ys) :
    LoadStructures.load (D.files disk) p = ys := by
  rw [StructureDisk.content] at h
  split at h
  · next hfile =>
      rw [Bool.and_eq_true] at hfile
      rw [LoadStructures.load, if_neg hplain, LoadStructures.denotes, if_neg hplain, hlocator]
      simp only [hfile.1, if_true, LoadStructures.structuresAt, hfile.2, true_or]
      exact Option.some.inj h
  · exact absurd h (by simp)

/-- Structures that have names are sent out as they are. -/
theorem LoadStructures.start_of_named (generateUniqueName : ρ → Str × ρ) (seedName : Str)
    {xs : List (NamedStructure γ)} (h : ∀ x ∈ xs, x.name ≠ []) (rng : ρ) :
    (LoadStructures.start generateUniqueName seedName xs rng).1 = xs := by
  induction xs generalizing rng with
  | nil => rfl
  | cons x xs ih =>
      obtain ⟨hx, hxs⟩ := List.forall_mem_cons.mp h
      rw [LoadStructures.start, x.setNameIfNeeded_of_named generateUniqueName seedName hx]
      simp only [ih hxs]

/-- The structures that were written can be found again: they have names, their paths can be read as
entries, and they are apart, each in a file of its own or by their names in a new file. -/
structure Findable (D : StructureDisk γ σ) (writer : StructureWriter) (isPath : Path → Prop)
    (path : NamedStructure γ → Path) (disk : σ) (sent : List (NamedStructure γ)) : Prop where
  named : ∀ x ∈ sent, x.name ≠ []
  isPath : ∀ x ∈ sent, isPath (path x)
  plain : ∀ x ∈ sent, '*' ∉ path x
  separate : writer.multiStructureSupport = false → (sent.map path).Nodup
  shared : writer.multiStructureSupport = true →
    (sent.map NamedStructure.name).Nodup ∧ ∀ x ∈ sent, (D.content disk (path x)).getD [] = []

/-- **What was written is loaded.**  A block is made for a file type, told whether to write to separate
files, and started with a writer for it.  Structures pass through it and are written, and a text names
their files, one a line and each once.  A block that loads this text then sends out the structures that
the first one sent out, in the same order. -/
theorem written_structures_load (D : StructureDisk γ σ) {writer : StructureWriter}
    {isPath : Path → Prop} (hD : D.Lawful writer isPath) (format : Str) (multiWrite : Bool)
    (engine : WriteStructuresEngine ρ) (xs : List (NamedStructure γ)) (rng : ρ) (disk : σ) (seed : Str)
    (generateUniqueName : ρ' → Str × ρ') (seedName : Str) (rng' : ρ') :
    let b := ((({} : WriteStructures).setFileType format).setWriteMulti multiWrite).pipelineStarting
      engine.structureIo
    let path := fun x : NamedStructure γ => b.savePath engine writer x.name
    let (sent, disk') := writeAll D b engine xs rng disk
    b.usedWriter engine = some writer →
    Findable D writer isPath path disk sent →
    lines '\n' seed = (sent.map path).dedup →
    (LoadStructures.run generateUniqueName seedName (D.files disk')
      { mySeedStructuresString := seed } rng').1 = sent := by
  intro b path
  split
  next sent disk' hall =>
  intro hused hfindable hseed
  obtain ⟨hsent, hdisk⟩ := Prod.mk.inj ((writeAll_eq hused xs rng disk).symm.trans hall)
  rw [hsent] at hdisk
  subst hdisk
  have hload : ∀ x ∈ sent, ∀ ys, D.content (written D b engine writer sent disk) (path x) = some ys →
      LoadStructures.load (D.files (written D b engine writer sent disk)) (path x) = ys :=
    fun x hx ys => LoadStructures.load_of_content (hD.locator _ _ (hfindable.isPath x hx))
      (hfindable.plain x hx)
  -- the entries together load everything
  have hloaded : (lines '\n' seed).flatMap
      (LoadStructures.load (D.files (written D b engine writer sent disk))) = sent := by
    rw [hseed]
    cases hsupport : writer.multiStructureSupport with
    | false =>
        have hnodup := hfindable.separate hsupport
        have hcontent : ∀ x ∈ sent, D.content (written D b engine writer sent disk) (path x)
            = some [x] := content_of_separate hD hsupport disk hfindable.isPath hnodup
        rw [hnodup.dedup, List.flatMap_map]
        have hone : ∀ x ∈ sent, LoadStructures.load
            (D.files (written D b engine writer sent disk)) (path x) = [x] := fun x hx =>
          hload x hx _ (hcontent x hx)
        rw [List.flatMap_congr hone]
        exact List.flatMap_singleton' sent
    | true =>
        obtain ⟨hnames, hnew⟩ := hfindable.shared hsupport
        cases sent with
        | nil => rfl
        | cons x sent =>
            have hmulti : b.useMultiStructure writer = true := by
              rw [useMultiStructure, pipelineStarting_multi, hsupport]
              rfl
            have hshared : ∀ y ∈ x :: sent, path y = path x := fun y _ =>
              savePath_of_multi b engine writer hmulti y.name x.name
            have hpaths : (x :: sent).map path = List.replicate (x :: sent).length (path x) := by
              rw [List.eq_replicate_iff, List.length_map]
              exact ⟨rfl, List.forall_mem_map.mpr hshared⟩
            have hempty := hnew x (by simp)
            have hcontent : (D.content (written D b engine writer (x :: sent) disk) (path x)).getD []
                = (D.content disk (path x)).getD [] ++ x :: sent :=
              content_of_shared hD hsupport (hfindable.isPath x (by simp)) hshared disk
                (by rwa [hempty, List.nil_append])
            rw [hempty, List.nil_append, Option.getD_eq_iff] at hcontent
            have hfile := hcontent.resolve_right fun h => by simp at h
            rw [hpaths, List.replicate_dedup (by simp), List.flatMap_singleton]
            exact hload x (by simp) _ hfile
  have hstructures := (LoadStructures.pipelineInitialising_twice
    (D.files (written D b engine writer sent disk)) seed).1
  rw [LoadStructures.run]
  simp only [hstructures, hloaded]
  exact LoadStructures.start_of_named generateUniqueName seedName hfindable.named rng'

end Load

/-- Files by their paths, with a writer that replaces what is there or adds to it. -/
def mapDisk (writer : StructureWriter) :
    StructureDisk Unit (Path → Option (List (NamedStructure Unit))) where
  files disk :=
    { fileExists := fun p => (disk p).isSome
      isRegularFile := fun p => (disk p).isSome
      isDirectory := fun _ => false
      setLocator := fun entry => some { path := entry }
      getWildcardPaths := fun _ => none
      readStructures := fun loc => (disk loc.path).getD [] }
  writeStructure x loc disk := Function.update disk loc.path (some
    ((if writer.multiStructureSupport then ((disk loc.path).getD []).filter (fun y => y.name ≠ x.name)
      else []) ++ [x]))

theorem content_mapDisk (writer : StructureWriter) (disk : Path → Option (List (NamedStructure Unit)))
    (p : Path) : (mapDisk writer).content disk p = disk p := by
  rw [StructureDisk.content]
  cases hfile : disk p with
  | none => simp [mapDisk, hfile]
  | some ys => simp [mapDisk, hfile]

theorem lawful_mapDisk (writer : StructureWriter) : (mapDisk writer).Lawful writer fun _ => True where
  written x loc disk _ _ hother := by
    rw [content_mapDisk, content_mapDisk] at *
    show Function.update disk loc.path _ loc.path = _
    rw [Function.update_self]
    cases hsupport : writer.multiStructureSupport with
    | false => rfl
    | true =>
        have hall : ((disk loc.path).getD []).filter (fun y => y.name ≠ x.name)
            = (disk loc.path).getD [] :=
          List.filter_eq_self.mpr fun y hy => decide_eq_true (hother hsupport y hy)
        rw [if_pos rfl, if_pos rfl, hall]
  others x loc disk p _ _ hne := by
    rw [content_mapDisk, content_mapDisk]
    exact Function.update_of_ne hne _ _
  locator _ _ _ := rfl

/-- Two structures in one file, of which the second gets its name when it is written. -/
theorem written_structures_load_at :
    let engine := { WriteStructures.plainEngine with structureIo := ⟨fun _ => none, some ⟨true⟩⟩ }
    let started := ((({} : WriteStructures).setFileType []).setWriteMulti true).pipelineStarting
      engine.structureIo
    let (sent, disk) := WriteStructures.writeAll (mapDisk ⟨true⟩) started engine
      [⟨['a'], ()⟩, ⟨[], ()⟩] 0 fun _ => none
    sent = [⟨['a'], ()⟩, ⟨['s', '-', '0'], ()⟩] ∧
      (LoadStructures.run (fun rng : ℕ => (decimal rng, rng + 1)) []
        ((mapDisk ⟨true⟩).files disk) { mySeedStructuresString := ['d', '/', 's'] } 0).1 = sent := by
  refine ⟨by decide, ?_⟩
  refine written_structures_load (mapDisk ⟨true⟩) (lawful_mapDisk ⟨true⟩) [] true
    { WriteStructures.plainEngine with structureIo := ⟨fun _ => none, some ⟨true⟩⟩ }
    [⟨['a'], ()⟩, ⟨[], ()⟩] 0 (fun _ => none) ['d', '/', 's'] _ [] 0 rfl ?_ (by decide)
  exact ⟨by decide, fun _ _ => trivial, by decide, by decide, fun _ =>
    ⟨by decide, fun x _ => by rw [content_mapDisk]; rfl⟩⟩

end StructurePipe.Blocks
