import StructurePipe.Common.Paths
import StructurePipe.Common.PipeFunctions

/-!
# Loading structures

`LoadStructures` starts a pipeline with the structures that a list of entries denotes, one entry a
line: a file, a folder, or a wildcard for files and folders.  They are read once and copied for every
run.

A folder that is named is read like a file; a folder that a wildcard matches is passed over, though
the block is documented to take it.  Nothing else goes wrong, so what is loaded is always part of what
is denoted, in the same order.

* `loadStructures_eq` — the entries are read one after the other;
* `forall₂_start` — what is sent out are the structures loaded, with a name if they had none;
* `load_sublist_denotes`, `load_eq_denotes_iff` — one entry;
* `loads_what_it_denotes_iff` — **when two runs both send out what the entries denote.**
-/

namespace StructurePipe.Blocks

open StructurePipe.Common TextLines

/-- The file system, as far as the block asks, with the functions of the library that read it:
`ResourceLocator::set`, `getWildcardPaths` and `readStructures`. -/
structure StructureFiles (γ : Type*) where
  fileExists : Path → Bool
  isRegularFile : Path → Bool
  isDirectory : Path → Bool
  setLocator : Str → Option ResourceLocator
  getWildcardPaths : Str → Option (List Path)
  readStructures : ResourceLocator → List (NamedStructure γ)

structure LoadStructures (γ : Type*) where
  mySeedStructuresString : Str
  myStructures : List (NamedStructure γ) := []
deriving DecidableEq, Repr

namespace LoadStructures

variable {γ ρ : Type*}

inductive EntryType where
  | UNKNOWN
  | FILE_PATH
  | FOLDER_PATH
  | WILDCARD_PATH
deriving DecidableEq, Repr

section Functions

variable (files : StructureFiles γ)

def entryType (entry : Str) : EntryType :=
  if '*' ∈ entry then .WILDCARD_PATH
  else
    match files.setLocator entry with
    | none => .UNKNOWN
    | some entryLocator =>
        if files.fileExists entryLocator.path then
          if files.isRegularFile entryLocator.path then .FILE_PATH
          else if files.isDirectory entryLocator.path then .FOLDER_PATH
          else .UNKNOWN
        else .UNKNOWN

/-- One turn of the loop of `processWildcardEntry`. -/
def readEntryPath (state : ℤ × List (NamedStructure γ)) (entryPath : Path) :
    ℤ × List (NamedStructure γ) :=
  if files.isRegularFile entryPath then
    (state.1 + 1, state.2 ++ files.readStructures { path := entryPath })
  else state

/-- `processWildcardEntry`: the number of files read, or `-1`, and the structures after it. -/
def processWildcardEntry (myStructures : List (NamedStructure γ)) (entry : Str) :
    ℤ × List (NamedStructure γ) :=
  match files.getWildcardPaths entry with
  | none => (-1, myStructures)
  | some entryPaths => entryPaths.foldl (readEntryPath files) (0, myStructures)

/-- `processEntry`: the same. -/
def processEntry (myStructures : List (NamedStructure γ)) (entry : Str) :
    ℤ × List (NamedStructure γ) :=
  let type := entryType files entry
  if type = .FILE_PATH ∨ type = .FOLDER_PATH then
    match files.setLocator entry with
    | none => (-1, myStructures)
    | some loc => (-1, myStructures ++ files.readStructures loc)
  else if type = .WILDCARD_PATH then processWildcardEntry files myStructures entry
  else (-1, myStructures)

def loadStructures (b : LoadStructures γ) : LoadStructures γ :=
  { b with
    myStructures := (lines '\n' b.mySeedStructuresString).foldl
      (fun myStructures entry => (processEntry files myStructures entry).2) [] }

/-- The structures are read if there are none yet. -/
def pipelineInitialising (b : LoadStructures γ) : LoadStructures γ :=
  if b.myStructures.isEmpty then b.loadStructures files else b

end Functions

section Start

variable (generateUniqueName : ρ → Str × ρ) (seedName : Str)

/-- The loop of `start`: the copies that are sent out. -/
def start : List (NamedStructure γ) → ρ → List (NamedStructure γ) × ρ
  | [], rng => ([], rng)
  | structure_ :: structures, rng =>
      let (structure_, rng) := structure_.setNameIfNeeded generateUniqueName seedName rng
      let (sent, rng) := start structures rng
      (structure_ :: sent, rng)

/-- One run of the pipeline: the structures sent out, and the block after it. -/
def run (files : StructureFiles γ) (b : LoadStructures γ) (rng : ρ) :
    List (NamedStructure γ) × LoadStructures γ × ρ :=
  let b := b.pipelineInitialising files
  let (sent, rng) := start generateUniqueName seedName b.myStructures rng
  (sent, b, rng)

/-- A copy of a structure as it is sent out: if it has no name, it gets a generated one. -/
def SentAs (structure_ sent : NamedStructure γ) : Prop :=
  ∃ rng, sent = (structure_.setNameIfNeeded generateUniqueName seedName rng).1

end Start

/-! ### What an entry denotes -/

section Denotes

variable (files : StructureFiles γ)

/-- The structures of a file or folder; nothing for any other path. -/
def structuresAt (loc : ResourceLocator) : List (NamedStructure γ) :=
  if files.isRegularFile loc.path ∨ files.isDirectory loc.path then files.readStructures loc else []

/-- What an entry denotes: for a wildcard the structures of all files and folders it matches, otherwise
those of the file or folder it names. -/
def denotes (entry : Str) : List (NamedStructure γ) :=
  if '*' ∈ entry then
    ((files.getWildcardPaths entry).getD []).flatMap fun path => structuresAt files { path := path }
  else
    match files.setLocator entry with
    | none => []
    | some loc => if files.fileExists loc.path then structuresAt files loc else []

/-- What the block loads for an entry. -/
def load (entry : Str) : List (NamedStructure γ) :=
  if '*' ∈ entry then
    ((files.getWildcardPaths entry).getD []).flatMap fun path =>
      if files.isRegularFile path then files.readStructures { path := path } else []
  else denotes files entry

theorem foldl_readEntryPath (entryPaths : List Path) :
    ∀ state : ℤ × List (NamedStructure γ),
      (entryPaths.foldl (readEntryPath files) state).2
        = state.2 ++ entryPaths.flatMap fun path =>
            if files.isRegularFile path then files.readStructures { path := path } else [] := by
  induction entryPaths with
  | nil => intro state; simp
  | cons path entryPaths ih =>
      intro state
      rw [List.foldl_cons, ih, List.flatMap_cons, readEntryPath]
      split
      · rw [List.append_assoc]
      · rw [List.nil_append]

/-- **One entry.**  What it adds does not depend on what was loaded before. -/
theorem processEntry_snd (myStructures : List (NamedStructure γ)) (entry : Str) :
    (processEntry files myStructures entry).2 = myStructures ++ load files entry := by
  by_cases hwildcard : '*' ∈ entry
  · have htype : entryType files entry = .WILDCARD_PATH := by rw [entryType, if_pos hwildcard]
    rw [processEntry, load, htype, if_pos hwildcard]
    simp only [reduceCtorEq, or_self, if_false, if_true, processWildcardEntry]
    cases files.getWildcardPaths entry with
    | none => simp
    | some entryPaths => exact foldl_readEntryPath files entryPaths (0, myStructures)
  · rw [load, if_neg hwildcard, denotes, if_neg hwildcard, processEntry, entryType,
      if_neg hwildcard]
    cases files.setLocator entry with
    | none => simp
    | some loc =>
        simp only [structuresAt]
        by_cases hexists : files.fileExists loc.path
        · by_cases hfile : files.isRegularFile loc.path
          · simp [hexists, hfile]
          · by_cases hfolder : files.isDirectory loc.path
            · simp [hexists, hfile, hfolder]
            · simp [hexists, hfile, hfolder]
        · simp [hexists]

/-- **All entries,** one after the other. -/
theorem loadStructures_eq (b : LoadStructures γ) :
    (b.loadStructures files).myStructures
      = (lines '\n' b.mySeedStructuresString).flatMap (load files) := by
  have hfold : ∀ (entries : List Str) (myStructures : List (NamedStructure γ)),
      entries.foldl (fun myStructures entry => (processEntry files myStructures entry).2)
        myStructures = myStructures ++ entries.flatMap (load files) := by
    intro entries
    induction entries with
    | nil => simp
    | cons entry entries ih =>
        intro myStructures
        rw [List.foldl_cons, ih, processEntry_snd, List.flatMap_cons, List.append_assoc]
  exact hfold _ []

/-- The whole is all there only if each part is. -/
theorem flatMap_eq_iff_of_sublist {α β : Type*} {f g : α → List β} {l : List α}
    (h : ∀ a ∈ l, (f a).Sublist (g a)) : l.flatMap f = l.flatMap g ↔ ∀ a ∈ l, f a = g a := by
  refine ⟨fun heq => ?_, List.flatMap_congr⟩
  induction l with
  | nil => exact fun a ha => absurd ha List.not_mem_nil
  | cons a l ih =>
      obtain ⟨ha, hl⟩ := List.forall_mem_cons.mp h
      rw [List.flatMap_cons, List.flatMap_cons] at heq
      have hlength := congrArg List.length heq
      rw [List.length_append, List.length_append] at hlength
      have hrest := (List.Sublist.flatMap_right l hl).length_le
      have hhead : f a = g a := ha.eq_of_length_le (by omega)
      rw [hhead, List.append_cancel_left_eq] at heq
      exact List.forall_mem_cons.mpr ⟨hhead, ih hl heq⟩

/-- One path that a wildcard matches: only the structures of a folder can be missing. -/
theorem entryPath_sublist (path : Path) :
    (if files.isRegularFile path then files.readStructures { path := path } else []).Sublist
      (structuresAt files { path := path }) := by
  rw [structuresAt]
  by_cases hfile : files.isRegularFile path
  · simp [hfile]
  · simp [hfile]

theorem entryPath_eq_iff (path : Path) :
    (if files.isRegularFile path then files.readStructures { path := path } else [])
        = structuresAt files { path := path } ↔
      (files.isRegularFile path = false → files.isDirectory path = true →
        files.readStructures { path := path } = []) := by
  rw [structuresAt]
  cases files.isRegularFile path with
  | true => simp
  | false => cases files.isDirectory path with
      | true => simp
      | false => simp

/-- What is loaded is part of what is denoted. -/
theorem load_sublist_denotes (entry : Str) : (load files entry).Sublist (denotes files entry) := by
  rw [load]
  split
  · next hwildcard =>
      rw [denotes, if_pos hwildcard]
      exact List.Sublist.flatMap_right _ fun path _ => entryPath_sublist files path
  · exact List.Sublist.refl _

/-- A folder with structures in it that the wildcard matches. -/
def MatchesFolder (entry : Str) : Prop :=
  '*' ∈ entry ∧ ∃ paths, files.getWildcardPaths entry = some paths ∧ ∃ path ∈ paths,
    files.isRegularFile path = false ∧ files.isDirectory path = true ∧
      files.readStructures { path := path } ≠ []

/-- **One entry.**  It is loaded as it should be unless it is a wildcard that matches a folder with
structures in it. -/
theorem load_eq_denotes_iff (entry : Str) :
    load files entry = denotes files entry ↔ ¬ MatchesFolder files entry := by
  by_cases hwildcard : '*' ∈ entry
  · rw [load, denotes, if_pos hwildcard, if_pos hwildcard,
      flatMap_eq_iff_of_sublist fun path _ => entryPath_sublist files path]
    simp only [entryPath_eq_iff, MatchesFolder, hwildcard, true_and]
    cases files.getWildcardPaths entry with
    | none => simp
    | some paths => simp
  · rw [load, if_neg hwildcard, MatchesFolder]
    simp [hwildcard]

end Denotes

/-! ### Runs -/

section Runs

variable (generateUniqueName : ρ → Str × ρ) (seedName : Str)

/-- **What is sent out:** a copy of each structure, in the same order. -/
theorem forall₂_start (structures : List (NamedStructure γ)) :
    ∀ rng, List.Forall₂ (SentAs generateUniqueName seedName) structures
      (start generateUniqueName seedName structures rng).1 := by
  induction structures with
  | nil => exact fun _ => List.Forall₂.nil
  | cons structure_ structures ih => exact fun rng => List.Forall₂.cons ⟨rng, rfl⟩ (ih _)

/-- Copies of part of the structures are copies of all of them only if none is missing. -/
theorem forall₂_start_iff {loaded denoted : List (NamedStructure γ)} (hpart : loaded.Sublist denoted)
    (rng : ρ) :
    List.Forall₂ (SentAs generateUniqueName seedName) denoted
        (start generateUniqueName seedName loaded rng).1 ↔ loaded = denoted := by
  constructor
  · intro hall
    have hsent := (forall₂_start generateUniqueName seedName loaded rng).length_eq
    exact hpart.eq_of_length (hsent.trans hall.length_eq.symm)
  · rintro rfl
    exact forall₂_start generateUniqueName seedName loaded rng

/-- The structures are the same in every run: they are read again only if there were none. -/
theorem pipelineInitialising_twice (files : StructureFiles γ) (seedStructures : Str) :
    let b : LoadStructures γ := { mySeedStructuresString := seedStructures }
    (b.pipelineInitialising files).myStructures
        = (lines '\n' seedStructures).flatMap (load files) ∧
      (b.pipelineInitialising files).pipelineInitialising files = b.pipelineInitialising files := by
  intro b
  have hfirst : b.pipelineInitialising files = b.loadStructures files := rfl
  refine ⟨by rw [hfirst, loadStructures_eq], ?_⟩
  rw [hfirst, pipelineInitialising]
  split
  · rfl
  · rfl

/-- **When two runs of a new block both send out what its entries denote:** exactly if no wildcard
matches a folder with structures in it. -/
theorem loads_what_it_denotes_iff (files : StructureFiles γ) (seedStructures : Str) (rng : ρ) :
    let b : LoadStructures γ := { mySeedStructuresString := seedStructures }
    let denoted := (lines '\n' seedStructures).flatMap (denotes files)
    let (sent, b', rng') := b.run generateUniqueName seedName files rng
    let (sent', _, _) := b'.run generateUniqueName seedName files rng'
    (List.Forall₂ (SentAs generateUniqueName seedName) denoted sent ∧
        List.Forall₂ (SentAs generateUniqueName seedName) denoted sent') ↔
      ∀ entry ∈ lines '\n' seedStructures, ¬ MatchesFolder files entry := by
  intro b denoted
  obtain ⟨hloaded, htwice⟩ := pipelineInitialising_twice files seedStructures
  have hpart := List.Sublist.flatMap_right (lines '\n' seedStructures) fun entry _ =>
    load_sublist_denotes files entry
  simp only [run, b, denoted, htwice, hloaded]
  rw [forall₂_start_iff _ _ hpart, forall₂_start_iff _ _ hpart, and_self,
    flatMap_eq_iff_of_sublist fun entry _ => load_sublist_denotes files entry]
  exact forall₂_congr fun entry _ => load_eq_denotes_iff files entry

end Runs

/-- One folder, with one structure in it. -/
def oneFolder : StructureFiles Unit where
  fileExists path := path == ['d']
  isRegularFile _ := false
  isDirectory path := path == ['d']
  setLocator entry := some { path := entry }
  getWildcardPaths _ := some [['d']]
  readStructures loc := if loc.path = ['d'] then [⟨['s'], ()⟩] else []

/-- **A folder that a wildcard matches is passed over.**  Named in full it is read. -/
theorem wildcard_passes_over_folder :
    (run (fun rng : ℕ => (decimal rng, rng + 1)) [] oneFolder { mySeedStructuresString := ['*'] }
        0).1 = [] ∧
      denotes oneFolder ['*'] = [⟨['s'], ()⟩] ∧
      (run (fun rng : ℕ => (decimal rng, rng + 1)) [] oneFolder { mySeedStructuresString := ['d'] }
        0).1 = [⟨['s'], ()⟩] ∧
      ¬ List.Forall₂ (SentAs (fun rng : ℕ => (decimal rng, rng + 1)) [])
        ((lines '\n' ['*']).flatMap (denotes oneFolder))
        (run (fun rng : ℕ => (decimal rng, rng + 1)) [] oneFolder
          { mySeedStructuresString := ['*'] } 0).1 := by
  refine ⟨by decide, by decide, by decide, fun hall => ?_⟩
  exact absurd hall.length_eq (by decide)

end LoadStructures

end StructurePipe.Blocks
