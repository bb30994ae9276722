import StructurePipe.Common.YamlNode
import StructurePipe.Lib.Tokens

/-!
# Loading the blocks of a pipe

`BlockLoader` turns the entries of a YAML map into blocks.  The key of an entry is the type of the
block, followed by its name where it has one; entries whose key starts with anything else are
settings of the pipe and are passed over.  How a block of a type is made from its entry is a
parameter; a block handle is the index of a block among all that the loader has made.

The word read from a key goes to a variable that is declared outside the loop.  A read that finds no
word leaves the variable as it is, so a key without a word is taken for the last word read before.

* `WellLoaded` — what holds after any sequence of entries: every name is a word, and every block has
  one name at most;
* `wellLoaded_load` — **what `load` leaves behind is well loaded, whatever the map.**
-/

namespace StructurePipe.Build

open Tokens

/-- A block creator: the block made from an entry, `none` for a null handle. -/
abbrev BlockCreator (β : Type*) := YamlNode → Option β

/-- The block types that the constructor registers. -/
def registeredTypes (SPL_USE_CGAL : Bool) : List Str :=
  ["autoScale".toList, "generateStructures".toList, "clone".toList, "cutAndPaste".toList,
    "findSymmetry".toList, "geomOptimise".toList] ++
  (if SPL_USE_CGAL then ["keepStableCompositions".toList] else []) ++
  ["keepTopN".toList, "keepWithinXPercent".toList, "loadStructures".toList, "pasteFragment".toList,
    "niggliReduce".toList, "removeDuplicates".toList, "rescale".toList,
    "runPotentialParamsQueue".toList, "searchStoichiometries".toList, "separateAtoms".toList,
    "writeStructures".toList]

/-- The registered creators, the blocks by name, and all blocks that were made. -/
structure BlockLoader (β : Type*) where
  myBlocksDirectory : List (Str × BlockCreator β)
  myBlocks : List (Str × ℕ) := []
  blocks : List β := []

/-- What `load` returns, leaves behind and prints. -/
structure Loaded (β : Type*) where
  numLoaded : ℕ
  loader : BlockLoader β
  errors : Str := []

/-- `stream >> word`: the word and what is left of the stream.  Without a word on the stream the
variable keeps its value. -/
def readWord (stream word : Str) : Str × Str := (firstWord isspace stream).getD (word, [])

namespace BlockLoader

variable {β : Type*}

/-- The constructor, with the creators of the registered types. -/
def new (SPL_USE_CGAL : Bool) (creator : Str → BlockCreator β) : BlockLoader β where
  myBlocksDirectory := (registeredTypes SPL_USE_CGAL).map fun type => (type, creator type)

/-- A null handle for a name that is not there. -/
def get (l : BlockLoader β) (name : Str) : Option ℕ := l.myBlocks.lookup name

/-- Keep a new block under a name; an earlier block of the name is forgotten. -/
def insert (l : BlockLoader β) (name : Str) (block : β) : BlockLoader β :=
  { l with
    myBlocks := (name, l.blocks.length) :: l.myBlocks
    blocks := l.blocks ++ [block] }

/-- One round of the loop of `load`, with the variable `temp` and the number of blocks so far. -/
def loadEntry (temp : Str) (numLoaded : ℕ) (l : BlockLoader β) (entry : YamlNode × YamlNode) :
    Str × ℕ × BlockLoader β :=
  let (temp, ss) := readWord entry.1.text temp
  match l.myBlocksDirectory.lookup temp with
  | none => (temp, numLoaded, l)
  | some creator =>
      -- the stream is good if something follows the first word
      let temp := if ss.isEmpty then temp else (readWord ss temp).1
      match creator entry.2 with
      | none => (temp, numLoaded, l)
      | some block => (temp, numLoaded + 1, l.insert temp block)

/-- The loop of `load`. -/
def loadEntries (temp : Str) (numLoaded : ℕ) (l : BlockLoader β) :
    List (YamlNode × YamlNode) → ℕ × BlockLoader β
  | [] => (numLoaded, l)
  | entry :: entries =>
      let (temp, numLoaded, l) := l.loadEntry temp numLoaded entry
      loadEntries temp numLoaded l entries

def load (l : BlockLoader β) (node : YamlNode) : Loaded β :=
  if node.isMap then
    let (numLoaded, loader) := loadEntries [] 0 l node.entries
    { numLoaded := numLoaded, loader := loader }
  else
    { numLoaded := 0, loader := l,
      errors := "Error, YAML node supplied to load blocks is not a map.\n".toList }

/-! ### What is loaded -/

/-- Blocks are kept under words, no block under two of them, and no type is the empty text. -/
structure WellLoaded (l : BlockLoader β) : Prop where
  directory : l.myBlocksDirectory.lookup [] = none
  word : ∀ e ∈ l.myBlocks, Word isspace e.1
  lt : ∀ e ∈ l.myBlocks, e.2 < l.blocks.length
  nodup : (l.myBlocks.map Prod.snd).Nodup

theorem wellLoaded_new (SPL_USE_CGAL : Bool) (creator : Str → BlockCreator β) :
    WellLoaded (new SPL_USE_CGAL creator) where
  directory := by cases SPL_USE_CGAL <;> rfl
  word := by simp [new]
  lt := by simp [new]
  nodup := List.nodup_nil

theorem WellLoaded.insert {l : BlockLoader β} (h : WellLoaded l) {name : Str}
    (hname : Word isspace name) (block : β) : WellLoaded (l.insert name block) where
  directory := h.directory
  word := by
    intro e he
    rcases List.mem_cons.mp he with rfl | he
    · exact hname
    · exact h.word e he
  lt := by
    intro e he
    rw [BlockLoader.insert, List.length_append, List.length_singleton]
    rcases List.mem_cons.mp he with rfl | he
    · exact Nat.lt_succ_self _
    · exact Nat.lt_succ_of_lt (h.lt e he)
  nodup := by
    refine List.nodup_cons.mpr ⟨fun hmem => ?_, h.nodup⟩
    obtain ⟨e, he, heq⟩ := List.mem_map.mp hmem
    exact absurd (h.lt e he) (by simp [heq])

/-- A read leaves the variable as it is, or puts a word into it. -/
theorem readWord_fst (stream temp : Str) :
    (readWord stream temp).1 = temp ∨ Word isspace (readWord stream temp).1 := by
  rw [readWord]
  cases hread : firstWord isspace stream with
  | none => exact Or.inl rfl
  | some r => exact Or.inr (word_firstWord hread)

/-- One entry leaves a word in the variable, or nothing, and the loader well loaded. -/
theorem WellLoaded.loadEntry {l : BlockLoader β} (h : WellLoaded l) {temp : Str}
    (htemp : temp = [] ∨ Word isspace temp) (n : ℕ) (entry : YamlNode × YamlNode) :
    ((l.loadEntry temp n entry).1 = [] ∨ Word isspace (l.loadEntry temp n entry).1) ∧
      WellLoaded (l.loadEntry temp n entry).2.2 := by
  rw [BlockLoader.loadEntry]
  rcases hread : readWord entry.1.text temp with ⟨type, ss⟩
  have htype : type = [] ∨ Word isspace type := by
    have hfst := readWord_fst entry.1.text temp
    rw [hread] at hfst
    rcases hfst with rfl | hword
    · exact htemp
    · exact Or.inr hword
  dsimp only
  cases hlookup : l.myBlocksDirectory.lookup type with
  | none => exact ⟨htype, h⟩
  | some creator =>
      have hword : Word isspace type := by
        refine htype.resolve_left ?_
        rintro rfl
        exact absurd (hlookup.symm.trans h.directory) (by simp)
      have hname : Word isspace (if ss.isEmpty then type else (readWord ss type).1) := by
        split
        · exact hword
        · rcases readWord_fst ss type with heq | hword'
          · rwa [heq]
          · exact hword'
      dsimp only
      cases creator entry.2 with
      | none => exact ⟨Or.inr hname, h⟩
      | some block => exact ⟨Or.inr hname, h.insert hname block⟩

theorem WellLoaded.loadEntries {l : BlockLoader β} (h : WellLoaded l) {temp : Str}
    (htemp : temp = [] ∨ Word isspace temp) (n : ℕ) (entries : List (YamlNode × YamlNode)) :
    WellLoaded (loadEntries temp n l entries).2 := by
  induction entries generalizing temp n l with
  | nil => exact h
  | cons entry entries ih =>
      obtain ⟨htemp', h'⟩ := h.loadEntry htemp n entry
      exact ih h' htemp' _

theorem wellLoaded_load {l : BlockLoader β} (h : WellLoaded l) (node : YamlNode) :
    WellLoaded (l.load node).loader := by
  rw [load]
  split
  · exact h.loadEntries (Or.inl rfl) 0 node.entries
  · exact h

/-! ### Looking a name up -/

theorem mem_of_lookup {l : BlockLoader β} {name : Str} {block : ℕ} (h : l.get name = some block) :
    (name, block) ∈ l.myBlocks := by
  obtain ⟨before, after, hsplit, -⟩ := List.lookup_eq_some_iff.mp h
  exact hsplit ▸ by simp

theorem WellLoaded.word_of_get {l : BlockLoader β} (h : WellLoaded l) {name : Str} {block : ℕ}
    (hget : l.get name = some block) : Word isspace name :=
  h.word _ (mem_of_lookup hget)

/-- Different names are names of different blocks. -/
theorem WellLoaded.get_injective {l : BlockLoader β} (h : WellLoaded l) {m n : Str} {block : ℕ}
    (hm : l.get m = some block) (hn : l.get n = some block) : m = n :=
  congrArg Prod.fst (List.inj_on_of_nodup_map h.nodup (mem_of_lookup hm) (mem_of_lookup hn) rfl)

end BlockLoader

end StructurePipe.Build
