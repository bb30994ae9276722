import StructurePipe.Build.BlockLoader
import StructurePipe.Lib.SingleLinks

/-!
# Building a pipe

`buildPipe` loads the blocks of a pipe and connects them in the order in which its `run` entry names
them.  The loop that looks the names up and connects the blocks is shared with the builder of nested
pipes, which has a copy of it; the two differ in how they cut the text into names.

Connecting is a matter of the pipe library: a block has one link downstream, and connecting it again
replaces the link.  Any representation of links that behaves so will do.

* `connectBlocks_of_found` — if every name is found, the blocks are connected along a path;
* `built_pipe_visits_iff` — **following the links visits the named blocks in order and ends there if
  and only if no name is used twice.**
-/

namespace StructurePipe.Build

open Tokens SingleLinks

/-- A pipe: its first block, the links between the blocks, and the blocks. -/
structure Pipe (β σ : Type*) where
  startBlock : Option ℕ
  links : σ
  blocks : List β
deriving DecidableEq, Repr

section Loop

variable {σ : Type*} (L : Links ℕ σ) (get : Str → Option ℕ)

/-- The loop of both builders: look up one token after the other and connect the block before it to
its block.  It stops with the first token that is not found. -/
def connectBlocks : List Str → Option ℕ → Option ℕ → σ → Except Str (Option ℕ × σ)
  | [], startBlock, _, links => .ok (startBlock, links)
  | tok :: toks, startBlock, last, links =>
      match get tok with
      | none => .error tok
      | some temp =>
          match last with
          -- the first token
          | none => connectBlocks toks (some temp) (some temp) links
          | some block => connectBlocks toks startBlock (some temp) (L.connect links block temp)

/-- The links of blocks that are connected one after the other. -/
def connected : List ℕ → σ
  | [] => L.empty
  | block :: blocks => path L L.empty block blocks

variable {L get}

theorem connectBlocks_after {toks : List Str} {blocks : List ℕ}
    (h : toks.map get = blocks.map some) (startBlock : Option ℕ) (last : ℕ) (links : σ) :
    connectBlocks L get toks startBlock (some last) links =
      .ok (startBlock, path L links last blocks) := by
  induction toks generalizing blocks last links with
  | nil =>
      obtain rfl : blocks = [] := List.map_eq_nil_iff.mp h.symm
      rfl
  | cons tok toks ih =>
      cases blocks with
      | nil => exact absurd h (by simp)
      | cons block blocks =>
          obtain ⟨htok, htoks⟩ := List.cons.inj h
          rw [connectBlocks, htok]
          exact ih htoks block _

theorem connectBlocks_of_found {toks : List Str} {blocks : List ℕ}
    (h : toks.map get = blocks.map some) :
    connectBlocks L get toks none none L.empty = .ok (blocks.head?, connected L blocks) := by
  cases toks with
  | nil =>
      obtain rfl : blocks = [] := List.map_eq_nil_iff.mp h.symm
      rfl
  | cons tok toks =>
      cases blocks with
      | nil => exact absurd h (by simp)
      | cons block blocks =>
          obtain ⟨htok, htoks⟩ := List.cons.inj h
          rw [connectBlocks, htok]
          exact connectBlocks_after htoks (some block) block L.empty

theorem connectBlocks_of_missing {toks : List Str} (h : ∃ tok ∈ toks, get tok = none)
    (startBlock last : Option ℕ) (links : σ) :
    ∃ tok ∈ toks, get tok = none ∧
      connectBlocks L get toks startBlock last links = .error tok := by
  induction toks generalizing startBlock last links with
  | nil => simp at h
  | cons tok toks ih =>
      rw [connectBlocks]
      cases htok : get tok with
      | none => exact ⟨tok, by simp, htok, rfl⟩
      | some temp =>
          have hrest : ∃ tok ∈ toks, get tok = none := by
            obtain ⟨t, ht, hnone⟩ := h
            rcases List.mem_cons.mp ht with rfl | ht
            · exact absurd (htok.symm.trans hnone) (by simp)
            · exact ⟨t, ht, hnone⟩
          cases last with
          | none =>
              obtain ⟨t, ht, hnone, herror⟩ := ih hrest (some temp) (some temp) links
              exact ⟨t, List.mem_cons_of_mem tok ht, hnone, herror⟩
          | some block =>
              obtain ⟨t, ht, hnone, herror⟩ :=
                ih hrest startBlock (some temp) (L.connect links block temp)
              exact ⟨t, List.mem_cons_of_mem tok ht, hnone, herror⟩

/-- Connected blocks can be followed to the end if and only if none of them comes twice. -/
theorem visits_connected_iff {blocks : List ℕ} :
    Visits L (connected L blocks) blocks.head? blocks ↔ blocks.Nodup := by
  cases blocks with
  | nil => exact iff_of_true trivial List.nodup_nil
  | cons block blocks => exact visits_path_iff

end Loop

section Builder

variable {β σ : Type*} (L : Links ℕ σ) (SPL_USE_CGAL : Bool) (creator : Str → BlockCreator β)

/-- The loader of both builders, with the blocks of a node. -/
def blockLoader (node : YamlNode) : BlockLoader β :=
  ((BlockLoader.new SPL_USE_CGAL creator).load node).loader

/-- The key of the entry that names the blocks. -/
def RUN : Str := "run".toList

/-- Both builders go on only with a map and a text under `run`. -/
def hasRun (node : YamlNode) : Bool := node.isMap && (node.get RUN).isScalar

/-- `boost::char_separator("|")`. -/
def SEP (c : Char) : Bool := c == '|'

/-- The text of an error goes to the error stream, and the handle is null then. -/
def buildPipe (node : YamlNode) : Except Str (Pipe β σ) :=
  if !hasRun node then
    .error "Error: Must specify run entry in node\n".toList
  else
    let loader := blockLoader SPL_USE_CGAL creator node
    match connectBlocks L (fun tok => loader.get (trim isspace tok))
        (tokens SEP (node.get RUN).text) none none L.empty with
    | .error tok => .error ("Error: Failed to find block ".toList ++ tok ++ "\n".toList)
    | .ok (startBlock, links) => .ok ⟨startBlock, links, loader.blocks⟩

/-- The names that `buildPipe` reads in a text. -/
def pipeNames (run : Str) : List Str := (tokens SEP run).map (trim isspace)

/-- The blocks of some names, connected in the order of the names. -/
def namedPipe (loader : BlockLoader β) (names : List Str) : Pipe β σ :=
  let blocks := names.filterMap loader.get
  ⟨blocks.head?, connected L blocks, loader.blocks⟩

theorem wellLoaded_blockLoader (node : YamlNode) :
    (blockLoader SPL_USE_CGAL creator node).WellLoaded :=
  BlockLoader.wellLoaded_load (BlockLoader.wellLoaded_new SPL_USE_CGAL creator) node

variable {L SPL_USE_CGAL creator}

theorem hasRun_of_get {node : YamlNode} {run : Str} (h : node.get RUN = .scalar run) :
    hasRun node = true := by
  rw [hasRun, h]
  cases node with
  | map entries => rfl
  | null => exact absurd h (by simp [YamlNode.get, YamlNode.entries])
  | scalar text => exact absurd h (by simp [YamlNode.get, YamlNode.entries])
  | sequence items => exact absurd h (by simp [YamlNode.get, YamlNode.entries])

/-- Names that are all found are the names of some blocks. -/
theorem map_get_eq {get : Str → Option ℕ} {names : List Str} (h : ∀ name ∈ names, get name ≠ none) :
    names.map get = (names.filterMap get).map some := by
  induction names with
  | nil => rfl
  | cons name names ih =>
      obtain ⟨block, hblock⟩ := Option.ne_none_iff_exists'.mp (h name (by simp))
      rw [List.map_cons, List.filterMap_cons_some hblock, List.map_cons, hblock,
        ih fun n hn => h n (List.mem_cons_of_mem name hn)]

theorem buildPipe_of_found {node : YamlNode} {run : Str}
    (hrun : node.get RUN = .scalar run)
    (h : ∀ name ∈ pipeNames run, (blockLoader SPL_USE_CGAL creator node).get name ≠ none) :
    buildPipe L SPL_USE_CGAL creator node =
      .ok (namedPipe L (blockLoader SPL_USE_CGAL creator node) (pipeNames run)) := by
  have hmap : (tokens SEP run).map
      (fun tok => (blockLoader SPL_USE_CGAL creator node).get (trim isspace tok)) =
      ((pipeNames run).filterMap (blockLoader SPL_USE_CGAL creator node).get).map some := by
    rw [← map_get_eq h, pipeNames, List.map_map]
    rfl
  rw [buildPipe, hasRun_of_get hrun, hrun]
  simp only [YamlNode.text, Bool.not_true, Bool.false_eq_true, if_false,
    connectBlocks_of_found hmap]
  rfl

theorem buildPipe_of_missing {node : YamlNode} {run : Str}
    (hrun : node.get RUN = .scalar run)
    (h : ∃ name ∈ pipeNames run, (blockLoader SPL_USE_CGAL creator node).get name = none) :
    ∃ tok ∈ tokens SEP run,
      (blockLoader SPL_USE_CGAL creator node).get (trim isspace tok) = none ∧
      buildPipe L SPL_USE_CGAL creator node =
        .error ("Error: Failed to find block ".toList ++ tok ++ "\n".toList) := by
  have hmissing : ∃ tok ∈ tokens SEP run,
      (blockLoader SPL_USE_CGAL creator node).get (trim isspace tok) = none := by
    obtain ⟨name, hname, hnone⟩ := h
    obtain ⟨tok, htok, rfl⟩ := List.mem_map.mp hname
    exact ⟨tok, htok, hnone⟩
  obtain ⟨tok, htok, hnone, herror⟩ := connectBlocks_of_missing (L := L) hmissing none none L.empty
  refine ⟨tok, htok, hnone, ?_⟩
  rw [buildPipe, hasRun_of_get hrun, hrun]
  simp only [YamlNode.text, Bool.not_true, Bool.false_eq_true, if_false, herror]

theorem scalar_of_hasRun {node : YamlNode} (h : hasRun node = true) :
    ∃ run, node.get RUN = .scalar run := by
  rw [hasRun, Bool.and_eq_true] at h
  cases hget : node.get RUN with
  | scalar run => exact ⟨run, rfl⟩
  | null => simp [hget, YamlNode.isScalar] at h
  | sequence items => simp [hget, YamlNode.isScalar] at h
  | map entries => simp [hget, YamlNode.isScalar] at h

/-- In a pipe that was built every name was found. -/
theorem found_of_buildPipe {node : YamlNode} {pipe : Pipe β σ}
    (h : buildPipe L SPL_USE_CGAL creator node = .ok pipe) :
    ∀ name ∈ pipeNames (node.get RUN).text, ∃ block,
      (blockLoader SPL_USE_CGAL creator node).get name = some block ∧
        pipe.blocks = (blockLoader SPL_USE_CGAL creator node).blocks := by
  have hrun : hasRun node = true := by
    by_contra hnot
    rw [buildPipe, if_pos (by simpa using hnot)] at h
    exact absurd h (by simp)
  obtain ⟨run, hscalar⟩ := scalar_of_hasRun hrun
  rw [hscalar]
  by_cases hfound : ∀ name ∈ pipeNames run, (blockLoader SPL_USE_CGAL creator node).get name ≠ none
  · rw [buildPipe_of_found hscalar hfound] at h
    obtain rfl := Except.ok.inj h
    intro name hname
    obtain ⟨block, hblock⟩ := Option.ne_none_iff_exists'.mp (hfound name hname)
    exact ⟨block, hblock, rfl⟩
  · push Not at hfound
    obtain ⟨tok, -, -, herror⟩ := buildPipe_of_missing (L := L) hscalar hfound
    rw [herror] at h
    exact absurd h (by simp)

/-- A block is used twice where a name is. -/
theorem nodup_blocks_iff {loader : BlockLoader β} (hwell : loader.WellLoaded) {names : List Str}
    (h : ∀ name ∈ names, loader.get name ≠ none) :
    (names.filterMap loader.get).Nodup ↔ names.Nodup := by
  rw [← List.nodup_map_iff (Option.some_injective ℕ), ← map_get_eq h]
  refine ⟨List.Nodup.of_map _, fun hnodup => hnodup.map_on fun m hm n hn hmn => ?_⟩
  obtain ⟨block, hblock⟩ := Option.ne_none_iff_exists'.mp (h m hm)
  exact hwell.get_injective hblock (hmn ▸ hblock)

theorem visits_namedPipe_iff {loader : BlockLoader β} (hwell : loader.WellLoaded)
    {names : List Str} (h : ∀ name ∈ names, loader.get name ≠ none) :
    Visits L (namedPipe L loader names).links (namedPipe L loader names).startBlock
        (names.filterMap loader.get) ↔ names.Nodup :=
  visits_connected_iff.trans (nodup_blocks_iff hwell h)

/-- Names that are all found give a pipe with a first block, if there are any names. -/
theorem startBlock_namedPipe {loader : BlockLoader β} {names : List Str} (hne : names ≠ [])
    (h : ∀ name ∈ names, loader.get name ≠ none) :
    (namedPipe L loader names).startBlock.isSome = true := by
  cases names with
  | nil => exact absurd rfl hne
  | cons name names =>
      obtain ⟨block, hblock⟩ := Option.ne_none_iff_exists'.mp (h name (by simp))
      rw [namedPipe, List.filterMap_cons_some hblock]
      rfl

/-- **The pipe that was written.**  If every name of a text is the name of a block, then following the
links from the block that `buildPipe` returns visits the named blocks in order and ends, if and only
if no name is used twice. -/
theorem built_pipe_visits_iff (L : Links ℕ σ) (SPL_USE_CGAL : Bool) (creator : Str → BlockCreator β)
    (node : YamlNode) (run : Str) (hrun : node.get RUN = .scalar run)
    (hloaded : ∀ name ∈ pipeNames run,
      (blockLoader SPL_USE_CGAL creator node).get name ≠ none) :
    (∃ pipe, buildPipe L SPL_USE_CGAL creator node = .ok pipe ∧
      Visits L pipe.links pipe.startBlock
        ((pipeNames run).filterMap (blockLoader SPL_USE_CGAL creator node).get)) ↔
      (pipeNames run).Nodup := by
  have hwell := wellLoaded_blockLoader SPL_USE_CGAL creator node
  rw [buildPipe_of_found hrun hloaded, ← visits_namedPipe_iff (L := L) hwell hloaded]
  constructor
  · rintro ⟨pipe, heq, hvisits⟩
    obtain rfl := Except.ok.inj heq
    exact hvisits
  · intro hvisits
    exact ⟨_, rfl, hvisits⟩

end Builder

/-- Two blocks, each used once. -/
theorem built_pipe_visits_iff_at :
    let node : YamlNode := .map [(.scalar "clone a".toList, .null), (.scalar "rescale".toList, .null),
      (.scalar RUN, .scalar "a | rescale".toList)]
    ∃ pipe, buildPipe (ofPairs ℕ) false (fun type _ => some type) node = .ok pipe ∧
      Visits (ofPairs ℕ) pipe.links pipe.startBlock
        ((pipeNames "a | rescale".toList).filterMap
          (blockLoader false (fun type _ => some type) node).get) :=
  (built_pipe_visits_iff (ofPairs ℕ) false (fun type _ => some type) _ "a | rescale".toList rfl
    (by decide)).mpr (by decide)

/-- **A name that is used twice.**  The last block is the first one again and is linked to the second
already: the pipe goes round for ever, and there are no blocks that following it visits up to an
end. -/
theorem repeated_name_never_ends :
    let node : YamlNode := .map [(.scalar "clone a".toList, .null), (.scalar "rescale".toList, .null),
      (.scalar RUN, .scalar "a | rescale | a".toList)]
    let loader := blockLoader false (fun type _ => some type) node
    (pipeNames "a | rescale | a".toList).map loader.get = [some 0, some 1, some 0] ∧
      buildPipe (ofPairs ℕ) false (fun type _ => some type) node =
        .ok ⟨some 0, [(1, 0), (0, 1)], ["clone".toList, "rescale".toList]⟩ ∧
      ∀ blocks, ¬ Visits (ofPairs ℕ) [(1, 0), (0, 1)] (some 0) blocks := by
  refine ⟨by decide, rfl, fun blocks hvisits => ?_⟩
  have hnodup := hvisits.nodup
  match blocks, hvisits with
  | [_, _], ⟨_, _, h⟩ => exact h
  | 0 :: 1 :: 0 :: _, ⟨rfl, rfl, rfl, _⟩ => simp at hnodup

end StructurePipe.Build
