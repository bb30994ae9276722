import StructurePipe.Build.PipeBuilder

/-!
# Nested pipes

The blocks that sweep over parameters have a pipe of their own, given by the same notation as the
pipe at the top.  `nodeToValue` builds it with a copy of the loop of `buildPipe`, but takes blanks for
separators too and does not trim the names.

`buildPipe` reports a failure by a null handle, so a text without names is one; `nodeToValue` reports
it by its return value, and a text without names is none.

* `nested_pipe_visits_iff` — what can be followed in a nested pipe;
* `builders_agree_iff` — **the exact condition under which the two builders give the same pipe, or
  both none.**
-/

namespace StructurePipe.Build

open Tokens SingleLinks

/-- The one error code of the schema library that `nodeToValue` uses. -/
inductive ParseLogErrorCode where
  | REQUIRED_VALUE_MISSING
deriving DecidableEq, Repr

structure ParseLogError where
  code : ParseLogErrorCode
  message : Str
deriving DecidableEq, Repr

section Builder

variable {β σ : Type*} (L : Links ℕ σ) (SPL_USE_CGAL : Bool) (creator : Str → BlockCreator β)

/-- `boost::char_separator("| ")`. -/
def NESTED_SEP (c : Char) : Bool := c == '|' || c == ' '

/-- An error is what is logged before `false` is returned, which may be nothing. -/
def nodeToValue (node : YamlNode) : Except (Option ParseLogError) (Pipe β σ) :=
  if !hasRun node then
    .error none
  else
    let loader := blockLoader SPL_USE_CGAL creator node
    match connectBlocks L loader.get (tokens NESTED_SEP (node.get RUN).text) none none L.empty with
    | .error tok =>
        .error (some ⟨.REQUIRED_VALUE_MISSING, "Failed to find block ".toList ++ tok⟩)
    | .ok (startBlock, links) => .ok ⟨startBlock, links, loader.blocks⟩

/-- The names that `nodeToValue` reads in a text. -/
def nestedNames (run : Str) : List Str := tokens NESTED_SEP run

variable {L SPL_USE_CGAL creator}

theorem nodeToValue_of_found {node : YamlNode} {run : Str} (hrun : node.get RUN = .scalar run)
    (h : ∀ name ∈ nestedNames run, (blockLoader SPL_USE_CGAL creator node).get name ≠ none) :
    nodeToValue L SPL_USE_CGAL creator node =
      .ok (namedPipe L (blockLoader SPL_USE_CGAL creator node) (nestedNames run)) := by
  have hmap := map_get_eq h
  rw [nestedNames] at hmap
  rw [nodeToValue, hasRun_of_get hrun, hrun]
  simp only [YamlNode.text, Bool.not_true, Bool.false_eq_true, if_false,
    connectBlocks_of_found hmap]
  rfl

theorem nodeToValue_of_missing {node : YamlNode} {run : Str} (hrun : node.get RUN = .scalar run)
    (h : ∃ name ∈ nestedNames run, (blockLoader SPL_USE_CGAL creator node).get name = none) :
    ∃ tok ∈ nestedNames run, (blockLoader SPL_USE_CGAL creator node).get tok = none ∧
      nodeToValue L SPL_USE_CGAL creator node =
        .error (some ⟨.REQUIRED_VALUE_MISSING, "Failed to find block ".toList ++ tok⟩) := by
  obtain ⟨tok, htok, hnone, herror⟩ := connectBlocks_of_missing (L := L) h none none L.empty
  rw [nestedNames] at herror
  refine ⟨tok, htok, hnone, ?_⟩
  rw [nodeToValue, hasRun_of_get hrun, hrun]
  simp only [YamlNode.text, Bool.not_true, Bool.false_eq_true, if_false, herror]

/-- A nested pipe is the pipe that was written, as far as the names do not repeat. -/
theorem nested_pipe_visits_iff {node : YamlNode} {run : Str} (hrun : node.get RUN = .scalar run)
    (hloaded : ∀ name ∈ nestedNames run,
      (blockLoader SPL_USE_CGAL creator node).get name ≠ none) :
    (∃ pipe, nodeToValue L SPL_USE_CGAL creator node = .ok pipe ∧
      Visits L pipe.links pipe.startBlock
        ((nestedNames run).filterMap (blockLoader SPL_USE_CGAL creator node).get)) ↔
      (nestedNames run).Nodup := by
  have hwell := wellLoaded_blockLoader SPL_USE_CGAL creator node
  rw [nodeToValue_of_found hrun hloaded, ← visits_namedPipe_iff (L := L) hwell hloaded]
  constructor
  · rintro ⟨pipe, heq, hvisits⟩
    obtain rfl := Except.ok.inj heq
    exact hvisits
  · intro hvisits
    exact ⟨_, rfl, hvisits⟩

end Builder

/-! ### The names of a text -/

/-- There is something between the bars, and each piece is one word that nothing but blanks
surrounds. -/
def PlainNames (run : Str) : Prop :=
  tokens SEP run ≠ [] ∧ ∀ piece ∈ tokens SEP run, Word isspace (trim (· == ' ') piece)

instance (run : Str) : Decidable (PlainNames run) := inferInstanceAs (Decidable (_ ∧ _))

theorem isspace_of_blank (c : Char) (h : (c == ' ') = true) : isspace c = true := by
  rw [isspace, h, Bool.true_or]

/-- The blanks cut the pieces between the bars further. -/
theorem nestedNames_eq (run : Str) : nestedNames run = (tokens SEP run).flatMap (tokens (· == ' ')) :=
  tokens_or SEP (· == ' ') run

/-- Of plain names, both builders read the same. -/
theorem nestedNames_eq_pipeNames {run : Str} (h : PlainNames run) :
    nestedNames run = pipeNames run := by
  rw [nestedNames_eq, pipeNames, List.map_eq_flatMap]
  refine List.flatMap_congr fun piece hpiece => ?_
  have hword := h.2 piece hpiece
  rw [tokens_of_trim (hword.mono isspace_of_blank), trim_eq_of_word isspace_of_blank hword]

/-- If both builders read words only, the names are plain. -/
theorem plainNames_of_words {run : Str} (hne : pipeNames run ≠ [])
    (hpipe : ∀ name ∈ pipeNames run, Word isspace name)
    (hnested : ∀ name ∈ nestedNames run, Word isspace name) : PlainNames run := by
  refine ⟨fun hnil => hne (by rw [pipeNames, hnil, List.map_nil]), fun piece hpiece => ?_⟩
  have hname : Word isspace (trim isspace piece) := hpipe _ (List.mem_map_of_mem hpiece)
  have hwords : ∀ word ∈ tokens (· == ' ') piece, Word isspace word := by
    intro word hword
    refine hnested word ?_
    rw [nestedNames_eq]
    exact List.mem_flatMap.mpr ⟨piece, hpiece, hword⟩
  rw [trim_eq_of_tokens isspace_of_blank hname hwords]
  exact hname

/-! ### Agreement -/

section Agreement

variable {β σ : Type*}

/-- The pipe a caller of `buildPipe` has: a null handle is none. -/
def topLevelPipe (result : Except Str (Pipe β σ)) : Option (Pipe β σ) :=
  result.toOption.filter fun pipe => pipe.startBlock.isSome

/-- The pipe a caller of `nodeToValue` has. -/
def nestedPipe (result : Except (Option ParseLogError) (Pipe β σ)) : Option (Pipe β σ) :=
  result.toOption

variable {L : Links ℕ σ} {SPL_USE_CGAL : Bool} {creator : Str → BlockCreator β}
  {node : YamlNode} {run : Str}

theorem topLevelPipe_of_found (hrun : node.get RUN = .scalar run) (hne : pipeNames run ≠ [])
    (h : ∀ name ∈ pipeNames run, (blockLoader SPL_USE_CGAL creator node).get name ≠ none) :
    topLevelPipe (buildPipe L SPL_USE_CGAL creator node) =
      some (namedPipe L (blockLoader SPL_USE_CGAL creator node) (pipeNames run)) := by
  rw [buildPipe_of_found hrun h, topLevelPipe, Except.toOption, Option.filter_some,
    if_pos (startBlock_namedPipe hne h)]

theorem topLevelPipe_of_missing (hrun : node.get RUN = .scalar run)
    (h : ∃ name ∈ pipeNames run, (blockLoader SPL_USE_CGAL creator node).get name = none) :
    topLevelPipe (buildPipe L SPL_USE_CGAL creator node) = none := by
  obtain ⟨tok, -, -, herror⟩ := buildPipe_of_missing (L := L) hrun h
  rw [herror]
  rfl

theorem nestedPipe_of_found (hrun : node.get RUN = .scalar run)
    (h : ∀ name ∈ nestedNames run, (blockLoader SPL_USE_CGAL creator node).get name ≠ none) :
    nestedPipe (nodeToValue L SPL_USE_CGAL creator node) =
      some (namedPipe L (blockLoader SPL_USE_CGAL creator node) (nestedNames run)) := by
  rw [nodeToValue_of_found hrun h]
  rfl

theorem nestedPipe_of_missing (hrun : node.get RUN = .scalar run)
    (h : ∃ name ∈ nestedNames run, (blockLoader SPL_USE_CGAL creator node).get name = none) :
    nestedPipe (nodeToValue L SPL_USE_CGAL creator node) = none := by
  obtain ⟨tok, -, -, herror⟩ := nodeToValue_of_missing (L := L) hrun h
  rw [herror]
  rfl

/-- `buildPipe` gives a pipe only if it found all names, and there were some. -/
theorem found_of_topLevelPipe {pipe : Pipe β σ} (hrun : node.get RUN = .scalar run)
    (h : topLevelPipe (buildPipe L SPL_USE_CGAL creator node) = some pipe) :
    pipeNames run ≠ [] ∧
      ∀ name ∈ pipeNames run, (blockLoader SPL_USE_CGAL creator node).get name ≠ none := by
  have hfound : ∀ name ∈ pipeNames run,
      (blockLoader SPL_USE_CGAL creator node).get name ≠ none := by
    intro name hname hnone
    rw [topLevelPipe_of_missing hrun ⟨name, hname, hnone⟩] at h
    exact absurd h (by simp)
  refine ⟨fun hnil => ?_, hfound⟩
  have hnone : topLevelPipe (.ok (namedPipe L (blockLoader SPL_USE_CGAL creator node) [])) = none :=
    rfl
  rw [buildPipe_of_found hrun hfound, hnil, hnone] at h
  exact absurd h (by simp)

end Agreement

/-- **Where the builders agree.**  For any blocks and any text, the two builders give the same pipe or
both none, if and only if the text consists of plain names, or some name between bars is not loaded
and some word between bars and blanks is not either. -/
theorem builders_agree_iff {β σ : Type*} (L : Links ℕ σ) (SPL_USE_CGAL : Bool)
    (creator : Str → BlockCreator β) (node : YamlNode) (run : Str)
    (hrun : node.get RUN = .scalar run) :
    topLevelPipe (buildPipe L SPL_USE_CGAL creator node) =
        nestedPipe (nodeToValue L SPL_USE_CGAL creator node) ↔
      PlainNames run ∨
        (∃ name ∈ pipeNames run, (blockLoader SPL_USE_CGAL creator node).get name = none) ∧
          ∃ name ∈ nestedNames run, (blockLoader SPL_USE_CGAL creator node).get name = none := by
  have hwords : ∀ {names : List Str},
      (∀ name ∈ names, (blockLoader SPL_USE_CGAL creator node).get name ≠ none) →
      ∀ name ∈ names, Word isspace name := by
    intro names hfound name hname
    obtain ⟨block, hblock⟩ := Option.ne_none_iff_exists'.mp (hfound name hname)
    exact (wellLoaded_blockLoader SPL_USE_CGAL creator node).word_of_get hblock
  constructor
  · intro hagree
    by_cases hnested : ∃ name ∈ nestedNames run,
        (blockLoader SPL_USE_CGAL creator node).get name = none
    · -- both fail, and not for want of names
      refine Or.inr ⟨?_, hnested⟩
      by_contra hpipe
      push Not at hpipe
      have hne : pipeNames run ≠ [] := by
        intro hnil
        obtain ⟨name, hname, -⟩ := hnested
        rw [pipeNames, List.map_eq_nil_iff] at hnil
        rw [nestedNames_eq, hnil] at hname
        exact absurd hname (by simp)
      rw [topLevelPipe_of_found hrun hne hpipe, nestedPipe_of_missing hrun hnested] at hagree
      exact absurd hagree (by simp)
    · -- both succeed, so all that both read are words
      push Not at hnested
      rw [nestedPipe_of_found hrun hnested] at hagree
      obtain ⟨hne, hpipe⟩ := found_of_topLevelPipe hrun hagree
      exact Or.inl (plainNames_of_words hne (hwords hpipe) (hwords hnested))
  · rintro (hplain | ⟨hpipe, hnested⟩)
    · have hnames := nestedNames_eq_pipeNames hplain
      by_cases hpipe : ∃ name ∈ pipeNames run,
          (blockLoader SPL_USE_CGAL creator node).get name = none
      · rw [topLevelPipe_of_missing hrun hpipe, nestedPipe_of_missing hrun (hnames ▸ hpipe)]
      · push Not at hpipe
        have hne : pipeNames run ≠ [] := fun hnil => hplain.1 (List.map_eq_nil_iff.mp hnil)
        rw [topLevelPipe_of_found hrun hne hpipe,
          nestedPipe_of_found hrun (hnames.symm ▸ hpipe), hnames]
    · rw [topLevelPipe_of_missing hrun hpipe, nestedPipe_of_missing hrun hnested]

/-- Two names with blanks around the bar. -/
theorem builders_agree_iff_at :
    let node : YamlNode := .map [(.scalar "clone a".toList, .null), (.scalar "rescale".toList, .null),
      (.scalar RUN, .scalar "a | rescale".toList)]
    topLevelPipe (buildPipe (ofPairs ℕ) false (fun type _ => some type) node) =
      nestedPipe (nodeToValue (ofPairs ℕ) false (fun type _ => some type) node) :=
  (builders_agree_iff (ofPairs ℕ) false (fun type _ => some type) _ "a | rescale".toList rfl).mpr
    (Or.inl (by decide))

/-- **Names without a bar between them, and a name after a tab.**  The first text is a pipe of two
blocks only where it is nested, the second only where it is not. -/
theorem builders_disagree :
    let node (run : Str) : YamlNode := .map [(.scalar "clone a".toList, .null),
      (.scalar "rescale".toList, .null), (.scalar RUN, .scalar run)]
    let pipe : Pipe Str (List (ℕ × ℕ)) :=
      ⟨some 0, [(0, 1)], ["clone".toList, "rescale".toList]⟩
    let top run := topLevelPipe (buildPipe (ofPairs ℕ) false (fun type _ => some type) (node run))
    let nested run := nestedPipe (nodeToValue (ofPairs ℕ) false (fun type _ => some type) (node run))
    (top "a rescale".toList = none ∧ nested "a rescale".toList = some pipe) ∧
      (top "a|\trescale".toList = some pipe ∧ nested "a|\trescale".toList = none) := by
  decide

end StructurePipe.Build
