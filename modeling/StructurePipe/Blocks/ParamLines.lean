import StructurePipe.Lib.Tokens
import StructurePipe.Blocks.ParamsQueueStart

/-!
# Parameter lines

`readParams` cuts a line at every blank and tab, so a separator too many makes an empty parameter.
`writeParams` ends every parameter with a blank, the last one too.

* `readParams_writeParams` — **what `writeParams` writes is read back with an empty parameter more;**
* `paramLines_iff` — **which layouts are read back as they were laid out,** and when `getWork` pushes
  a line of blanks.
-/

namespace StructurePipe.Blocks

open TextLines Tokens

namespace RunPotentialParamsQueue

/-- The characters `readParams` cuts at. -/
def isSeparator (c : Char) : Bool := c == ' ' || c == '\t'

theorem pieces_eq (line : Str) : pieces line = line.splitOnP isSeparator := rfl

/-- **The round trip adds an empty parameter**, for parameters without blanks and tabs. -/
theorem readParams_writeParams {params : Params} (h : ∀ p ∈ params, Word isSeparator p) :
    readParams (writeParams params).dropLast = some (params ++ [[]]) := by
  rw [writeParams, List.dropLast_concat, readParams_eq, pieces_eq]
  congr 1
  induction params with
  | nil => rfl
  | cons p params ih =>
      have hp : p.splitOnP isSeparator = [p] := List.splitOnP_eq_singleton (h p (by simp)).2
      calc ((p :: params).flatMap fun p => p ++ [' ']).splitOnP isSeparator
          = (p ++ ' ' :: params.flatMap fun p => p ++ [' ']).splitOnP isSeparator := by
            rw [List.flatMap_cons, List.append_assoc, List.singleton_append]
        _ = [p] ++ (params ++ [[]]) := by
            rw [List.splitOnP_append_cons _ _ rfl, hp, ih fun q hq => h q (List.mem_cons_of_mem p hq)]
        _ = (p :: params) ++ [[]] := rfl

/-- A parameter set without anything in it comes from a line of blanks and tabs. -/
theorem pieces_all_nil_iff (line : Str) :
    (∀ p ∈ pieces line, p = []) ↔ ∀ c ∈ line, isSeparator c = true := by
  refine ⟨all_of_splitOnP, fun hall p hp => ?_⟩
  rw [pieces_eq, splitOnP_of_all hall] at hp
  exact List.eq_of_mem_replicate hp

/-- **Parameter lines read back.**  A line that lists words is read back as these words exactly if it
is tight.  A call of `getWork` pushes no parameter set from blanks and tabs alone exactly if none of
the lines it takes consists of them; it takes the first lines that are neither empty nor comments. -/
theorem paramLines_iff {items : List (Str × Str)} {trail : Str} (h : Layout isSeparator items trail)
    (b : RunPotentialParamsQueue) (hchunk : 1 ≤ b.myNumWorkItemsChunk) (pid : ℕ) (content : Str) :
    (readParams (layOut items trail) = some (items.map Prod.snd) ↔ Tight items trail) ∧
    ∃ pushed, (b.getWork pid (some content)).2.1.myParamsQueue = b.myParamsQueue ++ pushed ∧
      ((∀ params ∈ pushed, ¬ ∀ p ∈ params, p = []) ↔
        ∀ line ∈ (workLines content).take b.myNumWorkItemsChunk,
          ¬ ∀ c ∈ line, isSeparator c = true) := by
  constructor
  · rw [readParams_eq, pieces_eq, Option.some_inj]
    exact splitOnP_layOut_iff h
  · obtain ⟨seen, s, -, hcall⟩ := getWork_spec pid b content hchunk
    refine ⟨((workLines content).take b.myNumWorkItemsChunk).map pieces, by rw [hcall], ?_⟩
    simp only [List.forall_mem_map, pieces_all_nil_iff]

/-- Two parameters with one blank between them; and two such lines after a comment, which are pushed. -/
theorem paramLines_two :
    Layout isSeparator [([], ['1']), ([' '], ['2'])] [] ∧
    readParams (layOut [([], ['1']), ([' '], ['2'])] []) = some [['1'], ['2']] ∧
    ∃ pushed, (({} : RunPotentialParamsQueue).getWork 1
        (some "#7 0 0\n1 2\n3 4\n".toList)).2.1.myParamsQueue = pushed ∧
      pushed.length = 2 ∧ ∀ params ∈ pushed, ¬ ∀ p ∈ params, p = [] := by
  have h : Layout isSeparator [([], ['1']), ([' '], ['2'])] [] :=
    ⟨by decide, by decide, by simp [isSeparator], by decide, by simp⟩
  have hwork : (workLines "#7 0 0\n1 2\n3 4\n".toList).take 20 = ["1 2".toList, "3 4".toList] := by
    decide +kernel
  obtain ⟨hread, pushed, hpushed, hblank⟩ :=
    paramLines_iff h {} (by decide) 1 "#7 0 0\n1 2\n3 4\n".toList
  refine ⟨h, hread.mpr (by simp [Tight]), pushed, hpushed, ?_, hblank.mpr ?_⟩
  · rw [← List.nil_append pushed, ← hpushed]
    decide +kernel
  · show ∀ line ∈ (workLines "#7 0 0\n1 2\n3 4\n".toList).take 20, ¬ ∀ c ∈ line, isSeparator c = true
    rw [hwork]
    simp [isSeparator]

/-- The line the block itself writes has a blank at its end, and a line of two blanks is pushed. -/
theorem trailing_blank_reads_empty :
    readParams (writeParams [['1'], ['2']]).dropLast = some [['1'], ['2'], []] ∧
    (({} : RunPotentialParamsQueue).getWork 1 (some [' ', ' ', '\n'])).2.1.myParamsQueue
      = [[[], [], []]] :=
  ⟨rfl, rfl⟩

end RunPotentialParamsQueue

end StructurePipe.Blocks
