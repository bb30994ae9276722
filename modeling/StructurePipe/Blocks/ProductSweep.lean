import StructurePipe.Blocks.ParamsSweep
import StructurePipe.Blocks.SearchRuns

/-!
# A search inside a parameter sweep

The sub-pipe of `RunPotentialParamsQueue` can be a `SearchStoichiometries` block, which has a sub-pipe
of its own.  The two blocks keep what they are doing in the same global data: the parameter set under
its tag, the numbers of atoms under the key of the generation settings.

* `exists_searchedWith` — one run of the search;
* `product_sweep` — **every parameter set is run with every stoichiometry, once, and no structure is
  lost.**
-/

namespace StructurePipe.Blocks

open StepRuns Common OrderedMap

/-! ### The search as a sub-pipe -/

section Product

variable {κ π ρ ε ω : Type*}

/-- A search as the sub-pipe of a parameter sweep, which sets its directory and leaves parameters in the
global data.  Both the state of the innermost pipe and the rest of the global data are kept from one
run to the next. -/
def searchingSubpipe (search : SearchStoichiometries (TableStructure κ π) ρ ε (ω × GlobalParameters))
    (subpipe : ω × GlobalData) (dir : Path) (parameters : GlobalParameters) :
    List (TableStructure κ π) × (ω × GlobalData) × GlobalParameters :=
  let search := { search with sharedWorkingDir := dir }
  let result := search.start ⟨subpipe.2, (subpipe.1, parameters), []⟩
  ((result.1.flatMap Prod.snd).filterMap SweepCall.sent?,
    (result.2.subpipe.1, result.2.globalData), result.2.subpipe.2)

/-- The runs of the innermost pipe for one parameter set: each stoichiometry of the box once, with its
numbers in the global settings and the parameter set under the tag. -/
structure SearchedWith (search : SearchStoichiometries (TableStructure κ π) ρ ε (ω × GlobalParameters))
    (tag : Str) (params : Params) (visits : List (List ℕ × SubpipeRun (TableStructure κ π))) :
    Prop where
  nodup : (visits.map Prod.fst).Nodup
  complete : ∀ idx, idx ∈ visits.map Prod.fst ↔
    search.myOptions.InBox idx ∧ 0 < idx.sum ∧ idx.sum ≤ search.myOptions.maxAtoms
  numbers : ∀ visit ∈ visits, ∃ settings, visit.2.found.generationSettings = some settings ∧
    ∀ label n, find label settings.atomsSettings = some n ↔
      (label, n) ∈ (search.myOptions.atomRanges.map Prod.fst).zip visit.1
  parameters : ∀ visit ∈ visits, ∃ (w : ω) (parameters : GlobalParameters),
    parameters.find tag = some params ∧
      visit.2.finished = (search.subpipe (w, parameters) visit.2.workingDir visit.2.found).1

/-- **One run of the search.** -/
theorem exists_searchedWith
    {search : SearchStoichiometries (TableStructure κ π) ρ ε (ω × GlobalParameters)}
    (hbounded : search.myOptions.Bounded)
    (hkeeps : ∀ w dir globalData, (search.subpipe w dir globalData).2.1.2 = w.2)
    (subpipe : ω × GlobalData) (dir : Path) {parameters : GlobalParameters} {tag : Str}
    {params : Params} (hfind : parameters.find tag = some params) :
    ∃ visits, SearchedWith search tag params visits ∧
      (searchingSubpipe search subpipe dir parameters).1
        = visits.flatMap fun visit => visit.2.finished := by
  let b := { search with sharedWorkingDir := dir }
  obtain ⟨visits, hruns, hsent, hfinished⟩ := b.exists_visits_from hbounded
    (P := fun w => w.2 = parameters) (fun w dir globalData hw => (hkeeps w dir globalData).trans hw)
    (s := ⟨subpipe.2, (subpipe.1, parameters), []⟩) rfl rfl
  refine ⟨visits, ⟨hruns.nodup, hruns.complete, fun visit hvisit => ?_, fun visit hvisit => ?_⟩, hsent⟩
  · exact ⟨_, hruns.found visit hvisit, hruns.find_iff b hvisit⟩
  · obtain ⟨w, hw, hvisit⟩ := hfinished visit hvisit
    exact ⟨w.1, w.2, by rw [hw]; exact hfind, hvisit⟩

/-- **Every parameter set with every stoichiometry.**  The sub-pipe of a parameter sweep is a search
whose innermost pipe leaves the parameters in the global data alone.  In every run of `start`, whatever
others do to the two files, the parameter sets taken are those done before, those that were run, and
those in the queue; for each that was run, the innermost pipe is run once for each stoichiometry of the
box and finds the numbers of this stoichiometry and this parameter set; and the structures sent on are
those that the runs of the innermost pipe have finished, each once and in this order, marked with the
parameter set unless they were marked before. -/
theorem product_sweep [DecidableEq π] (b : ParamsSweep κ π (ω × GlobalData))
    (search : SearchStoichiometries (TableStructure κ π) ρ ε (ω × GlobalParameters))
    (hsubpipe : b.subpipe = searchingSubpipe search) (hbounded : search.myOptions.Bounded)
    (hkeeps : ∀ w dir globalData, (search.subpipe w dir globalData).2.1.2 = w.2)
    (block : RunPotentialParamsQueue) (hqueue : ∀ params ∈ block.myParamsQueue, params ≠ [])
    (queueFile doneFile : Option Str) (globalData : GlobalParameters) (subpipe : ω × GlobalData)
    (events : List ParamsSweepEvent) {s : ParamsSweeping κ π (ω × GlobalData)}
    (h : run b.step (ParamsSweep.begin block queueFile doneFile globalData subpipe) events = some s) :
    ∃ runs : List (Params × List (List ℕ × SubpipeRun (TableStructure κ π))),
      s.taken = block.myDoneParams ++ runs.map Prod.fst ++ s.block.myParamsQueue ∧
      (∀ r ∈ runs, SearchedWith search b.tag r.1 r.2) ∧
      s.calls.filterMap ParamsSweep.outOf = runs.flatMap fun r => r.2.flatMap fun visit =>
        visit.2.finished.map (RunPotentialParamsQueue.finished r.1) := by
  obtain ⟨runs, haccounts, htaken⟩ := ParamsSweep.exists_accounts hqueue h
  have hsearched : ∀ r ∈ runs, ∃ visits, SearchedWith search b.tag r.params visits ∧
      r.passed = visits.flatMap fun visit => visit.2.finished := by
    intro r hr
    obtain ⟨subpipe, hpassed⟩ := haccounts.passed r hr
    rw [hpassed, hsubpipe]
    exact exists_searchedWith hbounded hkeeps subpipe _ (haccounts.found r hr)
  choose! visits hvisits using hsearched
  refine ⟨runs.map fun r => (r.params, visits r), ?_, fun r hr => ?_, ?_⟩
  · rw [htaken, List.map_map]
    rfl
  · obtain ⟨run, hrun, rfl⟩ := List.mem_map.mp hr
    exact (hvisits run hrun).1
  · rw [haccounts.calls, List.filterMap_flatMap, List.flatMap_map]
    refine List.flatMap_congr fun r hr => ?_
    rw [ParamsSweep.filterMap_outOf_callsOf, ParamsRun.sent, (hvisits r hr).2, List.map_flatMap]

end Product

/-- A search over one species with one or two atoms, whose sub-pipe makes one structure a run. -/
def oneSpecies : SearchStoichiometries (TableStructure Unit Unit) Path ℕ (ℕ × GlobalParameters) where
  myOptions := { atomRanges := [(['A'], ⟨1, 2⟩)], ordered := List.pairwise_singleton _ _ }
  library :=
    { lastAbsFilePath := fun _ => none
      spacegroupNumber := fun _ => none
      energyInternal := fun _ => none
      numAtoms := fun structure_ => structure_.numAtoms
      noLocator := []
      isEmpty := fun locator => locator.isEmpty
      locatorString := fun locator => locator
      path := fun locator => locator
      setPath := fun _ path => path
      makeRelative := fun _ path => path
      energyPerAtom := fun _ _ => [] }
  multiIdxRange := boxRange
  isAbsolute path := path.head? == some '/'
  sharedWorkingDir := []
  subpipe w _ globalData :=
    ([⟨⟨(), 1, []⟩, decimal w.1, none, none, none⟩], (w.1 + 1, w.2), globalData)

/-- A parameter sweep with this search in its sub-pipe. -/
def oneSpeciesEach : ParamsSweep Unit Unit (ℕ × GlobalData) where
  tag := ['t']
  targetChunkTime := 100
  pid := 7
  workingDir := ['w']
  toString := fun _ => ['e']
  ENERGY_INTERNAL := ()
  subpipe := searchingSubpipe oneSpecies

/-- Two parameter sets, each with two stoichiometries. -/
theorem product_sweep_at : ∃ s, run oneSpeciesEach.step
      (ParamsSweep.begin {} (some "1 2\n3 4\n".toList) none {} (0, ⟨[], none⟩)) ParamsSweep.twoSets
        = some s ∧
    (s.calls.filterMap ParamsSweep.outOf).map (fun x => (x.name, x.potentialParams))
      = [(['0'], some [['1'], ['2']]), (['1'], some [['1'], ['2']]),
          (['2'], some [['3'], ['4']]), (['3'], some [['3'], ['4']])] ∧
    ∃ runs : List (Params × List (List ℕ × SubpipeRun (TableStructure Unit Unit))),
      s.taken = runs.map Prod.fst ++ s.block.myParamsQueue ∧
      ∀ r ∈ runs, SearchedWith oneSpecies ['t'] r.1 r.2 := by
  have hfacts : (run oneSpeciesEach.step
      (ParamsSweep.begin {} (some "1 2\n3 4\n".toList) none {} (0, ⟨[], none⟩))
        ParamsSweep.twoSets).map (fun s =>
          (s.calls.filterMap ParamsSweep.outOf).map fun x => (x.name, x.potentialParams))
      = some [(['0'], some [['1'], ['2']]), (['1'], some [['1'], ['2']]),
          (['2'], some [['3'], ['4']]), (['3'], some [['3'], ['4']])] := by
    decide +kernel
  obtain ⟨s, hs, hsent⟩ := Option.map_eq_some_iff.mp hfacts
  have hbounded : oneSpecies.myOptions.Bounded :=
    ⟨by simp [oneSpecies], by simp [oneSpecies]⟩
  obtain ⟨runs, htaken, hruns, _⟩ := product_sweep oneSpeciesEach oneSpecies rfl hbounded
    (fun _ _ _ => rfl) {} (by simp) (some "1 2\n3 4\n".toList) none {} (0, ⟨[], none⟩)
    ParamsSweep.twoSets hs
  exact ⟨s, hs, hsent, runs, htaken, hruns⟩

end StructurePipe.Blocks
