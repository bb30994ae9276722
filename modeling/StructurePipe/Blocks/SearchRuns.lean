import StructurePipe.Blocks.SearchStoichiometries
import StructurePipe.Lib.StepRuns

/-!
# The runs of a search

What `SearchStoichiometries::start` does, read off the runs of its sub-pipe: the stoichiometries, the
states that the sub-pipe goes through, and the structures that are sent on.

* `loop_induction` — what every run of the sub-pipe preserves holds of all of them;
* `exists_visits` — one run of the sub-pipe for each stoichiometry, and what comes out is what these
  have finished;
* `sweep_is_complete` — **the sub-pipe is run once for each stoichiometry, with its numbers, each time
  from where it was left, and no structure is lost.**
-/

namespace StructurePipe.Blocks

open OrderedMap StepRuns

/-- A structure that is sent out. -/
def SweepCall.sent? {α : Type*} : SweepCall α → Option α
  | .out structureData => some structureData
  | _ => none

namespace SearchStoichiometries

variable {α ρ ε ω : Type*} (b : SearchStoichiometries α ρ ε ω)

/-- Inserts send out nothing. -/
theorem sent_eq_filter (calls : List (SweepCall α)) : calls.filterMap SweepCall.sent?
    = (calls.filter fun call => !call.isInsert).filterMap SweepCall.sent? := by
  rw [List.filterMap_filter]
  congr
  funext call
  cases call <;> rfl

/-- What a run has finished is sent out. -/
theorem sent_run_outs (r : SubpipeRun α) :
    (SweepCall.run r :: r.finished.map .out).filterMap SweepCall.sent? = r.finished := by
  rw [List.filterMap_cons_none rfl, List.filterMap_map]
  exact List.filterMap_some

/-- The run of the sub-pipe in a round, and what it leaves when its structures are sent on. -/
def runOf (workingDir : Path) (s : Sweep α ω) (currentIdx : List ℕ) : SubpipeRun α × Sweep α ω :=
  let result := b.runSubpipe (b.myOptions.sweepPath workingDir currentIdx)
    (s.setGenerationSettings (b.myOptions.generationSettings currentIdx))
  (result.1, { result.2 with myBuffer := [] })

theorem round_of_visits {workingDir : Path} {s : Sweep α ω} (hbuffer : s.myBuffer = [])
    {currentIdx : List ℕ} (hvisits : b.myOptions.Visits currentIdx) :
    b.round workingDir s currentIdx
      = (b.callsOf workingDir currentIdx (b.runOf workingDir s currentIdx).1,
        (b.runOf workingDir s currentIdx).2) := by
  have hempty : (s.setGenerationSettings
      (b.myOptions.generationSettings currentIdx)).myBuffer = [] := hbuffer
  rw [round, if_pos hvisits]
  simp only [runOf, runSubpipe, releaseBufferedStructures, hempty, List.nil_append]
  rfl

/-- **A rule for the loop:** what every run of the sub-pipe preserves, for indices of a kind that differ,
holds of all runs and of what the loop leaves. -/
theorem loop_induction {P : List (List ℕ × SubpipeRun α) → Sweep α ω → Prop} {I : List ℕ → Prop}
    {workingDir : Path}
    (hrun : ∀ visits s idx, s.myBuffer = [] → I idx → idx ∉ visits.map Prod.fst → P visits s →
      P (visits ++ [(idx, (b.runOf workingDir s idx).1)]) (b.runOf workingDir s idx).2)
    {indices : List (List ℕ)} (hall : ∀ idx ∈ indices, I idx)
    (visits : List (List ℕ × SubpipeRun α)) (hnodup : (visits.map Prod.fst ++ indices).Nodup)
    {s : Sweep α ω} (hbuffer : s.myBuffer = []) (hs : P visits s) :
    P (visits ++ visitsOf (b.loop workingDir s indices).1) (b.loop workingDir s indices).2 := by
  induction indices generalizing visits s with
  | nil =>
      show P (visits ++ []) s
      rwa [List.append_nil]
  | cons idx rest ih =>
      have hrounds : ∀ calls rounds, visitsOf ((idx, calls) :: rounds)
          = ((calls.filterMap SweepCall.run?).map fun r => (idx, r)) ++ visitsOf rounds :=
        fun _ (_ : List (List ℕ × List (SweepCall α))) => rfl
      show P (visits ++ visitsOf ((idx, (b.round workingDir s idx).1)
          :: (b.loop workingDir (b.round workingDir s idx).2 rest).1))
        (b.loop workingDir (b.round workingDir s idx).2 rest).2
      rw [hrounds]
      have hlater : ∀ idx ∈ rest, I idx := fun i hi => hall i (List.mem_cons_of_mem idx hi)
      by_cases hvisits : b.myOptions.Visits idx
      · have hnew : idx ∉ visits.map Prod.fst := fun hmem =>
          (List.nodup_append.mp hnodup).2.2 idx hmem idx List.mem_cons_self rfl
        rw [b.round_of_visits hbuffer hvisits, b.runs_callsOf, List.map_singleton, ← List.append_assoc]
        refine ih hlater _ ?_ rfl (hrun visits s idx hbuffer (hall idx List.mem_cons_self) hnew hs)
        rw [List.map_append, List.map_singleton, List.append_assoc]
        exact hnodup
      · rw [round, if_neg hvisits]
        have hfewer : (visits.map Prod.fst ++ rest).Sublist (visits.map Prod.fst ++ idx :: rest) :=
          List.Sublist.append_left (List.sublist_cons_self idx rest) _
        exact ih hlater _ (hnodup.sublist hfewer) hbuffer hs

/-- The structures that `start` sends out. -/
def sent (s : Sweep α ω) : List α := ((b.start s).1.flatMap Prod.snd).filterMap SweepCall.sent?

/-- The runs of the sub-pipe: each stoichiometry of the box once, with its numbers in the global
settings. -/
structure RunsOf (visits : List (List ℕ × SubpipeRun α)) : Prop where
  nodup : (visits.map Prod.fst).Nodup
  complete : ∀ idx, idx ∈ visits.map Prod.fst ↔
    b.myOptions.InBox idx ∧ 0 < idx.sum ∧ idx.sum ≤ b.myOptions.maxAtoms
  found : ∀ visit ∈ visits,
    visit.2.found.generationSettings = some (b.myOptions.generationSettings visit.1)

theorem RunsOf.inBox {visits : List (List ℕ × SubpipeRun α)} (h : b.RunsOf visits)
    {visit : List ℕ × SubpipeRun α} (hvisit : visit ∈ visits) : b.myOptions.InBox visit.1 :=
  ((h.complete visit.1).mp (List.mem_map_of_mem hvisit)).1

/-- The settings hold the numbers of the stoichiometry. -/
theorem RunsOf.find_iff {visits : List (List ℕ × SubpipeRun α)} (h : b.RunsOf visits)
    {visit : List ℕ × SubpipeRun α} (hvisit : visit ∈ visits) (label : Str) (n : ℕ) :
    find label (b.myOptions.generationSettings visit.1).atomsSettings = some n ↔
      (label, n) ∈ (b.myOptions.atomRanges.map Prod.fst).zip visit.1 :=
  SearchOptions.find_generationSettings (h.inBox b hvisit).length_eq label n

/-- **The runs of the sub-pipe**, the calls beside the inserts, and what every run preserves. -/
theorem exists_visits_calls (hbounded : b.myOptions.Bounded) {s : Sweep α ω}
    (hbuffer : s.myBuffer = []) {P : List (List ℕ × SubpipeRun α) → Sweep α ω → Prop}
    (hrun : ∀ visits s' idx, s'.myBuffer = [] → b.myOptions.InBox idx →
      idx ∉ visits.map Prod.fst → P visits s' →
      P (visits ++ [(idx, (b.runOf (b.workingDir s.globalData) s' idx).1)])
        (b.runOf (b.workingDir s.globalData) s' idx).2)
    (hs : P [] s) :
    ∃ visits, b.RunsOf visits ∧
      ((b.start s).1.flatMap Prod.snd).filter (fun call => !call.isInsert)
        = visits.flatMap (fun visit => .run visit.2 :: visit.2.finished.map .out) ∧
      P visits (b.start s).2 := by
  obtain ⟨hindices, hrounds, _⟩ := b.loop_spec (b.workingDir s.globalData) hbuffer b.getStoichRange
  obtain ⟨hidx, hcalls⟩ := b.visitsOf_spec hrounds
  rw [hindices] at hidx
  have hmem : ∀ idx, idx ∈ (visitsOf (b.start s).1).map Prod.fst ↔
      b.myOptions.InBox idx ∧ 0 < idx.sum ∧ idx.sum ≤ b.myOptions.maxAtoms := by
    intro idx
    rw [start, hidx]
    exact b.mem_visited_iff hbounded idx
  refine ⟨visitsOf (b.start s).1, ⟨?_, hmem, fun visit hvisit => ?_⟩, ?_, ?_⟩
  · rw [start, hidx]
    exact b.nodup_visited
  · obtain ⟨calls, hround, hr⟩ := mem_visitsOf.mp hvisit
    exact ((hrounds _ hround).of_run_mem b hr).2.1
  · rw [start, hcalls, List.filter_flatMap]
    simp only [filter_callsOf]
  · exact b.loop_induction hrun
      (fun idx hidx => (b.mem_getStoichRange_iff hbounded idx).mp hidx) []
      (b.multiIdxRange.nodup _ _) hbuffer hs

/-- **The runs of the sub-pipe**, what comes out, and what every run preserves. -/
theorem exists_visits (hbounded : b.myOptions.Bounded) {s : Sweep α ω} (hbuffer : s.myBuffer = [])
    {P : List (List ℕ × SubpipeRun α) → Sweep α ω → Prop}
    (hrun : ∀ visits s' idx, s'.myBuffer = [] → b.myOptions.InBox idx →
      idx ∉ visits.map Prod.fst → P visits s' →
      P (visits ++ [(idx, (b.runOf (b.workingDir s.globalData) s' idx).1)])
        (b.runOf (b.workingDir s.globalData) s' idx).2)
    (hs : P [] s) :
    ∃ visits, b.RunsOf visits ∧ b.sent s = (visits.flatMap fun visit => visit.2.finished) ∧
      P visits (b.start s).2 := by
  obtain ⟨visits, hruns, hcalls, hP⟩ := b.exists_visits_calls hbounded hbuffer hrun hs
  refine ⟨visits, hruns, ?_, hP⟩
  rw [sent, sent_eq_filter, hcalls, List.filterMap_flatMap]
  exact List.flatMap_congr fun visit _ => sent_run_outs visit.2

/-- The runs of the sub-pipe, if its states keep a property. -/
theorem exists_visits_from (hbounded : b.myOptions.Bounded) {P : ω → Prop}
    (hP : ∀ w dir globalData, P w → P (b.subpipe w dir globalData).2.1) {s : Sweep α ω}
    (hbuffer : s.myBuffer = []) (hs : P s.subpipe) :
    ∃ visits, b.RunsOf visits ∧ b.sent s = (visits.flatMap fun visit => visit.2.finished) ∧
      ∀ visit ∈ visits, ∃ w, P w ∧
        visit.2.finished = (b.subpipe w visit.2.workingDir visit.2.found).1 := by
  obtain ⟨visits, hruns, hsent, _, hfinished⟩ := b.exists_visits hbounded hbuffer
    (P := fun visits s => P s.subpipe ∧ ∀ visit ∈ visits, ∃ w, P w ∧
      visit.2.finished = (b.subpipe w visit.2.workingDir visit.2.found).1)
    (fun visits s' idx _ _ _ h => ⟨hP _ _ _ h.1, fun visit hvisit => by
      rcases List.mem_append.mp hvisit with hvisit | hvisit
      · exact h.2 visit hvisit
      · rw [List.mem_singleton.mp hvisit]
        exact ⟨s'.subpipe, h.1, rfl⟩⟩)
    ⟨hs, by simp⟩
  exact ⟨visits, hruns, hsent, hfinished⟩

/-- A run of the sub-pipe for a stoichiometry, from a state and the global data to the next ones: it
works in the directory of the stoichiometry and finds the global data with its settings, and all else
is what the sub-pipe makes of these. -/
structure RunsFrom (workingDir : Path) (before : ω × GlobalData) (visit : List ℕ × SubpipeRun α)
    (after : ω × GlobalData) : Prop where
  workingDir : visit.2.workingDir = b.myOptions.sweepPath workingDir visit.1
  found : visit.2.found
    = { before.2 with generationSettings := some (b.myOptions.generationSettings visit.1) }
  left : visit.2.left = after.2
  result : b.subpipe before.1 visit.2.workingDir visit.2.found
    = (visit.2.finished, after.1, visit.2.left)

theorem runsFrom_runOf (workingDir : Path) (s : Sweep α ω) (idx : List ℕ) :
    b.RunsFrom workingDir (s.subpipe, s.globalData) (idx, (b.runOf workingDir s idx).1)
      ((b.runOf workingDir s idx).2.subpipe, (b.runOf workingDir s idx).2.globalData) :=
  ⟨rfl, rfl, rfl, rfl⟩

/-- **The sweep is complete and loses no structure.**  For all bounds that the conversions keep, and
for every sub-pipe: beside the inserts, the calls of `start` are one run of the sub-pipe for each
tuple of the box with a total from one to the limit, and for no other, with the structures that the
run finished sent out after it in their order; during the run the global settings hold the numbers
of the tuple; the sub-pipe takes each run from the state and the global data that the run before has
left; and between the rounds the buffer is empty. -/
theorem sweep_is_complete (hbounded : b.myOptions.Bounded) {s : Sweep α ω}
    (hbuffer : s.myBuffer = []) :
    (∃ visits : List (List ℕ × SubpipeRun α),
      ((b.start s).1.flatMap Prod.snd).filter (fun call => !call.isInsert)
        = visits.flatMap (fun visit => .run visit.2 :: visit.2.finished.map .out) ∧
      (visits.map Prod.fst).Nodup ∧
      (∀ idx, idx ∈ visits.map Prod.fst ↔
        b.myOptions.InBox idx ∧ 0 < idx.sum ∧ idx.sum ≤ b.myOptions.maxAtoms) ∧
      (∀ visit ∈ visits, ∃ settings, visit.2.found.generationSettings = some settings ∧
        ∀ label n, find label settings.atomsSettings = some n ↔
          (label, n) ∈ (b.myOptions.atomRanges.map Prod.fst).zip visit.1) ∧
      InTurn (b.RunsFrom (b.workingDir s.globalData)) (s.subpipe, s.globalData) visits
        ((b.start s).2.subpipe, (b.start s).2.globalData)) ∧
    ∀ indices, indices <+: b.getStoichRange →
      (b.loop (b.workingDir s.globalData) s indices).2.myBuffer = [] := by
  refine ⟨?_, fun indices _ => (b.loop_spec (b.workingDir s.globalData) hbuffer indices).2.2⟩
  obtain ⟨visits, hruns, hcalls, hturn⟩ := b.exists_visits_calls hbounded hbuffer
    (P := fun visits s' => InTurn (b.RunsFrom (b.workingDir s.globalData))
      (s.subpipe, s.globalData) visits (s'.subpipe, s'.globalData))
    (fun visits s' idx _ _ _ h => h.snoc (b.runsFrom_runOf _ s' idx)) rfl
  exact ⟨visits, hcalls, hruns.nodup, hruns.complete,
    fun visit hvisit => ⟨_, hruns.found visit hvisit, hruns.find_iff b hvisit⟩, hturn⟩

end SearchStoichiometries

/-- Of the four tuples of the box, the one with three atoms is not run; each run finishes the structure
that comes next. -/
theorem sweep_is_complete_at :
    ∃ visits : List (List ℕ × SubpipeRun (Option ℕ)),
      (((twoSpecies false ['w']).start ⟨⟨[], none⟩, none, []⟩).1.flatMap Prod.snd).filter
          (fun call => !call.isInsert)
        = visits.flatMap (fun visit => .run visit.2 :: visit.2.finished.map .out) ∧
      [1, 1] ∈ visits.map Prod.fst ∧ [1, 2] ∉ visits.map Prod.fst ∧
      ∀ visit rest, visits = visit :: rest → visit.2.finished = [none] := by
  obtain ⟨⟨visits, hcalls, _, hmem, _, hturn⟩, _⟩ := (twoSpecies false ['w']).sweep_is_complete
    (bounded_twoSpecies false ['w']) (s := ⟨⟨[], none⟩, none, []⟩) rfl
  refine ⟨visits, hcalls, (hmem [1, 1]).mpr ⟨?_, by decide, by decide⟩, fun h => ?_, ?_⟩
  · exact .cons ⟨by decide, by decide⟩ (.cons ⟨by decide, by decide⟩ .nil)
  · exact absurd ((hmem [1, 2]).mp h).2.2 (by decide)
  · intro visit rest hvisits
    rw [hvisits] at hturn
    obtain ⟨_, hfirst, _⟩ := hturn
    exact (congrArg Prod.fst hfirst.result).symm

end StructurePipe.Blocks
