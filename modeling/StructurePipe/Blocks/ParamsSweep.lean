import StructurePipe.Blocks.GeomOptimise
import StructurePipe.Blocks.ParamsQueueStart

/-!
# The structures of a parameter sweep

`RunPotentialParamsQueue::start` with its sub-pipe.  Before each run it stores the parameter set under
its tag in the global data and gives the sub-pipe a directory with a name of its own; what the sub-pipe
finishes is marked with the parameters, unless it is marked already, and buffered.  After the run the
buffered structures are written to the table, under the directory, and then sent on.

The queue and the done file are those of `Start`; the calls made are listed in their order.  The
sub-pipe is any function of its own state, its directory and the parameters in the global data.

* `step_toStart` — without its structures the block is the `Start` of before, step by step;
* `Accounts.step` — what every step keeps;
* `sweep_accounts` — **every parameter set is run once and every structure sent once, in every run;**
* `row_shows_params` — the row of a run.
-/

namespace StructurePipe.Blocks

open StepRuns Utility Common LastWrites
open IeeeDivision (Number)

/-! ### The block with its sub-pipe -/

/-- The settings, the engine, and what is written of a structure. -/
structure ParamsSweep (κ π ω : Type*) where
  tag : Str
  targetChunkTime : ℤ
  pid : ℕ
  workingDir : Path
  toString : Number → Str
  ENERGY_INTERNAL : π
  subpipe : ω → Path → GlobalParameters → List (TableStructure κ π) × ω × GlobalParameters

/-- A structure is marked with the current parameters, unless it has some. -/
def RunPotentialParamsQueue.finished {κ π : Type*} (myCurrentParams : Params)
    (structure_ : TableStructure κ π) : TableStructure κ π :=
  match structure_.potentialParams with
  | none => { structure_ with potentialParams := some myCurrentParams }
  | some _ => structure_

/-- A run of the sub-pipe: the parameter set, the global data it finds, the name of its directory, and
the structures it passes to `finished`. -/
structure ParamsRun (κ π : Type*) where
  params : Params
  found : GlobalParameters
  dirName : Str
  passed : List (TableStructure κ π)

/-- The structures that are sent on after a run. -/
def ParamsRun.sent {κ π : Type*} (r : ParamsRun κ π) : List (TableStructure κ π) :=
  r.passed.map (RunPotentialParamsQueue.finished r.params)

inductive ParamsSweepCall (κ π : Type*) where
  | run (r : ParamsRun κ π)
  | insert (key colName value : Str)
  | out (structure_ : TableStructure κ π)

/-- `start` with what else changes while it is running. -/
structure ParamsSweeping (κ π ω : Type*) extends Start where
  globalData : GlobalParameters
  subpipe : ω
  myBuffer : List (TableStructure κ π) := []
  calls : List (ParamsSweepCall κ π) := []

/-- As `StartEvent`; `generateParamDirName` returns the name given. -/
inductive ParamsSweepEvent where
  | queueFileChanges (queueFile : Option Str)
  | proceed (dirName : Str) (doneFile : Option Str) (meanDuration : ℤ)
deriving DecidableEq, Repr

def ParamsSweepEvent.toStartEvent : ParamsSweepEvent → StartEvent
  | queueFileChanges queueFile => .queueFileChanges queueFile
  | proceed _ doneFile meanDuration => .proceed doneFile meanDuration

namespace ParamsSweep

variable {κ π ω : Type*} (b : ParamsSweep κ π ω)

def sweepPath (dirName : Str) : Path := b.workingDir.append dirName

/-- `mySubpipeEngine->run()`: every structure passed to `finished` goes to the buffer. -/
def runSubpipe (params : Params) (dirName : Str) (s : ParamsSweeping κ π ω) :
    ParamsSweeping κ π ω :=
  let result := b.subpipe s.subpipe (b.sweepPath dirName) s.globalData
  { s with
    globalData := result.2.2
    subpipe := result.2.1
    myBuffer := s.myBuffer ++ result.1.map (RunPotentialParamsQueue.finished params)
    calls := s.calls ++ [.run ⟨params, s.globalData, dirName, result.1⟩] }

section Table

variable [DecidableEq π]

def updateTable (key : Str) (structure_ : TableStructure κ π) : List (ParamsSweepCall κ π) :=
  (insertStructureInfoAndPotentialParams b.toString b.ENERGY_INTERNAL structure_).map fun cell =>
    .insert key cell.1 cell.2

def releaseBufferedStructures (key : Str) (s : ParamsSweeping κ π ω) : ParamsSweeping κ π ω :=
  { s with
    myBuffer := []
    calls := s.calls ++ (s.myBuffer.flatMap (b.updateTable key) ++ s.myBuffer.map .out) }

/-- The body of the inner loop. -/
def runFront (dirName : Str) (s : ParamsSweeping κ π ω) : ParamsSweeping κ π ω :=
  match s.block.myParamsQueue with
  | [] => s
  | params :: _ =>
      let s := { s with globalData := s.globalData.setParameters b.tag params }
      let s := b.runSubpipe params dirName s
      b.releaseBufferedStructures (b.sweepPath dirName) { s with toStart := s.toStart.runFront }

def step (s : ParamsSweeping κ π ω) : ParamsSweepEvent → Option (ParamsSweeping κ π ω)
  | .queueFileChanges queueFile => some { s with queueFile := queueFile }
  | .proceed dirName doneFile meanDuration =>
      match s.head with
      | .outer => some { s with toStart := (s.toStart.findDoneFile doneFile).getWork b.pid }
      | .inner =>
          if s.block.myParamsQueue.isEmpty then
            ((s.toStart.findDoneFile doneFile).finishChunk b.targetChunkTime meanDuration).map
              fun start => { s with toStart := start }
          else some (b.runFront dirName { s with toStart := s.toStart.findDoneFile doneFile })
      | .returned => none

/-- `start` is called on a block with an empty buffer. -/
def begin (block : RunPotentialParamsQueue) (queueFile doneFile : Option Str)
    (globalData : GlobalParameters) (subpipe : ω) : ParamsSweeping κ π ω where
  toStart := Start.begin block queueFile doneFile
  globalData := globalData
  subpipe := subpipe

/-! ### The same steps without the structures -/

theorem toStart_runFront (dirName : Str) {s : ParamsSweeping κ π ω}
    (hqueue : s.block.myParamsQueue ≠ []) : (b.runFront dirName s).toStart = s.toStart.runFront := by
  obtain ⟨params, rest, hcons⟩ := List.exists_cons_of_ne_nil hqueue
  rw [runFront, hcons]
  rfl

/-- **Without its structures the block takes the steps of `Start`.** -/
theorem step_toStart (s : ParamsSweeping κ π ω) (event : ParamsSweepEvent) :
    (b.step s event).map ParamsSweeping.toStart
      = s.toStart.step b.targetChunkTime b.pid event.toStartEvent := by
  cases event with
  | queueFileChanges queueFile => rfl
  | proceed dirName doneFile meanDuration =>
      rw [step, ParamsSweepEvent.toStartEvent, Start.step]
      cases hhead : s.head with
      | outer => rfl
      | inner =>
          cases hqueue : s.block.myParamsQueue with
          | nil => simp [Option.map_map, Function.comp_def]
          | cons params rest =>
              have hne : ({ s with toStart := s.toStart.findDoneFile doneFile } :
                  ParamsSweeping κ π ω).block.myParamsQueue ≠ [] := by
                show s.block.myParamsQueue ≠ []
                simp [hqueue]
              simp [b.toStart_runFront dirName hne]
      | returned => rfl

theorem run_toStart {s s' : ParamsSweeping κ π ω} {events : List ParamsSweepEvent}
    (h : run b.step s events = some s') :
    run (Start.step b.targetChunkTime b.pid) s.toStart
      (events.map ParamsSweepEvent.toStartEvent) = some s'.toStart := by
  induction events generalizing s with
  | nil => exact congrArg (Option.map ParamsSweeping.toStart) h
  | cons event events ih =>
      obtain ⟨m, hm, hrun⟩ := Option.bind_eq_some_iff.mp h
      have hstep := b.step_toStart s event
      rw [hm, Option.map_some] at hstep
      rw [List.map_cons, run_cons, ← hstep]
      exact ih hrun

/-! ### The accounts -/

/-- The calls of a round: the run, what is written of its structures, the structures. -/
def callsOf (r : ParamsRun κ π) : List (ParamsSweepCall κ π) :=
  .run r :: (r.sent.flatMap (b.updateTable (b.sweepPath r.dirName)) ++ r.sent.map .out)

/-- What holds at a loop head after these runs, if `done` was done before. -/
structure Accounts (done : List Params) (runs : List (ParamsRun κ π)) (s : ParamsSweeping κ π ω) :
    Prop where
  buffer : s.myBuffer = []
  queued : ∀ params ∈ s.block.myParamsQueue, params ≠ []
  calls : s.calls = runs.flatMap b.callsOf
  ran : s.ran = done ++ runs.map ParamsRun.params
  found : ∀ r ∈ runs, r.found.find b.tag = some r.params
  passed : ∀ r ∈ runs, ∃ subpipe, r.passed = (b.subpipe subpipe (b.sweepPath r.dirName) r.found).1

end Table

end ParamsSweep

namespace RunPotentialParamsQueue

/-- No parameter set without a parameter is pushed. -/
theorem readLoop_ne_nil (pid chunk fuel : ℕ) {s : Scan} (h : ∀ params ∈ s.myParamsQueue, params ≠ []) :
    ∀ params ∈ (s.readLoop pid chunk fuel).myParamsQueue, params ≠ [] := by
  induction fuel generalizing s with
  | zero => exact h
  | succ fuel ih =>
      rw [Scan.readLoop]
      split
      · split
        · exact h
        · next line rest _ =>
            refine ih fun params hparams => ?_
            rw [Scan.readLine, readParams_eq] at hparams
            split at hparams
            · rcases List.mem_append.mp hparams with hold | hnew
              · exact h params hold
              · rw [List.mem_singleton.mp hnew]
                exact List.splitOnP_ne_nil _ _
            · exact h params hparams
      · exact h

theorem getWork_ne_nil (b : RunPotentialParamsQueue) (pid : ℕ) (queueFile : Option Str)
    (h : ∀ params ∈ b.myParamsQueue, params ≠ []) :
    ∀ params ∈ (b.getWork pid queueFile).2.1.myParamsQueue, params ≠ [] := by
  cases queueFile with
  | none => exact h
  | some content => exact readLoop_ne_nil pid b.myNumWorkItemsChunk content.length h

end RunPotentialParamsQueue

namespace ParamsSweep

variable {κ π ω : Type*} [DecidableEq π] {b : ParamsSweep κ π ω}

theorem accounts_begin {block : RunPotentialParamsQueue}
    (hqueue : ∀ params ∈ block.myParamsQueue, params ≠ []) (queueFile doneFile : Option Str)
    (globalData : GlobalParameters) (subpipe : ω) :
    b.Accounts block.myDoneParams [] (begin block queueFile doneFile globalData subpipe) :=
  ⟨rfl, hqueue, rfl, (List.append_nil _).symm, fun _ hr => absurd hr List.not_mem_nil,
    fun _ hr => absurd hr List.not_mem_nil⟩

/-- **One round of the inner loop.** -/
theorem Accounts.runFront {done : List Params} {runs : List (ParamsRun κ π)}
    {s : ParamsSweeping κ π ω} (h : b.Accounts done runs s) (hqueue : s.block.myParamsQueue ≠ [])
    (dirName : Str) : ∃ r, b.Accounts done (runs ++ [r]) (b.runFront dirName s) := by
  obtain ⟨params, rest, hcons⟩ := List.exists_cons_of_ne_nil hqueue
  have hparams : params ≠ [] := h.queued params (hcons ▸ List.mem_cons_self)
  have hstart := b.toStart_runFront dirName hqueue
  have hblock : s.block.runFront.myParamsQueue = rest := by
    rw [RunPotentialParamsQueue.runFront, hcons]
  have hfind : (s.globalData.setParameters b.tag params).find b.tag = some params := by
    rw [GlobalParameters.find_setParameters, if_pos rfl, GlobalParameters.stored,
      if_neg (by simpa using hparams)]
  refine ⟨⟨params, s.globalData.setParameters b.tag params, dirName,
    (b.subpipe s.subpipe (b.sweepPath dirName) (s.globalData.setParameters b.tag params)).1⟩,
    ?_, ?_, ?_, ?_, ?_, ?_⟩
  · rw [ParamsSweep.runFront, hcons]
    rfl
  · intro p hp
    rw [hstart] at hp
    exact h.queued p (hcons ▸ List.mem_cons_of_mem params (hblock ▸ hp))
  · rw [ParamsSweep.runFront, hcons]
    simp [releaseBufferedStructures, runSubpipe, h.buffer, h.calls, callsOf, ParamsRun.sent]
  · rw [hstart]
    show s.ran ++ s.block.myParamsQueue.take 1 = _
    rw [h.ran, hcons, List.map_append]
    simp
  · intro r hr
    rcases List.mem_append.mp hr with hold | hnew
    · exact h.found r hold
    · rw [List.mem_singleton.mp hnew]
      exact hfind
  · intro r hr
    rcases List.mem_append.mp hr with hold | hnew
    · exact h.passed r hold
    · rw [List.mem_singleton.mp hnew]
      exact ⟨s.subpipe, rfl⟩

/-- **One step.** -/
theorem Accounts.step {done : List Params} {runs : List (ParamsRun κ π)}
    {s s' : ParamsSweeping κ π ω} (h : b.Accounts done runs s) {event : ParamsSweepEvent}
    (hstep : b.step s event = some s') : ∃ more, b.Accounts done (runs ++ more) s' := by
  cases event with
  | queueFileChanges queueFile =>
      obtain rfl := Option.some.inj hstep
      exact ⟨[], by simpa using ⟨h.buffer, h.queued, h.calls, h.ran, h.found, h.passed⟩⟩
  | proceed dirName doneFile meanDuration =>
      rw [ParamsSweep.step] at hstep
      cases hhead : s.head with
      | outer =>
          rw [hhead] at hstep
          obtain rfl := Option.some.inj hstep
          refine ⟨[], ?_⟩
          rw [List.append_nil]
          exact ⟨h.buffer, RunPotentialParamsQueue.getWork_ne_nil _ _ _ h.queued, h.calls, h.ran,
            h.found, h.passed⟩
      | inner =>
          simp only [hhead] at hstep
          split at hstep
          · obtain ⟨start, hstart, rfl⟩ := Option.map_eq_some_iff.mp hstep
            refine ⟨[], ?_⟩
            rw [List.append_nil]
            obtain ⟨n, ⟨_, rfl⟩ | ⟨content, _, rfl⟩⟩ := Start.finishChunk_cases hstart
            · exact ⟨h.buffer, h.queued, h.calls, h.ran, h.found, h.passed⟩
            · exact ⟨h.buffer, h.queued, h.calls, h.ran, h.found, h.passed⟩
          · next hqueue =>
              obtain rfl := Option.some.inj hstep
              have hfound : b.Accounts done runs
                  { s with toStart := s.toStart.findDoneFile doneFile } :=
                ⟨h.buffer, h.queued, h.calls, h.ran, h.found, h.passed⟩
              obtain ⟨r, hr⟩ := hfound.runFront (fun hnil => hqueue (List.isEmpty_iff.mpr hnil)) dirName
              exact ⟨[r], hr⟩
      | returned =>
          rw [hhead] at hstep
          exact absurd hstep (by simp)

theorem accounts_run {done : List Params} {runs : List (ParamsRun κ π)}
    {s s' : ParamsSweeping κ π ω} (h : b.Accounts done runs s) {events : List ParamsSweepEvent}
    (hrun : run b.step s events = some s') : ∃ runs', b.Accounts done runs' s' :=
  run_invariant (fun s => ∃ runs, b.Accounts done runs s) (fun _ => True)
    (fun _ _ _ ⟨_, hs⟩ _ hstep => (hs.step hstep).imp' _ fun _ hmore => hmore) ⟨runs, h⟩
    (fun _ _ => trivial) hrun

/-- **Every run of `start` has its accounts**, and what was taken is what was done before, what was run
and what is queued. -/
theorem exists_accounts {block : RunPotentialParamsQueue}
    (hqueue : ∀ params ∈ block.myParamsQueue, params ≠ []) {queueFile doneFile : Option Str}
    {globalData : GlobalParameters} {subpipe : ω} {events : List ParamsSweepEvent}
    {s : ParamsSweeping κ π ω}
    (h : run b.step (begin block queueFile doneFile globalData subpipe) events = some s) :
    ∃ runs, b.Accounts block.myDoneParams runs s ∧
      s.taken = block.myDoneParams ++ runs.map ParamsRun.params ++ s.block.myParamsQueue := by
  obtain ⟨runs, haccounts⟩ :=
    accounts_run (accounts_begin (b := b) hqueue queueFile doneFile globalData subpipe) h
  have hbooks : s.toStart.Books := run_invariant Start.Books (fun _ => True)
    (fun _ _ _ hs _ hstep => hs.step hstep) (Start.books_begin block queueFile doneFile)
    (fun _ _ => trivial) (b.run_toStart h)
  refine ⟨runs, haccounts, ?_⟩
  rw [hbooks.taken, ← hbooks.ran, haccounts.ran]

/-! ### What the calls amount to -/

/-- The structures that are sent on. -/
def outOf : ParamsSweepCall κ π → Option (TableStructure κ π)
  | .run _ => none
  | .insert _ _ _ => none
  | .out structure_ => some structure_

/-- The writes to the table. -/
def writeOf : ParamsSweepCall κ π → Option ((Str × Str) × Str)
  | .run _ => none
  | .insert key colName value => some ((key, colName), value)
  | .out _ => none

/-- The cells written for the structures of a run. -/
def cellsOf (b : ParamsSweep κ π ω) (r : ParamsRun κ π) : List (Str × Str) :=
  r.sent.flatMap (insertStructureInfoAndPotentialParams b.toString b.ENERGY_INTERNAL)

theorem filterMap_outOf_callsOf (r : ParamsRun κ π) : (b.callsOf r).filterMap outOf = r.sent := by
  have hinserts : (r.sent.flatMap (b.updateTable (b.sweepPath r.dirName))).filterMap outOf = [] := by
    rw [List.filterMap_eq_nil_iff]
    intro call hcall
    obtain ⟨structure_, _, hcell⟩ := List.mem_flatMap.mp hcall
    obtain ⟨cell, _, rfl⟩ := List.mem_map.mp hcell
    rfl
  have houts : (r.sent.map (ParamsSweepCall.out (π := π))).filterMap outOf = r.sent := by
    rw [List.filterMap_map]
    exact List.filterMap_some
  rw [callsOf, List.filterMap_cons_none (by rfl), List.filterMap_append, hinserts, houts,
    List.nil_append]

theorem filterMap_writeOf_callsOf (r : ParamsRun κ π) :
    (b.callsOf r).filterMap writeOf = rowWrites (b.sweepPath r.dirName) (b.cellsOf r) := by
  have hinserts : ∀ structures : List (TableStructure κ π),
      (structures.flatMap (b.updateTable (b.sweepPath r.dirName))).filterMap writeOf
        = rowWrites (b.sweepPath r.dirName) (structures.flatMap
            (insertStructureInfoAndPotentialParams b.toString b.ENERGY_INTERNAL)) := by
    intro structures
    rw [rowWrites, List.map_flatMap, List.filterMap_flatMap]
    refine List.flatMap_congr fun structure_ _ => ?_
    rw [updateTable, List.filterMap_map, ← List.filterMap_eq_map]
    rfl
  have houts : (r.sent.map (ParamsSweepCall.out (π := π))).filterMap writeOf = [] := by
    rw [List.filterMap_map, List.filterMap_eq_nil_iff]
    exact fun _ _ => rfl
  rw [callsOf, List.filterMap_cons_none (by rfl), List.filterMap_append, hinserts, houts,
    List.append_nil, cellsOf]

/-- A run among the calls. -/
def runOf : ParamsSweepCall κ π → Option (ParamsRun κ π)
  | .run r => some r
  | .insert _ _ _ => none
  | .out _ => none

/-- What follows a run has no runs. -/
theorem filterMap_runOf_released (b : ParamsSweep κ π ω) (key : Str)
    (structures : List (TableStructure κ π)) :
    (structures.flatMap (b.updateTable key) ++ structures.map ParamsSweepCall.out).filterMap runOf
      = [] := by
  rw [List.filterMap_eq_nil_iff]
  intro call hcall
  rcases List.mem_append.mp hcall with hinsert | hout
  · obtain ⟨structure_, _, hcell⟩ := List.mem_flatMap.mp hinsert
    obtain ⟨cell, _, rfl⟩ := List.mem_map.mp hcell
    rfl
  · obtain ⟨structure_, _, rfl⟩ := List.mem_map.mp hout
    rfl

theorem filterMap_runOf_callsOf (r : ParamsRun κ π) : (b.callsOf r).filterMap runOf = [r] := by
  rw [callsOf, List.filterMap_cons_some (by rfl), filterMap_runOf_released]

theorem Accounts.runs_eq {done : List Params} {runs : List (ParamsRun κ π)}
    {s : ParamsSweeping κ π ω} (h : b.Accounts done runs s) : s.calls.filterMap runOf = runs := by
  rw [h.calls, List.filterMap_flatMap, List.flatMap_congr fun r _ => filterMap_runOf_callsOf r]
  exact List.flatMap_singleton' runs

/-! ### A sub-pipe that optimises -/

/-- A sub-pipe that makes structures and optimises their geometry. -/
def optimisingSubpipe {ψ : Type*} (g : GeomOptimise κ π ψ)
    (source : ω → Path → List (TableStructure κ π) × ω) (subpipe : ω × ψ) (workingDir : Path)
    (globalData : GlobalParameters) :
    List (TableStructure κ π) × (ω × ψ) × GlobalParameters :=
  let made := source subpipe.1 workingDir
  let result := g.optimiseAll (g.parameterise globalData subpipe.2) made.1
  (g.sentOf result.1, (made.2, result.2), globalData)

/-- Makes one structure a run. -/
def makeOne (n : ℕ) (_ : Path) : List (TableStructure Unit Unit) × ℕ :=
  ([⟨⟨(), 1, []⟩, decimal n, none, none, none⟩], n + 1)

/-- A sweep whose sub-pipe makes one structure a run and optimises it. -/
def oneEach : ParamsSweep Unit Unit (ℕ × Parameters) where
  tag := ['t']
  targetChunkTime := 100
  pid := 7
  workingDir := ['w']
  toString := fun _ => ['e']
  ENERGY_INTERNAL := ()
  subpipe := optimisingSubpipe fourSteps makeOne

def begun : ParamsSweeping Unit Unit (ℕ × Parameters) :=
  begin {} (some "1 2\n3 4\n".toList) none {} (0, [])

/-- Two parameter sets in one chunk, then the end of the queue. -/
def twoSets : List ParamsSweepEvent :=
  [.proceed [] none 200, .proceed ['x'] none 200, .proceed ['y'] none 200, .proceed [] none 200,
    .proceed [] none 200]

/-- How the run of the two sets ends. -/
theorem exists_run_twoSets : ∃ s, run oneEach.step begun twoSets = some s ∧ s.head = .returned ∧
    (s.calls.filterMap runOf).map (fun r => (r.params, r.dirName))
      = [([['1'], ['2']], ['x']), ([['3'], ['4']], ['y'])] := by
  have hfacts : (run oneEach.step begun twoSets).map (fun s => (s.head,
      (s.calls.filterMap runOf).map fun r => (r.params, r.dirName)))
      = some (.returned, [([['1'], ['2']], ['x']), ([['3'], ['4']], ['y'])]) := by
    decide +kernel
  obtain ⟨s, hs, heq⟩ := Option.map_eq_some_iff.mp hfacts
  exact ⟨s, hs, congrArg Prod.fst heq, congrArg Prod.snd heq⟩

/-! ### Every run of `start` -/

/-- A run of the sub-pipe, from a state and the global data to the next ones: it finds its parameter set
stored under the tag, and what it passes on and what it leaves are what the sub-pipe makes of that. -/
structure RunsFrom (b : ParamsSweep κ π ω) (before : ω × GlobalParameters) (r : ParamsRun κ π)
    (after : ω × GlobalParameters) : Prop where
  found : r.found = before.2.setParameters b.tag r.params
  result : b.subpipe before.1 (b.sweepPath r.dirName) r.found = (r.passed, after)

/-- The runs so far, from the state and the global data at the start. -/
def RunsInTurn (b : ParamsSweep κ π ω) (start : ω × GlobalParameters) (s : ParamsSweeping κ π ω) :
    Prop :=
  InTurn b.RunsFrom start (s.calls.filterMap runOf) (s.subpipe, s.globalData)

/-- A round of the inner loop has the run of the front of the queue. -/
theorem RunsInTurn.runFront {start : ω × GlobalParameters} {s : ParamsSweeping κ π ω}
    (h : b.RunsInTurn start s) (dirName : Str) : b.RunsInTurn start (b.runFront dirName s) := by
  cases hqueue : s.block.myParamsQueue with
  | nil => rwa [ParamsSweep.runFront, hqueue]
  | cons params rest =>
      have hcalls : ∀ (calls : List (ParamsSweepCall κ π)) r key (structures : List _),
          (calls ++ [ParamsSweepCall.run r] ++ (structures.flatMap (b.updateTable key)
            ++ structures.map ParamsSweepCall.out)).filterMap runOf
              = calls.filterMap runOf ++ [r] := by
        intro calls r key structures
        rw [List.filterMap_append, filterMap_runOf_released, List.append_nil, List.filterMap_append]
        rfl
      rw [RunsInTurn, ParamsSweep.runFront, hqueue]
      simp only [releaseBufferedStructures, runSubpipe, hcalls]
      exact InTurn.snoc h ⟨rfl, rfl⟩

/-- **One step.** -/
theorem RunsInTurn.step {start : ω × GlobalParameters} {s s' : ParamsSweeping κ π ω}
    (h : b.RunsInTurn start s) {event : ParamsSweepEvent} (hstep : b.step s event = some s') :
    b.RunsInTurn start s' := by
  cases event with
  | queueFileChanges queueFile =>
      obtain rfl := Option.some.inj hstep
      exact h
  | proceed dirName doneFile meanDuration =>
      rw [ParamsSweep.step] at hstep
      cases hhead : s.head with
      | outer =>
          rw [hhead] at hstep
          obtain rfl := Option.some.inj hstep
          exact h
      | inner =>
          simp only [hhead] at hstep
          split at hstep
          · obtain ⟨next, _, rfl⟩ := Option.map_eq_some_iff.mp hstep
            exact h
          · obtain rfl := Option.some.inj hstep
            have hfound : b.RunsInTurn start
                { s with toStart := s.toStart.findDoneFile doneFile } := h
            exact hfound.runFront dirName
      | returned =>
          rw [hhead] at hstep
          exact absurd hstep (by simp)

/-- **Every parameter set is run once, and every structure is sent once.**  In every run of `start` on
a block that has no empty parameter set in its queue, whatever others do to the two files and whatever
the sub-pipe does: the parameter sets taken are those done before, those that were run, each once and
in this order, and those in the queue.  The sub-pipe takes each run from the state and the global data
that the run before has left, finds the run's own parameter set under the tag, and passes on what it
makes of that.  The calls are those of the runs, one run after the other: the run, the inserts for its
structures, and its structures; so what is sent on are the structures of all runs, and the buffer is
empty. -/
theorem sweep_accounts (b : ParamsSweep κ π ω) (block : RunPotentialParamsQueue)
    (hqueue : ∀ params ∈ block.myParamsQueue, params ≠ []) (queueFile doneFile : Option Str)
    (globalData : GlobalParameters) (subpipe : ω) (events : List ParamsSweepEvent)
    {s : ParamsSweeping κ π ω}
    (h : run b.step (begin block queueFile doneFile globalData subpipe) events = some s) :
    ∃ runs : List (ParamsRun κ π),
      s.taken = block.myDoneParams ++ runs.map ParamsRun.params ++ s.block.myParamsQueue ∧
      (∀ r ∈ runs, r.found.find b.tag = some r.params) ∧
      (∀ r ∈ runs, ∃ w, r.passed = (b.subpipe w (b.sweepPath r.dirName) r.found).1) ∧
      InTurn b.RunsFrom (subpipe, globalData) runs (s.subpipe, s.globalData) ∧
      s.calls = runs.flatMap b.callsOf ∧
      s.calls.filterMap outOf = runs.flatMap ParamsRun.sent ∧ s.myBuffer = [] := by
  obtain ⟨runs, haccounts, htaken⟩ := exists_accounts hqueue h
  have hbegin : b.RunsInTurn (subpipe, globalData)
      (begin block queueFile doneFile globalData subpipe) := by
    show InTurn b.RunsFrom (subpipe, globalData) [] (subpipe, globalData)
    rfl
  have hturn : b.RunsInTurn (subpipe, globalData) s :=
    run_invariant (b.RunsInTurn (subpipe, globalData)) (fun _ => True)
      (fun _ _ _ hs _ hstep => hs.step hstep) hbegin (fun _ _ => trivial) h
  rw [RunsInTurn, haccounts.runs_eq] at hturn
  refine ⟨runs, htaken, haccounts.found, haccounts.passed, hturn, haccounts.calls, ?_,
    haccounts.buffer⟩
  rw [haccounts.calls, List.filterMap_flatMap]
  exact List.flatMap_congr fun r _ => filterMap_outOf_callsOf r

theorem sweep_accounts_at : ∃ s, run oneEach.step begun twoSets = some s ∧ s.head = .returned ∧
    ∃ runs : List (ParamsRun Unit Unit),
      InTurn oneEach.RunsFrom ((0, []), {}) runs (s.subpipe, s.globalData) ∧
      s.calls.filterMap outOf = runs.flatMap ParamsRun.sent ∧ s.myBuffer = [] := by
  obtain ⟨s, hs, hhead, _⟩ := exists_run_twoSets
  obtain ⟨runs, _, _, _, hturn, _, houts, hbuffer⟩ := sweep_accounts oneEach {} (by simp)
    (some "1 2\n3 4\n".toList) none {} (0, []) twoSets hs
  exact ⟨s, hs, hhead, runs, hturn, houts, hbuffer⟩

/-! ### The rows -/

/-- A name that can be appended to a path. -/
def IsName (dirName : Str) : Prop := dirName ≠ [] ∧ dirName.head? ≠ some '/'

/-- The inserts of the calls so far. -/
def tableHistory (order : EvalOrder) (s : ParamsSweeping κ π ω) : List TableOp :=
  insertsOf order (s.calls.filterMap writeOf)

omit [DecidableEq π] in
theorem sweepPath_inj {dirName dirName' : Str} (h : IsName dirName) (h' : IsName dirName')
    (heq : b.sweepPath dirName = b.sweepPath dirName') : dirName = dirName' := by
  rw [sweepPath, sweepPath, Path.append_of_name h.1 h.2, Path.append_of_name h'.1 h'.2] at heq
  exact List.append_cancel_left heq

/-- **The row of a run.**  With directories of their own, the runs have rows of their own. -/
theorem Accounts.lookup_row {done : List Params} {runs : List (ParamsRun κ π)}
    {s : ParamsSweeping κ π ω} (h : b.Accounts done runs s) (hnames : ∀ r ∈ runs, IsName r.dirName)
    (hnodup : (runs.map ParamsRun.dirName).Nodup) {σ : Type*} (l : Listener σ) (order : EvalOrder)
    {u₀ u : σ} {t : DataTable}
    (hrun : StepRuns.run (TableOp.apply l) ({}, u₀) (tableHistory order s) = some (t, u))
    {r : ParamsRun κ π} (hr : r ∈ runs) {c v : Str} (hlast : last c (b.cellsOf r) = some v) :
    t.lookup (b.sweepPath r.dirName) c = some v := by
  have hwrites : s.calls.filterMap writeOf
      = runs.flatMap fun r => rowWrites (b.sweepPath r.dirName) (b.cellsOf r) := by
    rw [h.calls, List.filterMap_flatMap]
    exact List.flatMap_congr fun r _ => filterMap_writeOf_callsOf r
  have hkeys : runs.Pairwise fun r r' => b.sweepPath r.dirName ≠ b.sweepPath r'.dirName :=
    (List.pairwise_map.mp hnodup).imp_of_mem fun hmem hmem' hne heq =>
      hne (sweepPath_inj (hnames _ hmem) (hnames _ hmem') heq)
  have hrow : last (b.sweepPath r.dirName, c)
      (runs.flatMap fun r => rowWrites (b.sweepPath r.dirName) (b.cellsOf r)) = last c (b.cellsOf r) :=
    last_flatMap_rowWrites hkeys hr c
  refine lookup_of_run l u₀ hrun ?_
  rw [tableHistory, gridOf_insertsOf, hwrites, hrow, hlast]

/-- The column of the `i`-th parameter. -/
def paramColumn (i : ℕ) : Str := ['p', '_'] ++ decimal i

theorem paramColumn_inj {i j : ℕ} (h : paramColumn i = paramColumn j) : i = j :=
  decimal_injective (List.append_cancel_left h)

/-- The cells of the parameters are those of the parameter columns. -/
theorem mem_cells_paramColumn (toString : Number → Str) (ENERGY_INTERNAL : π)
    {structure_ : TableStructure κ π} {i : ℕ} {v : Str} :
    (paramColumn i, v) ∈ insertStructureInfoAndPotentialParams toString ENERGY_INTERNAL structure_ ↔
      (structure_.potentialParams.getD [])[i]? = some v := by
  have hparams : (paramColumn i, v) ∈ paramCells (structure_.potentialParams.getD []) ↔
      (structure_.potentialParams.getD [])[i]? = some v := by
    rw [paramCells, List.mem_map]
    constructor
    · rintro ⟨⟨param, j⟩, hmem, heq⟩
      obtain ⟨hcolumn, hvalue⟩ := Prod.mk.inj heq
      rw [← paramColumn_inj hcolumn, ← hvalue]
      exact List.mem_zipIdx_iff_getElem?.mp hmem
    · intro hget
      exact ⟨(v, i), List.mem_zipIdx_iff_getElem?.mpr hget, rfl⟩
  rw [← hparams, insertStructureInfoAndPotentialParams.eq_def, List.append_assoc,
    List.append_assoc, List.mem_append]
  refine or_iff_left ?_
  cases structure_.properties.lookup ENERGY_INTERNAL <;> cases structure_.relativeSavePath <;>
    cases structure_.spacegroupNumber <;> simp [paramColumn]

/-- **The parameters in the row of a run**, if its structures are marked with them. -/
theorem last_cellsOf {r : ParamsRun κ π} (hne : r.passed ≠ [])
    (hmarked : ∀ structure_ ∈ r.sent, structure_.potentialParams = some r.params) {i : ℕ} {v : Str}
    (hv : r.params[i]? = some v) : last (paramColumn i) (b.cellsOf r) = some v := by
  have hcell : ∀ w, (paramColumn i, w) ∈ b.cellsOf r → w = v := by
    intro w hw
    obtain ⟨structure_, hmem, hcell⟩ := List.mem_flatMap.mp hw
    rw [mem_cells_paramColumn, hmarked structure_ hmem, Option.getD_some, hv] at hcell
    exact (Option.some.inj hcell).symm
  obtain ⟨structure_, hmem⟩ := List.exists_mem_of_ne_nil r.sent (by simpa [ParamsRun.sent] using hne)
  have hthere : (paramColumn i, v) ∈ b.cellsOf r := by
    refine List.mem_flatMap.mpr ⟨structure_, hmem, ?_⟩
    rw [mem_cells_paramColumn, hmarked structure_ hmem, Option.getD_some, hv]
  obtain ⟨w, hw⟩ := exists_last hthere
  rw [hw, hcell w (mem_of_last hw)]

/-- **The row of a run shows its parameters.**  In every run of `start`, if the directories of the
sub-pipe's runs have names of their own, and whatever listens to the table: each run of the sub-pipe
has a row that holds what was last written for its structures; and if it has passed on a structure,
and none that is marked with other parameters, the row shows the parameter set of the run, one
parameter a column. -/
theorem row_shows_params (b : ParamsSweep κ π ω) (block : RunPotentialParamsQueue)
    (hqueue : ∀ params ∈ block.myParamsQueue, params ≠ []) (queueFile doneFile : Option Str)
    (globalData : GlobalParameters) (subpipe : ω) (events : List ParamsSweepEvent)
    {s : ParamsSweeping κ π ω}
    (h : run b.step (begin block queueFile doneFile globalData subpipe) events = some s)
    (hnames : ∀ r ∈ s.calls.filterMap runOf, IsName r.dirName)
    (hunique : ((s.calls.filterMap runOf).map ParamsRun.dirName).Nodup)
    {σ : Type*} (l : Listener σ) (order : EvalOrder) {u₀ u : σ} {t : DataTable}
    (htable : run (TableOp.apply l) ({}, u₀) (tableHistory order s) = some (t, u)) :
    ∀ r ∈ s.calls.filterMap runOf,
      (∀ c v, last c (b.cellsOf r) = some v → t.lookup (b.sweepPath r.dirName) c = some v) ∧
      (r.passed ≠ [] → (∀ structure_ ∈ r.passed,
          structure_.potentialParams = none ∨ structure_.potentialParams = some r.params) →
        ∀ i v, r.params[i]? = some v →
          t.lookup (b.sweepPath r.dirName) (paramColumn i) = some v) := by
  obtain ⟨runs, haccounts, _⟩ := exists_accounts hqueue h
  rw [haccounts.runs_eq] at hnames hunique ⊢
  intro r hr
  have hrow : ∀ c v, last c (b.cellsOf r) = some v →
      t.lookup (b.sweepPath r.dirName) c = some v :=
    fun c v => haccounts.lookup_row hnames hunique l order htable hr
  refine ⟨hrow, fun hne hmarks i v hv => hrow _ _ (last_cellsOf hne (fun structure_ hmem => ?_) hv)⟩
  obtain ⟨passed, hpassed, rfl⟩ := List.mem_map.mp hmem
  rcases hmarks passed hpassed with hnone | hsome
  · rw [RunPotentialParamsQueue.finished, hnone]
  · rw [RunPotentialParamsQueue.finished, hsome]
    exact hsome

/-- The directory of a run, and which of its structures came with the parameters of the run. -/
def marksOf (r : ParamsRun Unit Unit) : Str × List Bool :=
  (r.dirName, r.passed.map fun structure_ => structure_.potentialParams == some r.params)

theorem row_shows_params_at : ∃ s t, run oneEach.step begun twoSets = some s ∧
    run (TableOp.apply silentListener) ({}, ()) (tableHistory .rowFirst s) = some (t, ()) ∧
    s.calls.filterMap runOf ≠ [] ∧
    ∀ r ∈ s.calls.filterMap runOf,
      (∀ c v, last c (oneEach.cellsOf r) = some v →
        t.lookup (oneEach.sweepPath r.dirName) c = some v) ∧
      ∀ i v, r.params[i]? = some v →
        t.lookup (oneEach.sweepPath r.dirName) (paramColumn i) = some v := by
  have hfacts : (run oneEach.step begun twoSets).bind (fun s =>
      (run (TableOp.apply silentListener) ({}, ()) (tableHistory .rowFirst s)).map fun p =>
        (p.1.numRows, (s.calls.filterMap runOf).map marksOf))
      = some (2, [(['x'], [true]), (['y'], [true])]) := by
    decide +kernel
  obtain ⟨s, hs, htable⟩ := Option.bind_eq_some_iff.mp hfacts
  obtain ⟨⟨t, u⟩, ht, heq⟩ := Option.map_eq_some_iff.mp htable
  have hruns : (s.calls.filterMap runOf).map marksOf = [(['x'], [true]), (['y'], [true])] :=
    congrArg Prod.snd heq
  have hrun : ∀ r ∈ s.calls.filterMap runOf, IsName r.dirName ∧ (marksOf r).2 = [true] := by
    intro r hr
    have hmem : marksOf r ∈ [(['x'], [true]), (['y'], [true])] := hruns ▸ List.mem_map_of_mem hr
    rcases List.mem_cons.mp hmem with hx | hy
    · obtain ⟨hdir, hmarks⟩ := Prod.mk.inj hx
      exact ⟨hdir ▸ ⟨by simp, by simp⟩, hmarks⟩
    · obtain ⟨hdir, hmarks⟩ := Prod.mk.inj (List.mem_singleton.mp hy)
      exact ⟨hdir ▸ ⟨by simp, by simp⟩, hmarks⟩
  have hdirs : (s.calls.filterMap runOf).map ParamsRun.dirName = [['x'], ['y']] := by
    have hfirst := congrArg (List.map Prod.fst) hruns
    rwa [List.map_map] at hfirst
  have hrows := row_shows_params oneEach {} (by simp) (some "1 2\n3 4\n".toList) none {} (0, [])
    twoSets hs (fun r hr => (hrun r hr).1) (by rw [hdirs]; decide) silentListener .rowFirst ht
  refine ⟨s, t, hs, ht, fun hnil => by simp [hnil] at hdirs, fun r hr => ?_⟩
  obtain ⟨hcells, hparams⟩ := hrows r hr
  have hmarks : r.passed.map (fun structure_ => structure_.potentialParams == some r.params)
      = [true] := (hrun r hr).2
  refine ⟨hcells, hparams (fun hnil => by simp [hnil] at hmarks) fun structure_ hmem => Or.inr ?_⟩
  have hmark : (structure_.potentialParams == some r.params) ∈ [true] :=
    hmarks ▸ List.mem_map_of_mem hmem
  exact eq_of_beq (List.mem_singleton.mp hmark)

/-! ### The parameters of the potential -/

omit [DecidableEq π] in
/-- A potential that keeps its parameters has the same for all structures. -/
theorem mem_optimiseAll {ψ : Type*} {g : GeomOptimise κ π ψ} {getParams : ψ → Parameters}
    (hkeeps : ∀ potential structure_,
      getParams (g.myOptimiser.optimise potential structure_).2 = getParams potential)
    {potential : ψ} {structures : List (TableStructure κ π)} {o : Optimised κ π}
    (ho : o ∈ (g.optimiseAll potential structures).1) :
    ∃ p, getParams p = getParams potential ∧ ∃ structure_ ∈ structures,
      o = (g.myOptimiser.optimise p (g.mark p structure_)).1 := by
  induction structures generalizing potential with
  | nil => exact absurd ho List.not_mem_nil
  | cons structure_ rest ih =>
      rw [GeomOptimise.optimiseAll] at ho
      rcases List.mem_cons.mp ho with rfl | hrest
      · exact ⟨potential, rfl, structure_, List.mem_cons_self, rfl⟩
      · obtain ⟨p, hp, x, hx, heq⟩ := ih hrest
        exact ⟨p, hp.trans (hkeeps _ _), x, List.mem_cons_of_mem _ hx, heq⟩

/-- **Every structure is optimised with the parameters it is sent with.**  The sub-pipe optimises with
a potential that takes parameters, those of the tag of the sweep; the potential keeps what it was
given, and the optimiser does not touch the parameters in the structures.  Then in every run of
`start` each structure that is sent on was optimised while the potential had the parameter set of its
run, and is marked with this set. -/
theorem optimised_with_own_params {ψ : Type*} (b : ParamsSweep κ π (ω × ψ)) (g : GeomOptimise κ π ψ)
    (source : ω → Path → List (TableStructure κ π) × ω)
    (hsubpipe : b.subpipe = optimisingSubpipe g source)
    (htag : g.mySettings.paramsTag = some b.tag) (htagne : b.tag ≠ [])
    {parameterisable : IParameterisable ψ}
    (hparameterisable : g.myOptimiser.parameterisable = some parameterisable)
    (hset : ∀ params potential,
      parameterisable.getParams (parameterisable.setParams params potential).2 = params)
    (hkeeps : ∀ potential structure_,
      parameterisable.getParams (g.myOptimiser.optimise potential structure_).2
          = parameterisable.getParams potential ∧
        (g.myOptimiser.optimise potential structure_).1.structure_.potentialParams
          = structure_.potentialParams)
    (block : RunPotentialParamsQueue) (hqueue : ∀ params ∈ block.myParamsQueue, params ≠ [])
    (queueFile doneFile : Option Str) (globalData : GlobalParameters) (subpipe : ω × ψ)
    (events : List ParamsSweepEvent) {s : ParamsSweeping κ π (ω × ψ)}
    (h : run b.step (begin block queueFile doneFile globalData subpipe) events = some s) :
    ∀ r ∈ s.calls.filterMap runOf, ∀ structure_ ∈ r.sent,
      structure_.potentialParams = some r.params ∧
      ∃ potential made, parameterisable.getParams potential = r.params ∧
        structure_ = (g.myOptimiser.optimise potential (g.mark potential made)).1.structure_ := by
  obtain ⟨runs, haccounts, _⟩ := exists_accounts hqueue h
  rw [haccounts.runs_eq]
  intro r hr structure_ hmem
  obtain ⟨passed, hpassed, rfl⟩ := List.mem_map.mp hmem
  obtain ⟨w, hw⟩ := haccounts.passed r hr
  rw [hw, hsubpipe] at hpassed
  obtain ⟨o, ho, rfl⟩ := List.mem_map.mp hpassed
  obtain ⟨p, hp, made, _, hmade⟩ :=
    mem_optimiseAll (fun potential structure_ => (hkeeps potential structure_).1)
      (List.mem_of_mem_filter ho)
  -- the potential was given what the run had stored under the tag
  have hfind := haccounts.found r hr
  rw [GlobalParameters.find] at hfind
  have hparams : parameterisable.getParams p = r.params := by
    rw [hp, GeomOptimise.parameterise, hparameterisable, htag]
    simp only [GlobalParameters.updateParameterisable, hfind]
    rw [if_neg (by simpa using htagne), hset]
  have hmark : o.structure_.potentialParams = some r.params := by
    rw [hmade, (hkeeps _ _).2, GeomOptimise.mark, hparameterisable]
    exact congrArg some hparams
  have hfinished : RunPotentialParamsQueue.finished r.params o.structure_ = o.structure_ := by
    rw [RunPotentialParamsQueue.finished, hmark]
  rw [hfinished]
  exact ⟨hmark, p, made, hparams, by rw [hmade]⟩

theorem optimised_with_own_params_at : ∃ s, run oneEach.step begun twoSets = some s ∧
    s.calls.filterMap runOf ≠ [] ∧ ∀ r ∈ s.calls.filterMap runOf, ∀ structure_ ∈ r.sent,
      structure_.potentialParams = some r.params := by
  obtain ⟨s, hs, _, hruns⟩ := exists_run_twoSets
  refine ⟨s, hs, fun hnil => by simp [hnil] at hruns, fun r hr structure_ hmem => ?_⟩
  exact (optimised_with_own_params oneEach fourSteps makeOne rfl rfl (by decide) rfl
    (fun _ _ => rfl) (fun _ _ => ⟨rfl, rfl⟩) {} (by simp) (some "1 2\n3 4\n".toList) none {} (0, [])
    twoSets hs r hr structure_ hmem).1

end ParamsSweep

end StructurePipe.Blocks
