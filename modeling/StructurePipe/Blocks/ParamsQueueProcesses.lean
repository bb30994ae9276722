import StructurePipe.Blocks.ParamsQueueSharing
import StructurePipe.Blocks.ParamsQueueStart
import StructurePipe.Lib.Interleaving
import StructurePipe.Lib.Tokens

/-!
# Processes that work through one parameter queue

Any number of processes run `start` on one queue file and one done file.  `getWork` and
`updateDoneParams` hold the lock of their file, so a step of one process from one loop head to the
next is atomic as far as the files go; the steps of different processes come in any order.  Somebody
may create the done file at any time, no process does.

* `processes_keep_accounts` — **in every order of steps every parameter set is in one place:** still in
  the queue file, queued or remembered by the process that took it, or recorded in the done file;
* `processes_end` — no order of steps goes on for ever, and no process waits for another;
* `processes_record_all` — **when the processes are through, every parameter set of the queue file is
  in the done file exactly once.**
-/

namespace StructurePipe.Blocks

open TextLines StepRuns WorkPool Interleaving RunPotentialParamsQueue
open scoped List

/-- The two files.  The rest is who has taken and who has recorded which parameter set so far. -/
structure SharedFiles where
  queueFile : Option Str
  doneFile : Option Str
  pushed : List (ℕ × Params) := []
  log : List (ℕ × Params) := []
deriving DecidableEq, Repr

/-- A process goes on to the next loop head.  The done file may have been created before, and the
mean time of a work item is what the process has measured. -/
structure ProcessEvent where
  doneFileAppears : Bool := false
  meanDuration : ℤ
deriving DecidableEq, Repr

namespace ProcessEvent

/-- The done file as the process finds it. -/
def found (e : ProcessEvent) (files : SharedFiles) : Option Str :=
  if e.doneFileAppears then some (files.doneFile.getD []) else files.doneFile

/-- With this mean time the next chunk size is defined. -/
def InRange (targetChunkTime : ℤ) (e : ProcessEvent) : Prop :=
  RunPotentialParamsQueue.InRange targetChunkTime e.meanDuration

@[simp] theorem getD_found (e : ProcessEvent) (files : SharedFiles) :
    (e.found files).getD [] = files.doneFile.getD [] := by
  rw [found]
  split <;> rfl

theorem isSome_found (e : ProcessEvent) {files : SharedFiles} (h : files.doneFile.isSome) :
    (e.found files).isSome := by
  rw [found]
  split
  · rfl
  · exact h

end ProcessEvent

namespace Start

/-- The files as the process finds them. -/
def facing (p : Start) (files : SharedFiles) (e : ProcessEvent) : Start :=
  { p with queueFile := files.queueFile, doneFile := e.found files }

/-- The process `pid` takes a step. -/
def turn (targetChunkTime : ℤ) (pid : ℕ) (files : SharedFiles) (p : Start) (e : ProcessEvent) :
    Option (SharedFiles × Start) :=
  (Start.step targetChunkTime pid { p with queueFile := files.queueFile }
    (.proceed (e.found files) e.meanDuration)).map fun p' =>
      ({ queueFile := p'.queueFile
         doneFile := p'.doneFile
         pushed := files.pushed ++ (p'.taken.drop p.taken.length).map fun params => (pid, params)
         log := files.log ++ (p'.recorded.drop p.recorded.length).map fun params => (pid, params) },
        p')

end Start

/-- The processes and their files. -/
abbrev Processes := System ℕ SharedFiles Start

namespace Processes

/-- Every process calls `start`. -/
def begin (queueFile doneFile : Option Str) (block : ℕ → RunPotentialParamsQueue) : Processes where
  shared := { queueFile := queueFile, doneFile := doneFile }
  party pid := Start.begin (block pid) queueFile doneFile

def step (targetChunkTime : ℤ) (s : Processes) (e : ℕ × ProcessEvent) : Option Processes :=
  System.step (Start.turn targetChunkTime) s e

end Processes

/-! ### What a step can do -/

namespace RunPotentialParamsQueue

/-- A call on a file whose lines are all terminated. -/
theorem getWork_of_terminated (b : RunPotentialParamsQueue) (pid : ℕ) {content : Str}
    (hterm : Terminated '\n' content) (hchunk : 0 < b.myNumWorkItemsChunk) :
    ∃ content', b.getWork pid (some content)
        = (decide ((workLines content).take b.myNumWorkItemsChunk ≠ []),
          { b with myParamsQueue := b.myParamsQueue
              ++ ((workLines content).take b.myNumWorkItemsChunk).map pieces }, some content') ∧
      Terminated '\n' content' ∧
      workLines content' = (workLines content).drop b.myNumWorkItemsChunk := by
  obtain ⟨seen, s, hread, hcall⟩ := getWork_spec pid b content hchunk
  obtain ⟨hwork, _⟩ := getWork_lines hread (hread.terminated_iff.mpr (Or.inl hterm))
  refine ⟨_, ?_, hread.terminated hterm, hwork⟩
  rw [hcall, hread.taken_eq]

end RunPotentialParamsQueue

namespace Start

theorem step_facing (targetChunkTime : ℤ) (pid : ℕ) (files : SharedFiles) (p : Start)
    (e : ProcessEvent) :
    Start.step targetChunkTime pid { p with queueFile := files.queueFile }
      (.proceed (e.found files) e.meanDuration) = match p.head with
        | .outer => some ((p.facing files e).getWork pid)
        | .inner =>
            if p.block.myParamsQueue.isEmpty then
              (p.facing files e).finishChunk targetChunkTime e.meanDuration
            else some (p.facing files e).runFront
        | .returned => none := rfl

/-- **What a step can do:** take work, run a parameter set, or end a chunk, with the done file there or
not. -/
theorem turn_cases {targetChunkTime : ℤ} {pid : ℕ} {files files' : SharedFiles} {p p' : Start}
    {e : ProcessEvent} (h : turn targetChunkTime pid files p e = some (files', p')) :
    (p.head = .outer ∧ p' = (p.facing files e).getWork pid ∧ files' =
        { queueFile := p'.queueFile
          doneFile := e.found files
          pushed := files.pushed ++ (p'.taken.drop p.taken.length).map fun params => (pid, params)
          log := files.log }) ∨
      (p.head = .inner ∧ p.block.myParamsQueue ≠ [] ∧ p' = (p.facing files e).runFront ∧
        files' = { files with doneFile := e.found files }) ∨
      (p.head = .inner ∧ p.block.myParamsQueue = [] ∧
        (p.facing files e).finishChunk targetChunkTime e.meanDuration = some p' ∧ files' =
          { files with
            doneFile := p'.doneFile
            log := files.log
              ++ (p'.recorded.drop p.recorded.length).map fun params => (pid, params) }) := by
  obtain ⟨q, hq, heq⟩ := Option.map_eq_some_iff.mp h
  obtain ⟨rfl, rfl⟩ := Prod.mk.inj heq
  rw [step_facing] at hq
  split at hq
  · next hhead =>
      obtain rfl : (p.facing files e).getWork pid = q := Option.some.inj hq
      refine Or.inl ⟨hhead, rfl, ?_⟩
      simp [Start.getWork, facing]
  · next hhead =>
      split at hq
      · next hempty =>
          refine Or.inr (Or.inr ⟨hhead, List.isEmpty_iff.mp hempty, hq, ?_⟩)
          obtain ⟨n, ⟨_, rfl⟩ | ⟨content, _, rfl⟩⟩ := finishChunk_cases hq <;> simp [facing]
      · next hcons =>
          obtain rfl : (p.facing files e).runFront = q := Option.some.inj hq
          refine Or.inr (Or.inl ⟨hhead, fun hnil => hcons (by simp [hnil]), rfl, ?_⟩)
          simp [Start.runFront, facing]
  · exact absurd hq (by simp)

/-- Taking work from a file whose lines are all terminated. -/
theorem getWork_facing (p : Start) {files : SharedFiles} (e : ProcessEvent) (pid : ℕ) {content : Str}
    (hfile : files.queueFile = some content) (hterm : Terminated '\n' content)
    (hchunk : 0 < p.block.myNumWorkItemsChunk) :
    let lines := (workLines content).take p.block.myNumWorkItemsChunk
    ∃ content', Terminated '\n' content' ∧
      workLines content' = (workLines content).drop p.block.myNumWorkItemsChunk ∧
      (p.facing files e).getWork pid = { p with
        block := { p.block with myParamsQueue := p.block.myParamsQueue ++ lines.map pieces }
        head := if lines ≠ [] then .inner else .returned
        queueFile := some content'
        doneFile := e.found files
        taken := p.taken ++ lines.map pieces
        chunkSizes := p.chunkSizes ++ [p.block.myNumWorkItemsChunk] } := by
  intro lines
  obtain ⟨content', hcall, hterm', hwork⟩ := p.block.getWork_of_terminated pid hterm hchunk
  refine ⟨content', hterm', hwork, ?_⟩
  have hcall' : (p.facing files e).block.getWork pid (p.facing files e).queueFile
      = (decide (lines ≠ []), { p.block with
          myParamsQueue := p.block.myParamsQueue ++ lines.map pieces }, some content') := by
    rw [facing, hfile]
    exact hcall
  rw [Start.getWork, hcall']
  simp [facing]

end Start

/-! ### The accounts -/

/-- The files, when the work lines at the start were `work` and the text of the done file `done`. -/
structure SharedFiles.Accounted (work : List Str) (done : Str) (files : SharedFiles) : Prop where
  queue : ∃ content, files.queueFile = some content ∧ Terminated '\n' content ∧
    workLines content = work.drop files.pushed.length
  pushed : files.pushed.map Prod.snd = (work.take files.pushed.length).map pieces
  done : files.doneFile.getD [] = done ++ files.log.flatMap fun e => writeParams e.2

/-- A process, when it has kept the parameter sets `before` from an earlier run. -/
structure Start.Accounted (before : ℕ → List Params) (pid : ℕ) (files : SharedFiles) (p : Start) :
    Prop where
  books : p.Books
  taken : p.taken = before pid ++ entries pid files.pushed
  recorded : p.recorded = entries pid files.log
  chunk : ChunkSize p.block.myNumWorkItemsChunk
  drained : p.head = .returned → workLeft files.queueFile = []

namespace Start

variable {targetChunkTime : ℤ} {pid : ℕ} {files files' : SharedFiles} {p p' : Start}
  {e : ProcessEvent} {work : List Str} {done : Str} {before : ℕ → List Params}

theorem Books.facing (h : p.Books) (files : SharedFiles) (e : ProcessEvent) :
    (p.facing files e).Books := ⟨h.taken, h.ran, h.appended⟩

theorem Accounted.getWork (hfiles : files.Accounted work done) (hp : p.Accounted before pid files)
    (e : ProcessEvent) :
    let p' := (p.facing files e).getWork pid
    let files' : SharedFiles :=
      { queueFile := p'.queueFile
        doneFile := e.found files
        pushed := files.pushed ++ (p'.taken.drop p.taken.length).map fun params => (pid, params)
        log := files.log }
    files'.Accounted work done ∧ p'.Accounted before pid files' ∧
      (workLeft files.queueFile = [] → workLeft files'.queueFile = []) := by
  obtain ⟨content, hfile, hterm, hwork⟩ := hfiles.queue
  obtain ⟨content', hterm', hwork', hget⟩ := p.getWork_facing e pid hfile hterm hp.chunk.1
  have hbooks := (hp.books.facing files e).getWork pid
  have hleft : workLeft files.queueFile = workLines content := by rw [workLeft, hfile]; rfl
  rw [hget] at hbooks ⊢
  simp only [List.drop_left]
  refine ⟨⟨⟨content', rfl, hterm', ?_⟩, ?_, ?_⟩, ⟨hbooks, ?_, hp.recorded, hp.chunk, ?_⟩, ?_⟩
  · rw [hwork', hwork, drop_batch, List.length_append, List.length_map, List.length_map]
  · rw [List.map_append, hfiles.pushed, List.length_append, List.length_map, List.length_map,
      hwork, ← take_batch, List.map_append]
    simp [List.map_map, Function.comp_def]
  · simp [hfiles.done]
  · rw [entries_append_self, ← List.append_assoc, ← hp.taken]
  · intro hreturned
    have hnone : (workLines content).take p.block.myNumWorkItemsChunk = [] := by
      by_contra hsome
      simp [hsome] at hreturned
    have hchunk := hp.chunk.1
    have hempty : workLines content = [] :=
      (List.take_eq_nil_iff.mp hnone).resolve_left (by omega)
    show workLines content' = []
    rw [hwork', hempty, List.drop_nil]
  · intro hempty
    show workLines content' = []
    rw [hwork', ← hleft, hempty, List.drop_nil]

theorem Accounted.runFront (hfiles : files.Accounted work done) (hp : p.Accounted before pid files)
    (hhead : p.head = .inner) (e : ProcessEvent) :
    let files' : SharedFiles := { files with doneFile := e.found files }
    files'.Accounted work done ∧ (p.facing files e).runFront.Accounted before pid files' := by
  refine ⟨⟨hfiles.queue, hfiles.pushed, by simp [hfiles.done]⟩,
    ⟨(hp.books.facing files e).runFront, hp.taken, hp.recorded, ?_, fun hreturned => ?_⟩⟩
  · show ChunkSize p.block.runFront.myNumWorkItemsChunk
    rw [myNumWorkItemsChunk_runFront]
    exact hp.chunk
  · exact absurd (hhead.symm.trans hreturned) (by simp)

theorem chunkSize_finishChunk {s s' : Start} {meanDuration : ℤ}
    (hchunk : ChunkSize s.block.myNumWorkItemsChunk)
    (hrange : InRange targetChunkTime meanDuration)
    (h : s.finishChunk targetChunkTime meanDuration = some s') :
    ChunkSize s'.block.myNumWorkItemsChunk := by
  have hkept : (s.block.updateDoneParams s.doneFile).1.myNumWorkItemsChunk
      = s.block.myNumWorkItemsChunk := by
    cases s.doneFile <;> rfl
  obtain ⟨n, hn, hsize⟩ := updateWorkChunkSize_spec (s.block.updateDoneParams s.doneFile).1
    (hkept ▸ hchunk) hrange
  rw [Start.finishChunk] at h
  simp only [hn, Option.map_some] at h
  obtain rfl := Option.some.inj h
  exact hsize

theorem Accounted.finishChunk (hfiles : files.Accounted work done)
    (hp : p.Accounted before pid files)
    (hend : (p.facing files e).finishChunk targetChunkTime e.meanDuration = some p')
    (hmean : e.InRange targetChunkTime) :
    let files' : SharedFiles :=
      { files with
        doneFile := p'.doneFile
        log := files.log ++ (p'.recorded.drop p.recorded.length).map fun params => (pid, params) }
    files'.Accounted work done ∧ p'.Accounted before pid files' := by
  have hbooks := (hp.books.facing files e).finishChunk hend
  have hchunk := chunkSize_finishChunk (s := p.facing files e) hp.chunk hmean hend
  obtain ⟨n, ⟨hnone, rfl⟩ | ⟨content, hsome, rfl⟩⟩ := finishChunk_cases hend
  · have hsame : (p.facing files e).recorded.drop p.recorded.length = [] := by simp [Start.facing]
    simp only [hsame, List.map_nil, List.append_nil]
    refine ⟨⟨hfiles.queue, hfiles.pushed, ?_⟩, ⟨hbooks, hp.taken, hp.recorded, hchunk, by simp⟩⟩
    show (e.found files).getD [] = _
    rw [ProcessEvent.getD_found, hfiles.done]
  · have hdone : content = done ++ files.log.flatMap fun e => writeParams e.2 := by
      have hfound := e.getD_found files
      rw [show e.found files = some content from hsome] at hfound
      exact hfound.trans hfiles.done
    have hnew : ((p.facing files e).recorded ++ (p.facing files e).block.myDoneParams).drop
        p.recorded.length = p.block.myDoneParams := List.drop_left
    simp only [hnew]
    refine ⟨⟨hfiles.queue, hfiles.pushed, ?_⟩, ⟨hbooks, hp.taken, ?_, hchunk, by simp⟩⟩
    · show content ++ p.block.myDoneParams.flatMap writeParams = _
      rw [hdone, List.flatMap_append, List.flatMap_map, List.append_assoc]
    · show p.recorded ++ p.block.myDoneParams = _
      rw [entries_append_self, ← hp.recorded]

/-- **One step keeps the accounts** of the process that takes it. -/
theorem Accounted.turn (hfiles : files.Accounted work done) (hp : p.Accounted before pid files)
    (h : turn targetChunkTime pid files p e = some (files', p'))
    (hmean : e.InRange targetChunkTime) :
    files'.Accounted work done ∧ p'.Accounted before pid files' := by
  rcases turn_cases h with ⟨_, rfl, rfl⟩ | ⟨hhead, _, rfl, rfl⟩ | ⟨_, _, hend, rfl⟩
  · obtain ⟨hfiles', hp', _⟩ := hp.getWork hfiles e
    exact ⟨hfiles', hp'⟩
  · exact hp.runFront hfiles hhead e
  · exact hp.finishChunk hfiles hend hmean

/-- What a step does to the files, for another process. -/
theorem turn_other (hfiles : files.Accounted work done) (hp : p.Accounted before pid files)
    (h : turn targetChunkTime pid files p e = some (files', p')) {i : ℕ} (hi : i ≠ pid) :
    entries i files'.pushed = entries i files.pushed ∧ entries i files'.log = entries i files.log ∧
      (workLeft files.queueFile = [] → workLeft files'.queueFile = []) := by
  rcases turn_cases h with ⟨_, rfl, rfl⟩ | ⟨_, _, rfl, rfl⟩ | ⟨_, _, _, rfl⟩
  · obtain ⟨_, _, hleft⟩ := hp.getWork hfiles e
    exact ⟨entries_append_of_ne hi _ _, rfl, hleft⟩
  · exact ⟨rfl, rfl, id⟩
  · exact ⟨rfl, entries_append_of_ne hi _ _, id⟩

theorem Accounted.other {i : ℕ} {q : Start} (hq : q.Accounted before i files)
    (hfiles : files.Accounted work done) (hp : p.Accounted before pid files)
    (h : Start.turn targetChunkTime pid files p e = some (files', p')) (hi : i ≠ pid) :
    q.Accounted before i files' := by
  obtain ⟨hpushed, hlog, hleft⟩ := turn_other hfiles hp h hi
  exact ⟨hq.books, by rw [hpushed]; exact hq.taken, by rw [hlog]; exact hq.recorded, hq.chunk,
    fun hreturned => hleft (hq.drained hreturned)⟩

/-! ### What is left to do -/

end Start

/-- The weight of the work lines in the file. -/
def SharedFiles.turnsLeft (files : SharedFiles) : ℕ := 3 * (workLeft files.queueFile).length

namespace Start

variable {targetChunkTime : ℤ} {pid : ℕ} {files files' : SharedFiles} {p p' : Start}
  {e : ProcessEvent} {work : List Str} {done : Str} {before : ℕ → List Params}

/-- The weight of what a process has to do itself. -/
def turnsLeft (p : Start) : ℕ :=
  p.block.myParamsQueue.length + match p.head with
    | .outer => 1
    | .inner => 2
    | .returned => 0

/-- **Every step leaves less to do.** -/
theorem turn_lt (hfiles : files.Accounted work done) (hp : p.Accounted before pid files)
    (h : turn targetChunkTime pid files p e = some (files', p')) :
    files'.turnsLeft + p'.turnsLeft < files.turnsLeft + p.turnsLeft := by
  rw [SharedFiles.turnsLeft, SharedFiles.turnsLeft]
  rcases turn_cases h with ⟨hhead, rfl, rfl⟩ | ⟨hhead, hqueue, rfl, rfl⟩ | ⟨hhead, _, hend, rfl⟩
  · obtain ⟨content, hfile, hterm, _⟩ := hfiles.queue
    obtain ⟨content', _, hwork', hget⟩ := p.getWork_facing e pid hfile hterm hp.chunk.1
    have hchunk := hp.chunk.1
    rw [hget, hfile]
    show 3 * (workLines content').length + _ < 3 * (workLines content).length + _
    rw [hwork', List.length_drop]
    cases hlines : (workLines content).take p.block.myNumWorkItemsChunk with
    | nil =>
        have hempty : workLines content = [] :=
          (List.take_eq_nil_iff.mp hlines).resolve_left (by omega)
        simp [turnsLeft, hempty, hhead]
    | cons line lines =>
        have hlength := congrArg List.length hlines
        rw [List.length_take, List.length_cons] at hlength
        simp only [turnsLeft, hhead, List.length_append, List.length_map, List.length_cons, ne_eq,
          reduceCtorEq, not_false_eq_true, if_true]
        omega
  · obtain ⟨params, rest, hcons⟩ := List.exists_cons_of_ne_nil hqueue
    have hrest : (p.facing files e).runFront.block.myParamsQueue = rest := by
      show p.block.runFront.myParamsQueue = rest
      rw [RunPotentialParamsQueue.runFront, hcons]
    have hkept : (p.facing files e).runFront.head = p.head := rfl
    simp only [turnsLeft, hrest, hkept, hcons, List.length_cons]
    omega
  · have hstays : p'.block.myParamsQueue = p.block.myParamsQueue ∧ p'.head = .outer := by
      obtain ⟨n, ⟨_, rfl⟩ | ⟨content, _, rfl⟩⟩ := finishChunk_cases hend <;> exact ⟨rfl, rfl⟩
    simp only [turnsLeft, hstays.1, hstays.2, hhead]
    omega

/-- A process that has not returned can go on. -/
theorem exists_turn (hp : p.Accounted before pid files) (hhead : p.head ≠ .returned)
    (hmean : e.InRange targetChunkTime) :
    ∃ r, turn targetChunkTime pid files p e = some r := by
  have hstep : ∃ q, Start.step targetChunkTime pid { p with queueFile := files.queueFile }
      (.proceed (e.found files) e.meanDuration) = some q := by
    rw [step_facing]
    split
    · exact ⟨_, rfl⟩
    · split
      · have hkept : (p.block.updateDoneParams (e.found files)).1.myNumWorkItemsChunk
            = p.block.myNumWorkItemsChunk := by
          cases e.found files <;> rfl
        obtain ⟨n, hn, _⟩ := updateWorkChunkSize_spec
          (p.block.updateDoneParams (e.found files)).1 (hkept ▸ hp.chunk) hmean
        exact ⟨_, congrArg (Option.map _) hn⟩
      · exact ⟨_, rfl⟩
    · next hreturned => exact absurd hreturned hhead
  obtain ⟨q, hq⟩ := hstep
  exact ⟨_, congrArg (Option.map _) hq⟩

/-- Between two chunks nothing is remembered, if the done file is there. -/
def Settled (p : Start) : Prop :=
  p.head ≠ .inner → p.block.myParamsQueue = [] ∧ p.block.myDoneParams = []

theorem Settled.turn (hset : p.Settled) (hfiles : files.Accounted work done)
    (hp : p.Accounted before pid files) (hthere : files.doneFile.isSome)
    (h : Start.turn targetChunkTime pid files p e = some (files', p')) :
    files'.doneFile.isSome ∧ p'.Settled := by
  have hfound := e.isSome_found hthere
  rcases turn_cases h with ⟨hhead, rfl, rfl⟩ | ⟨hhead, _, rfl, rfl⟩ | ⟨_, hqueue, hend, rfl⟩
  · obtain ⟨content, hfile, hterm, _⟩ := hfiles.queue
    obtain ⟨_, _, _, hget⟩ := p.getWork_facing e pid hfile hterm hp.chunk.1
    obtain ⟨hempty, hdone⟩ := hset (by simp [hhead])
    rw [hget]
    refine ⟨hfound, fun hidle => ?_⟩
    have hnone : (workLines content).take p.block.myNumWorkItemsChunk = [] := by
      by_contra hsome
      simp [hsome] at hidle
    exact ⟨by simp [hempty, hnone], hdone⟩
  · exact ⟨hfound, fun hidle => absurd hhead hidle⟩
  · obtain ⟨n, ⟨hnone, _⟩ | ⟨content, _, rfl⟩⟩ := finishChunk_cases hend
    · rw [show e.found files = none from hnone] at hfound
      exact absurd hfound (by simp)
    · exact ⟨rfl, fun _ => ⟨hqueue, rfl⟩⟩

end Start

namespace Processes

variable {targetChunkTime : ℤ} {content : Str} {doneFile : Option Str}
  {block : ℕ → RunPotentialParamsQueue} {events : List (ℕ × ProcessEvent)} {s : Processes}

/-- What the blocks have kept from an earlier run. -/
def kept (block : ℕ → RunPotentialParamsQueue) (pid : ℕ) : List Params :=
  (block pid).myDoneParams ++ (block pid).myParamsQueue

theorem holds_begin (hterm : Terminated '\n' content)
    (hchunk : ∀ pid, ChunkSize (block pid).myNumWorkItemsChunk) :
    (begin (some content) doneFile block).Holds
      (SharedFiles.Accounted (workLines content) (doneFile.getD []))
      (Start.Accounted (kept block)) := by
  refine ⟨⟨⟨content, rfl, hterm, rfl⟩, rfl, by simp [begin]⟩, fun pid => ?_⟩
  exact ⟨Start.books_begin _ _ _, by simp [begin, kept, Start.begin], rfl, hchunk pid, by
    simp [begin, Start.begin]⟩

/-- What is left to do at the start. -/
theorem measure_begin (parties : Finset ℕ) :
    (begin (some content) doneFile block).measure SharedFiles.turnsLeft Start.turnsLeft parties
      = 3 * (workLines content).length
        + ∑ pid ∈ parties, ((block pid).myParamsQueue.length + 1) := rfl

/-- The accounts are right after every run. -/
theorem holds_run (hterm : Terminated '\n' content)
    (hchunk : ∀ pid, ChunkSize (block pid).myNumWorkItemsChunk)
    (hmean : ∀ e ∈ events, e.2.InRange targetChunkTime)
    (h : run (step targetChunkTime) (begin (some content) doneFile block) events = some s) :
    s.Holds (SharedFiles.Accounted (workLines content) (doneFile.getD []))
      (Start.Accounted (kept block)) :=
  System.Holds.run _ _ (ProcessEvent.InRange targetChunkTime)
    (fun _ _ _ _ _ _ hfiles hp hok hturn => hp.turn hfiles hturn hok)
    (fun _ _ _ _ _ _ _ _ hfiles hp _ hturn hne hq => hq.other hfiles hp hturn hne)
    (holds_begin hterm hchunk) hmean h

/-- The number of steps of a run, and what is left to do after it. -/
theorem length_add_measure_le (hterm : Terminated '\n' content)
    (hchunk : ∀ pid, ChunkSize (block pid).myNumWorkItemsChunk)
    (hmean : ∀ e ∈ events, e.2.InRange targetChunkTime) {parties : Finset ℕ}
    (hparties : ∀ e ∈ events, e.1 ∈ parties)
    (h : run (step targetChunkTime) (begin (some content) doneFile block) events = some s) :
    events.length + s.measure SharedFiles.turnsLeft Start.turnsLeft parties
      ≤ (begin (some content) doneFile block).measure SharedFiles.turnsLeft Start.turnsLeft
        parties := by
  refine System.Holds.length_add_measure_le
    (SharedFiles.Accounted (workLines content) (doneFile.getD [])) (Start.Accounted (kept block))
    (ProcessEvent.InRange targetChunkTime) ?_ ?_ SharedFiles.turnsLeft Start.turnsLeft parties ?_
    (holds_begin hterm hchunk) hmean hparties h
  · intro pid files p e files' p' hfiles hp hok hturn
    exact hp.turn hfiles hturn hok
  · intro pid files p e files' p' i q hfiles hp _ hturn hne hq
    exact hq.other hfiles hp hturn hne
  · intro pid files p e files' p' hfiles hp _ hturn
    exact Start.turn_lt hfiles hp hturn

/-- With the done file there from the start, all processes are settled after every run. -/
theorem settled_run (hterm : Terminated '\n' content)
    (hchunk : ∀ pid, ChunkSize (block pid).myNumWorkItemsChunk)
    (hfresh : ∀ pid, (block pid).myParamsQueue = [] ∧ (block pid).myDoneParams = [])
    (hthere : doneFile.isSome) (hmean : ∀ e ∈ events, e.2.InRange targetChunkTime)
    (h : run (step targetChunkTime) (begin (some content) doneFile block) events = some s) :
    s.shared.doneFile.isSome ∧ ∀ pid, (s.party pid).Settled := by
  obtain ⟨hfiles₀, hall₀⟩ : (begin (some content) doneFile block).Holds _ _ :=
    holds_begin hterm hchunk
  have hholds : s.Holds
      (fun files => files.Accounted (workLines content) (doneFile.getD [])
        ∧ files.doneFile.isSome)
      (fun pid files p => p.Accounted (kept block) pid files ∧ p.Settled) := by
    refine System.Holds.run _ _ (ProcessEvent.InRange targetChunkTime) ?_ ?_ ?_ hmean h
    · intro pid files p e files' p' hfiles hp hok hturn
      obtain ⟨hfiles', hp'⟩ := hp.1.turn hfiles.1 hturn hok
      obtain ⟨hthere', hset'⟩ := hp.2.turn hfiles.1 hp.1 hfiles.2 hturn
      exact ⟨⟨hfiles', hthere'⟩, hp', hset'⟩
    · intro pid files p e files' p' i q hfiles hp _ hturn hne hq
      exact ⟨hq.1.other hfiles.1 hp.1 hturn hne, hq.2⟩
    · exact ⟨⟨hfiles₀, hthere⟩, fun pid => ⟨hall₀ pid, fun _ => hfresh pid⟩⟩
  exact ⟨hholds.1.2, fun pid => (hholds.2 pid).2⟩

end Processes

/-- **Every parameter set is in one place.**  The queue file is empty or ends with a newline, the chunks
are `int`s from one on, and the mean times are in range; the done file may exist or be created at any
time.  Then in every order of the steps of any number of processes: the parameter sets taken so far are those of the first work lines of the queue file, in the
order of the calls, and the other work lines are still in it; what a process had before and what it
has taken is what it has recorded, what it remembers as done and what it has queued, in this order;
and the done file has grown by the recorded parameter sets, each written once. -/
theorem processes_keep_accounts (targetChunkTime : ℤ) (content : Str)
    (hterm : content = [] ∨ content.getLast? = some '\n') (doneFile : Option Str)
    (block : ℕ → RunPotentialParamsQueue)
    (hchunk : ∀ pid, 1 ≤ (block pid).myNumWorkItemsChunk ∧
      ((block pid).myNumWorkItemsChunk : ℤ) ≤ INT_MAX)
    (events : List (ℕ × ProcessEvent))
    (hmean : ∀ e ∈ events, InRange targetChunkTime e.2.meanDuration) {s : Processes}
    (h : run (Processes.step targetChunkTime) (Processes.begin (some content) doneFile block) events
      = some s) :
    ∃ queueFile, s.shared.queueFile = some queueFile ∧
      s.shared.pushed.map Prod.snd
        = ((workLines content).take s.shared.pushed.length).map pieces ∧
      workLines queueFile = (workLines content).drop s.shared.pushed.length ∧
      (∀ pid, (block pid).myDoneParams ++ (block pid).myParamsQueue ++ entries pid s.shared.pushed
        = entries pid s.shared.log ++ (s.party pid).block.myDoneParams
          ++ (s.party pid).block.myParamsQueue) ∧
      s.shared.doneFile.getD []
        = doneFile.getD [] ++ s.shared.log.flatMap fun e =>
          e.2.flatMap (fun p => p ++ [' ']) ++ ['\n'] := by
  obtain ⟨hfiles, hall⟩ := Processes.holds_run hterm hchunk hmean h
  obtain ⟨queueFile, hqueue, _, hwork⟩ := hfiles.queue
  refine ⟨queueFile, hqueue, hfiles.pushed, hwork, fun pid => ?_, hfiles.done⟩
  rw [← (hall pid).recorded, ← (hall pid).books.taken, (hall pid).taken]
  rfl

/-- Two processes take a line each; the first runs its own and records it, the done file having been
created before. -/
theorem processes_keep_accounts_at :
    ∃ s, run (Processes.step 100) (Processes.begin (some ['a', '\n', 'b', '\n', 'c', '\n']) none
          fun _ => { myNumWorkItemsChunk := 1 })
        [(1, { meanDuration := 200 }), (2, { meanDuration := 200 }), (1, { meanDuration := 200 }),
          (1, { doneFileAppears := true, meanDuration := 200 })] = some s ∧
      s.shared.log = [(1, [['a']])] ∧ s.shared.pushed = [(1, [['a']]), (2, [['b']])] ∧
      ∃ queueFile, s.shared.queueFile = some queueFile ∧ workLines queueFile = [['c']] ∧
        s.shared.doneFile.getD [] = ['a', ' ', '\n'] := by
  have hrun : (run (Processes.step 100)
      (Processes.begin (some ['a', '\n', 'b', '\n', 'c', '\n']) none
        fun _ => { myNumWorkItemsChunk := 1 })
      [(1, { meanDuration := 200 }), (2, { meanDuration := 200 }), (1, { meanDuration := 200 }),
        (1, { doneFileAppears := true, meanDuration := 200 })]).map
          (fun s => (s.shared.log, s.shared.pushed))
      = some ([(1, [['a']])], [(1, [['a']]), (2, [['b']])]) := by decide +kernel
  obtain ⟨s, hs, hshared⟩ := Option.map_eq_some_iff.mp hrun
  obtain ⟨hlog, hpushed⟩ := Prod.mk.inj hshared
  obtain ⟨queueFile, hqueue, _, hwork, _, hdone⟩ := processes_keep_accounts 100
    ['a', '\n', 'b', '\n', 'c', '\n'] (Or.inr rfl) none (fun _ => { myNumWorkItemsChunk := 1 })
    (fun _ => by decide) _ (by decide) hs
  rw [hpushed] at hwork
  rw [hlog] at hdone
  exact ⟨s, hs, hlog, hpushed, queueFile, hqueue, hwork, hdone⟩

/-- **The processes come to an end.**  The queue file is empty or ends with a newline, the chunks are
`int`s from one on, and the mean times are in range.  If only the processes in `parties` take steps,
there are at most three for each work line, one for each parameter set queued at the start and one for
each process; a process that has not returned can always take a step, whatever the others do; and when
one has returned there is no work line left in the queue file. -/
theorem processes_end (targetChunkTime : ℤ) (content : Str)
    (hterm : content = [] ∨ content.getLast? = some '\n') (doneFile : Option Str)
    (block : ℕ → RunPotentialParamsQueue)
    (hchunk : ∀ pid, 1 ≤ (block pid).myNumWorkItemsChunk ∧
      ((block pid).myNumWorkItemsChunk : ℤ) ≤ INT_MAX)
    (parties : Finset ℕ) (events : List (ℕ × ProcessEvent))
    (hparties : ∀ e ∈ events, e.1 ∈ parties)
    (hmean : ∀ e ∈ events, InRange targetChunkTime e.2.meanDuration) {s : Processes}
    (h : run (Processes.step targetChunkTime) (Processes.begin (some content) doneFile block) events
      = some s) :
    events.length ≤ 3 * (workLines content).length
        + ∑ pid ∈ parties, ((block pid).myParamsQueue.length + 1) ∧
      (∀ pid, (s.party pid).head ≠ .returned → ∀ e : ProcessEvent,
        InRange targetChunkTime e.meanDuration →
          ∃ s', Processes.step targetChunkTime s (pid, e) = some s') ∧
      ∀ pid, (s.party pid).head = .returned → workLines (s.shared.queueFile.getD []) = [] := by
  obtain ⟨hfiles, hall⟩ := Processes.holds_run hterm hchunk hmean h
  refine ⟨?_, fun pid hhead e he => ?_, fun pid hreturned => (hall pid).drained hreturned⟩
  · rw [← Processes.measure_begin]
    exact (Nat.le_add_right _ _).trans
      (Processes.length_add_measure_le hterm hchunk hmean hparties h)
  · obtain ⟨r, hr⟩ := Start.exists_turn (hall pid) hhead he
    exact ⟨_, congrArg (Option.map _) hr⟩

/-- A process that finds one line has returned after four steps, which is the bound. -/
theorem processes_end_at :
    ∃ s, run (Processes.step 100) (Processes.begin (some ['a', '\n']) none
          fun _ => { myNumWorkItemsChunk := 1 })
        [(1, { meanDuration := 200 }), (1, { meanDuration := 200 }), (1, { meanDuration := 200 }),
          (1, { meanDuration := 200 })] = some s ∧
      (s.party 1).head = .returned ∧ workLines (s.shared.queueFile.getD []) = [] ∧
      4 ≤ 3 * (workLines ['a', '\n']).length + ∑ _pid ∈ ({1} : Finset ℕ), (0 + 1) := by
  have hrun : (run (Processes.step 100) (Processes.begin (some ['a', '\n']) none
        fun _ => { myNumWorkItemsChunk := 1 })
      [(1, { meanDuration := 200 }), (1, { meanDuration := 200 }), (1, { meanDuration := 200 }),
        (1, { meanDuration := 200 })]).map (fun s => (s.party 1).head) = some .returned := by
    decide +kernel
  obtain ⟨s, hs, hhead⟩ := Option.map_eq_some_iff.mp hrun
  obtain ⟨hlength, _, hend⟩ := processes_end 100 ['a', '\n'] (Or.inr rfl) none
    (fun _ => { myNumWorkItemsChunk := 1 }) (fun _ => by decide) {1} _ (by decide) (by decide) hs
  exact ⟨s, hs, hhead, hend 1 hhead, hlength⟩

/-- The text that is recorded for a line of the queue file. -/
theorem writeParams_pieces (line : Str) :
    writeParams (pieces line)
      = line.map (fun c => if c == ' ' || c == '\t' then ' ' else c) ++ [' ', '\n'] := by
  rw [writeParams, pieces, Tokens.flatMap_splitOnP, List.append_assoc]
  rfl

/-- What is a rearrangement of images is the list of images of a rearrangement. -/
theorem exists_perm_of_perm_map {α β : Type*} {f : α → β} {l : List β} {k : List α}
    (h : l ~ k.map f) : ∃ k', k' ~ k ∧ l = k'.map f := by
  have hall : List.Forall₂ (fun b a => b = f a) (k.map f) k := by
    rw [List.forall₂_map_left_iff]
    exact List.forall₂_same.mpr fun _ _ => rfl
  obtain ⟨k', hk', hperm⟩ := List.perm_comp_forall₂ h hall
  refine ⟨k', hperm, ?_⟩
  rwa [← List.forall₂_eq_eq_eq, List.forall₂_map_right_iff]

/-- **Every parameter set is recorded exactly once.**  The queue file is empty or ends with a newline, the
chunks are `int`s from one on, and the mean times are in range; the processes start with nothing kept
from an earlier run, and the done file exists from the start.  As soon as one process has returned and
none is in the middle of a chunk, the queue file has no work line left, and the done file has grown by
all its work lines, each written once, in some order, with blanks for the tabs and a blank at the end. -/
theorem processes_record_all (targetChunkTime : ℤ) (content : Str)
    (hterm : content = [] ∨ content.getLast? = some '\n') (doneFile : Str)
    (block : ℕ → RunPotentialParamsQueue)
    (hchunk : ∀ pid, 1 ≤ (block pid).myNumWorkItemsChunk ∧
      ((block pid).myNumWorkItemsChunk : ℤ) ≤ INT_MAX)
    (hfresh : ∀ pid, (block pid).myParamsQueue = [] ∧ (block pid).myDoneParams = [])
    (events : List (ℕ × ProcessEvent))
    (hmean : ∀ e ∈ events, InRange targetChunkTime e.2.meanDuration) {s : Processes}
    (h : run (Processes.step targetChunkTime)
      (Processes.begin (some content) (some doneFile) block) events = some s)
    (hreturned : ∃ pid, (s.party pid).head = .returned)
    (hidle : ∀ pid, (s.party pid).head ≠ .inner) :
    workLines (s.shared.queueFile.getD []) = [] ∧
      ∃ recorded, recorded ~ workLines content ∧
        s.shared.doneFile = some (doneFile ++ recorded.flatMap fun line =>
          line.map (fun c => if c == ' ' || c == '\t' then ' ' else c) ++ [' ', '\n']) := by
  obtain ⟨hfiles, hall⟩ := Processes.holds_run hterm hchunk hmean h
  obtain ⟨hthere, hsettled⟩ := Processes.settled_run hterm hchunk hfresh rfl hmean h
  obtain ⟨pid, hpid⟩ := hreturned
  have hwork := (hall pid).drained hpid
  obtain ⟨queueFile, hqueue, _, hleft⟩ := hfiles.queue
  -- what was recorded is what was pushed, process by process
  have hparts : ∀ pid, entries pid s.shared.log = entries pid s.shared.pushed := by
    intro pid
    obtain ⟨hempty, hdone⟩ := hsettled pid (hidle pid)
    have htaken := (hall pid).books.taken
    rw [(hall pid).taken, (hall pid).recorded, hempty, hdone] at htaken
    simpa [Processes.kept, hfresh pid] using htaken.symm
  have hpushed : s.shared.pushed.map Prod.snd = (workLines content).map pieces := by
    have hempty : (workLines content).drop s.shared.pushed.length = [] := by
      rw [← hleft]
      simpa [workLeft, hqueue] using hwork
    rw [hfiles.pushed, List.take_of_length_le (List.drop_eq_nil_iff.mp hempty)]
  have hperm : s.shared.log.map Prod.snd ~ (workLines content).map pieces := by
    rw [← hpushed]
    exact (perm_of_entries hparts).map Prod.snd
  obtain ⟨recorded, hrecorded, hlog⟩ := exists_perm_of_perm_map hperm
  refine ⟨hwork, recorded, hrecorded, ?_⟩
  obtain ⟨found, hfound⟩ := Option.isSome_iff_exists.mp hthere
  have hdone := hfiles.done
  rw [hfound] at hdone ⊢
  refine congrArg some (hdone.trans (congrArg (doneFile ++ ·) ?_))
  calc s.shared.log.flatMap (fun e => writeParams e.2)
      = (s.shared.log.map Prod.snd).flatMap writeParams := by rw [List.flatMap_map]
    _ = recorded.flatMap fun line => writeParams (pieces line) := by rw [hlog, List.flatMap_map]
    _ = _ := List.flatMap_congr fun line _ => writeParams_pieces line

/-- Two processes with a line each have returned after four steps each. -/
theorem processes_record_all_at :
    ∃ s, run (Processes.step 100) (Processes.begin (some ['a', '\n', 'b', '\n']) (some ['o', '\n'])
          fun _ => { myNumWorkItemsChunk := 1 })
        [(1, { meanDuration := 200 }), (2, { meanDuration := 200 }), (1, { meanDuration := 200 }),
          (2, { meanDuration := 200 }), (2, { meanDuration := 200 }), (1, { meanDuration := 200 }),
          (1, { meanDuration := 200 }), (2, { meanDuration := 200 })] = some s ∧
      ∃ recorded, recorded ~ [['a'], ['b']] ∧
        s.shared.doneFile = some (['o', '\n'] ++ recorded.flatMap fun line =>
          line.map (fun c => if c == ' ' || c == '\t' then ' ' else c) ++ [' ', '\n']) := by
  have hrun : (run (Processes.step 100)
      (Processes.begin (some ['a', '\n', 'b', '\n']) (some ['o', '\n'])
        fun _ => { myNumWorkItemsChunk := 1 })
      [(1, { meanDuration := 200 }), (2, { meanDuration := 200 }), (1, { meanDuration := 200 }),
        (2, { meanDuration := 200 }), (2, { meanDuration := 200 }), (1, { meanDuration := 200 }),
        (1, { meanDuration := 200 }), (2, { meanDuration := 200 })]).map
          (fun s => ((s.party 1).head, (s.party 2).head)) = some (.returned, .returned) := by
    decide +kernel
  obtain ⟨s, hs, hheads⟩ := Option.map_eq_some_iff.mp hrun
  obtain ⟨hfirst, hsecond⟩ := Prod.mk.inj hheads
  have hidle : ∀ pid, (s.party pid).head ≠ .inner := by
    intro pid
    by_cases h₁ : pid = 1
    · simp [h₁, hfirst]
    · by_cases h₂ : pid = 2
      · simp [h₂, hsecond]
      · have hrest := System.party_run (i := pid) (by
          simp [Ne.symm h₁, Ne.symm h₂]) hs
        rw [hrest]
        simp [Processes.begin, Start.begin]
  obtain ⟨_, hrecorded⟩ := processes_record_all 100 ['a', '\n', 'b', '\n'] (Or.inr rfl) ['o', '\n']
    (fun _ => { myNumWorkItemsChunk := 1 }) (fun _ => by decide) (fun _ => ⟨rfl, rfl⟩) _ (by decide)
    hs ⟨1, hfirst⟩ hidle
  exact ⟨s, hs, hrecorded⟩

end StructurePipe.Blocks
