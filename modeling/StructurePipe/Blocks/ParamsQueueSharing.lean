import StructurePipe.Blocks.RunPotentialParamsQueue
import StructurePipe.Lib.StepRuns
import StructurePipe.Lib.WorkPool

/-!
# Processes that share a parameter queue

Any number of processes run `RunPotentialParamsQueue` on one queue file.  `getWork` holds the file
lock from opening the file to closing it, so the calls of different processes do not overlap; between
its calls each process runs what it has pushed and changes its chunk size as it likes.

If the file is terminated at the start it stays terminated, because every call writes whole lines,
and then the file and the processes together are a pool of work lines (`Represents`).

* `Represents.getWork` — one call of one process is one take from the pool;
* `sharing_conserves_work` — **in every interleaving no line is lost, altered or run by two
  processes.**
-/

namespace StructurePipe.Blocks

open TextLines StepRuns WorkPool RunPotentialParamsQueue

/-- The queue file, the processes by their ids, and the parameter sets that were pushed so far, in
the order of the calls. -/
structure Sharing where
  queueFile : Option Str
  process : ℕ → RunPotentialParamsQueue
  pushed : List (ℕ × Params) := []

/-- What a process does. -/
inductive SharingEvent where
  | getWork (pid : ℕ)
  | runFront (pid : ℕ)
  | setChunk (pid n : ℕ)
deriving DecidableEq, Repr

namespace Sharing

/-- One event.  A chunk size is at least one. -/
def step (s : Sharing) : SharingEvent → Option Sharing
  | .getWork pid =>
      let (_, b, queueFile) := (s.process pid).getWork pid s.queueFile
      some {
        queueFile := queueFile
        process := Function.update s.process pid b
        pushed := s.pushed ++
          (b.myParamsQueue.drop (s.process pid).myParamsQueue.length).map fun p => (pid, p) }
  | .runFront pid =>
      some { s with process := Function.update s.process pid (s.process pid).runFront }
  | .setChunk pid n =>
      if 0 < n then
        some { s with process :=
          Function.update s.process pid { s.process pid with myNumWorkItemsChunk := n } }
      else none

end Sharing

/-- Everything a process has received: what it has run and what it is going to run. -/
def RunPotentialParamsQueue.received (b : RunPotentialParamsQueue) : List Params :=
  b.myDoneParams ++ b.myParamsQueue

theorem RunPotentialParamsQueue.received_runFront (b : RunPotentialParamsQueue) :
    b.runFront.received = b.received := by
  rw [runFront]
  cases h : b.myParamsQueue <;> simp [received, h]

/-- The file is terminated and holds the work lines of the pool, with one comment for each taken one;
the processes have received their shares. -/
structure Represents (comments : List Str) (before : ℕ → List Params) (s : Sharing)
    (pool : Pool ℕ Str) : Prop where
  file : ∃ content, s.queueFile = some content ∧ Terminated '\n' content ∧
    workLines content = pool.todo ∧
    commentLines content = comments ++ pool.taken.map fun e => tag e.1 e.2
  pushed : s.pushed = pool.taken.map fun e => (e.1, pieces e.2)
  share : ∀ pid, (s.process pid).received = before pid ++ (pool.share pid).map pieces
  chunk : ∀ pid, 0 < (s.process pid).myNumWorkItemsChunk

/-- A terminated file stays terminated. -/
theorem RunPotentialParamsQueue.Read.terminated {pid : ℕ} {b : RunPotentialParamsQueue}
    {content : Str} {seen : List Str} {s : Scan} (h : Read pid b content seen s)
    (hterm : Terminated '\n' content) :
    Terminated '\n' (if seen.filter isWork = [] then content else s.newContents) := by
  split
  · exact hterm
  · rw [h.newContents_eq]
    exact ((terminated_unlines '\n' _).append '\n' (h.terminated_iff.mpr (Or.inl hterm))).append
      '\n' (terminated_unlines '\n' _)

/-- **One call of one process is one take from the pool.** -/
theorem Represents.getWork {comments : List Str} {before : ℕ → List Params} {s : Sharing}
    {pool : Pool ℕ Str} (h : Represents comments before s pool) (pid : ℕ) :
    ∃ s', s.step (.getWork pid) = some s' ∧
      Represents comments before s' (pool.take pid (s.process pid).myNumWorkItemsChunk) := by
  obtain ⟨content, hfile, hterm, hwork, hcomments⟩ := h.file
  obtain ⟨seen, scan, hread, hcall⟩ := getWork_spec pid (s.process pid) content (h.chunk pid)
  obtain ⟨hwork', hcomments'⟩ := getWork_lines hread (hread.terminated_iff.mpr (Or.inl hterm))
  refine ⟨_, by rw [Sharing.step, hfile, hcall], ?_⟩
  refine ⟨⟨_, rfl, hread.terminated hterm, ?_, ?_⟩, ?_, ?_, ?_⟩
  · rw [hwork', hwork]
    rfl
  · rw [hcomments', hcomments, hwork, Pool.take, List.map_append, List.append_assoc, List.map_map]
    rfl
  · show s.pushed ++ List.map _ (List.drop _ _) = _
    rw [List.drop_left, h.pushed, hwork, Pool.take, List.map_append, List.map_map, List.map_map]
    rfl
  · intro p
    by_cases hp : p = pid
    · subst hp
      rw [Pool.share_take_self, List.map_append, ← List.append_assoc, ← h.share p, ← hwork]
      simp [received]
    · rw [Pool.share_take_of_ne _ hp]
      simpa [hp] using h.share p
  · intro p
    by_cases hp : p = pid
    · subst hp
      simpa using h.chunk p
    · simpa [hp] using h.chunk p

/-- Work done between the calls leaves the pool alone. -/
theorem Represents.update {comments : List Str} {before : ℕ → List Params} {s : Sharing}
    {pool : Pool ℕ Str} (h : Represents comments before s pool) (pid : ℕ)
    {b : RunPotentialParamsQueue} (hreceived : b.received = (s.process pid).received)
    (hchunk : 0 < b.myNumWorkItemsChunk) :
    Represents comments before { s with process := Function.update s.process pid b } pool := by
  refine ⟨h.file, h.pushed, fun p => ?_, fun p => ?_⟩
  · by_cases hp : p = pid
    · subst hp
      simpa [hreceived] using h.share p
    · simpa [hp] using h.share p
  · by_cases hp : p = pid
    · subst hp
      simpa using hchunk
    · simpa [hp] using h.chunk p

/-- **One event** keeps the items of the pool. -/
theorem Represents.step {comments : List Str} {before : ℕ → List Params} {s s' : Sharing}
    {pool : Pool ℕ Str} (h : Represents comments before s pool) {event : SharingEvent}
    (hstep : s.step event = some s') :
    ∃ pool', Represents comments before s' pool' ∧ pool'.items = pool.items := by
  cases event with
  | getWork pid =>
      obtain ⟨s'', hs'', hrep⟩ := h.getWork pid
      obtain rfl : s'' = s' := Option.some.inj (hs''.symm.trans hstep)
      exact ⟨_, hrep, pool.items_take pid _⟩
  | runFront pid =>
      obtain rfl := Option.some.inj hstep
      refine ⟨pool, h.update pid (received_runFront _) ?_, rfl⟩
      have hchunk := h.chunk pid
      rw [runFront]
      split <;> exact hchunk
  | setChunk pid n =>
      rw [Sharing.step] at hstep
      split at hstep
      · next hn =>
          obtain rfl := Option.some.inj hstep
          exact ⟨pool, h.update pid rfl hn, rfl⟩
      · exact absurd hstep (by simp)

/-- **No parameter set is skipped or run twice.**  Processes with chunk sizes of at least one share a
queue file that is empty or ends with a newline.  After any interleaving of their calls there is a
list of lines, each with the process that took it, such that the pushed parameter sets are these
lines in the order of the calls; the lines followed by the work lines still in the file are the work
lines at the start; the comments are those at the start followed by one for each line; and every
process has received its own lines and no others. -/
theorem sharing_conserves_work (content : Str)
    (hterm : content = [] ∨ content.getLast? = some '\n')
    (process : ℕ → RunPotentialParamsQueue) (hchunk : ∀ pid, 1 ≤ (process pid).myNumWorkItemsChunk)
    (events : List SharingEvent) {s : Sharing}
    (h : run Sharing.step ⟨some content, process, []⟩ events = some s) :
    ∃ (taken : List (ℕ × Str)) (queueFile : Str), s.queueFile = some queueFile ∧
      s.pushed = taken.map (fun e => (e.1, pieces e.2)) ∧
      taken.map Prod.snd ++ workLines queueFile = workLines content ∧
      commentLines queueFile = commentLines content ++ taken.map (fun e => tag e.1 e.2) ∧
      ∀ pid, (s.process pid).received = (process pid).received
        ++ ((taken.filter fun e => e.1 == pid).map Prod.snd).map pieces := by
  have hstart : Represents (commentLines content) (fun pid => (process pid).received)
      ⟨some content, process, []⟩ ⟨workLines content, []⟩ :=
    ⟨⟨content, rfl, hterm, rfl, by simp⟩, rfl, fun pid => by simp [Pool.share],
      fun pid => hchunk pid⟩
  obtain ⟨pool, hrep, hitems⟩ : ∃ pool, Represents (commentLines content)
      (fun pid => (process pid).received) s pool ∧ pool.items = workLines content := by
    refine run_invariant (fun s => ∃ pool, Represents (commentLines content)
      (fun pid => (process pid).received) s pool ∧ pool.items = workLines content)
      (fun _ => True) ?_ ⟨_, hstart, rfl⟩ (fun _ _ => trivial) h
    rintro s event s' ⟨pool, hrep, hitems⟩ _ hs
    obtain ⟨pool', hrep', hitems'⟩ := hrep.step hs
    exact ⟨pool', hrep', hitems'.trans hitems⟩
  obtain ⟨queueFile, hfile, _, hwork, hcomments⟩ := hrep.file
  refine ⟨pool.taken, queueFile, hfile, hrep.pushed, ?_, hcomments, hrep.share⟩
  rw [hwork]
  exact hitems

/-- Two processes with chunks of two and one, the second of which runs what it has taken. -/
theorem sharing_conserves_work_at :
    ∃ s, run Sharing.step ⟨some ['a', '\n', 'b', '\n', 'c', '\n', 'd', '\n'], fun _ => {}, []⟩
        [.setChunk 1 2, .setChunk 2 1, .getWork 1, .getWork 2, .runFront 2] = some s ∧
      s.pushed = [(1, [['a']]), (1, [['b']]), (2, [['c']])] ∧
      ∃ (taken : List (ℕ × Str)) (queueFile : Str), s.queueFile = some queueFile ∧
        s.pushed = taken.map (fun e => (e.1, pieces e.2)) ∧
        taken.map Prod.snd ++ workLines queueFile = [['a'], ['b'], ['c'], ['d']] := by
  refine ⟨_, rfl, rfl, ?_⟩
  obtain ⟨taken, queueFile, hfile, hpushed, hwork, _⟩ := sharing_conserves_work
    ['a', '\n', 'b', '\n', 'c', '\n', 'd', '\n'] (Or.inr rfl) (fun _ => {}) (fun _ => by decide)
    [.setChunk 1 2, .setChunk 2 1, .getWork 1, .getWork 2, .runFront 2] rfl
  exact ⟨taken, queueFile, hfile, hpushed, hwork⟩

end StructurePipe.Blocks
