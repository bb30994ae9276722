import StructurePipe.Blocks.RunPotentialParamsQueue
import StructurePipe.Lib.StepRuns

/-!
# The main loop of the parameter queue block

`start` takes work until there is none.  For every parameter set it has taken it runs the
sub-pipeline and remembers the set as done; after each chunk it appends what is done to the done
file, if that file exists, and chooses the size of the next chunk from the mean time of a work item.

A state of `Start` is one head of the two loops.  The queue file may be changed by others between two
steps, the done file is found as others have left it, and the mean time is whatever was measured.

* `start_keeps_books` — **what was taken is recorded, done or queued, in this order, in every run;**
* `start_drains_queue` — **with the queue file to itself `start` returns, and leaves no work in it.**
-/

namespace StructurePipe.Blocks

open TextLines StepRuns

namespace RunPotentialParamsQueue

/-! ### Recording what is done -/

/-- Each piece of a parameter set is followed by a blank. -/
def writeParams (params : Params) : Str := params.flatMap (fun p => p ++ [' ']) ++ ['\n']

/-- The done file is appended to if it exists; if not, the parameter sets stay in memory. -/
def updateDoneParams (b : RunPotentialParamsQueue) (doneFile : Option Str) :
    RunPotentialParamsQueue × Option Str :=
  match doneFile with
  | none => (b, none)
  | some content =>
      ({ b with myDoneParams := [] }, some (content ++ b.myDoneParams.flatMap writeParams))

/-! ### The size of the next chunk -/

/-- The largest `int`. -/
def INT_MAX : ℤ := 2 ^ 31 - 1

/-- A `size_t` as an `int`. -/
def toInt (n : ℕ) : ℤ := (n : ℤ).bmod (2 ^ 32)

/-- An `int` as a `size_t`. -/
def ofInt (i : ℤ) : ℕ := (i % 2 ^ 64).toNat

/-- The ticks that stand for `not_a_date_time`. -/
def NOT_A_DATE_TIME : ℤ := 2 ^ 63 - 2

/-- The ticks of a duration that is no special value. -/
def IsDuration (x : ℤ) : Prop := -2 ^ 63 < x ∧ x < NOT_A_DATE_TIME

instance (x : ℤ) : Decidable (IsDuration x) :=
  inferInstanceAs (Decidable (-2 ^ 63 < x ∧ x < NOT_A_DATE_TIME))

/-- The ticks of a duration are 64-bit. -/
def Fits (x : ℤ) : Prop := -2 ^ 63 ≤ x ∧ x < 2 ^ 63

instance (x : ℤ) : Decidable (Fits x) := inferInstanceAs (Decidable (-2 ^ 63 ≤ x ∧ x < 2 ^ 63))

/-- `<` of durations: `not_a_date_time` is neither shorter nor longer than anything. -/
def shorter (x y : ℤ) : Bool := x ≠ NOT_A_DATE_TIME && y ≠ NOT_A_DATE_TIME && decide (x < y)

/-- A duration times an `int`.  Nothing is promised if the ticks overflow. -/
def times (duration i : ℤ) : Option ℤ :=
  if Fits (duration * i) then some (duration * i) else none

/-- The loop that counts `i` up.  The fuel is what is left to the largest `int`. -/
def raise (meanDuration targetChunkTime : ℤ) : ℕ → ℤ → Option ℤ
  | 0, i => (times meanDuration i).bind fun duration =>
      if shorter duration targetChunkTime then none else some i
  | fuel + 1, i => (times meanDuration i).bind fun duration =>
      if shorter duration targetChunkTime then raise meanDuration targetChunkTime fuel (i + 1)
      else some i

/-- Nothing is promised if `i` overflows or a product does. -/
def updateWorkChunkSize (b : RunPotentialParamsQueue) (meanDuration targetChunkTime : ℤ) :
    Option RunPotentialParamsQueue :=
  if shorter targetChunkTime meanDuration then some { b with myNumWorkItemsChunk := 1 }
  else
    (times meanDuration (toInt b.myNumWorkItemsChunk)).bind fun full =>
      let i := toInt (if shorter targetChunkTime full then 1 else b.myNumWorkItemsChunk + 1)
      (raise meanDuration targetChunkTime (INT_MAX - i).toNat i).map fun i =>
        { b with myNumWorkItemsChunk := ofInt i }

/-- Times for which a next chunk size is promised, whatever the present one is: the target is less than
the largest `int` of means, and that product is a duration unless one item takes longer than the
target. -/
structure InRange (targetChunkTime meanDuration : ℤ) : Prop where
  target : IsDuration targetChunkTime
  mean : IsDuration meanDuration
  reached : targetChunkTime < meanDuration * INT_MAX
  product : meanDuration ≤ targetChunkTime → IsDuration (meanDuration * INT_MAX)

theorem inRange_iff {targetChunkTime meanDuration : ℤ} :
    InRange targetChunkTime meanDuration ↔ IsDuration targetChunkTime ∧ IsDuration meanDuration ∧
      targetChunkTime < meanDuration * INT_MAX ∧
        (meanDuration ≤ targetChunkTime → IsDuration (meanDuration * INT_MAX)) :=
  ⟨fun h => ⟨h.target, h.mean, h.reached, h.product⟩,
    fun ⟨target, mean, reached, product⟩ => ⟨target, mean, reached, product⟩⟩

instance (targetChunkTime meanDuration : ℤ) : Decidable (InRange targetChunkTime meanDuration) :=
  decidable_of_iff' _ inRange_iff

/-- For targets of up to an hour the product is a duration anyway. -/
theorem inRange_of_target_lt {targetChunkTime meanDuration : ℤ} (htarget : IsDuration targetChunkTime)
    (hmean : IsDuration meanDuration) (hreached : targetChunkTime < meanDuration * INT_MAX)
    (hshort : targetChunkTime < 2 ^ 32) : InRange targetChunkTime meanDuration := by
  refine ⟨htarget, hmean, hreached, fun hle => ⟨htarget.1.trans hreached, ?_⟩⟩
  have hmax : INT_MAX = 2147483647 := rfl
  have hspecial : NOT_A_DATE_TIME = 9223372036854775806 := rfl
  calc meanDuration * INT_MAX
      ≤ targetChunkTime * INT_MAX := mul_le_mul_of_nonneg_right hle (by decide)
    _ < NOT_A_DATE_TIME := by
        rw [hmax, hspecial]
        omega

/-- A chunk size the block can have: the constructor sets 20. -/
def ChunkSize (n : ℕ) : Prop := 1 ≤ n ∧ (n : ℤ) ≤ INT_MAX

theorem toInt_of_le {n : ℕ} (h : (n : ℤ) ≤ INT_MAX) : toInt n = n := by
  have hmax : INT_MAX = 2147483647 := rfl
  exact Int.bmod_eq_of_le (by omega) (by omega)

theorem ofInt_of_le {i : ℤ} (hpos : 1 ≤ i) (hle : i ≤ INT_MAX) : (ofInt i : ℤ) = i := by
  have hmax : INT_MAX = 2147483647 := rfl
  rw [ofInt]
  omega

theorem shorter_eq {x y : ℤ} (hx : x ≠ NOT_A_DATE_TIME) (hy : y ≠ NOT_A_DATE_TIME) :
    shorter x y = decide (x < y) := by
  simp [shorter, hx, hy]

theorem IsDuration.ne {x : ℤ} (h : IsDuration x) : x ≠ NOT_A_DATE_TIME := h.2.ne

/-- What is shorter than a duration is smaller. -/
theorem IsDuration.shorter_iff {x y : ℤ} (hy : IsDuration y) : shorter x y ↔ x < y := by
  by_cases hx : x = NOT_A_DATE_TIME
  · have hge : ¬ NOT_A_DATE_TIME < y := not_lt.mpr hy.2.le
    simp [shorter, hx, hge]
  · rw [shorter_eq hx hy.ne, decide_eq_true_iff]

/-- What is longer than a duration is greater. -/
theorem IsDuration.shorter_right_iff {x y : ℤ} (hx : IsDuration x) :
    shorter x y ↔ x < y ∧ y ≠ NOT_A_DATE_TIME := by
  by_cases hy : y = NOT_A_DATE_TIME
  · simp [shorter, hy]
  · rw [shorter_eq hx.ne hy, decide_eq_true_iff, and_iff_left hy]

/-- Up to a product that is a duration, all products are. -/
theorem isDuration_mul {m i j : ℤ} (hm : 0 < m) (hi : 0 ≤ i) (hij : i ≤ j)
    (hj : IsDuration (m * j)) : IsDuration (m * i) := by
  have hpos : 0 ≤ m * i := mul_nonneg hm.le hi
  have hle : m * i ≤ m * j := mul_le_mul_of_nonneg_left hij hm.le
  exact ⟨by omega, hle.trans_lt hj.2⟩

theorem IsDuration.times_eq {m i : ℤ} (h : IsDuration (m * i)) : times m i = some (m * i) := by
  have hmax : NOT_A_DATE_TIME = 2 ^ 63 - 2 := rfl
  obtain ⟨hlow, hhigh⟩ := h
  exact if_pos ⟨hlow.le, by omega⟩

theorem exists_raise {meanDuration targetChunkTime : ℤ} (hmean : 0 < meanDuration)
    (htarget : IsDuration targetChunkTime) (hreached : targetChunkTime < meanDuration * INT_MAX)
    (hproduct : IsDuration (meanDuration * INT_MAX)) (fuel : ℕ) {i : ℤ} (hpos : 1 ≤ i)
    (hfuel : i + fuel = INT_MAX) :
    ∃ j, raise meanDuration targetChunkTime fuel i = some j ∧ i ≤ j ∧ j ≤ INT_MAX := by
  induction fuel generalizing i with
  | zero =>
      have hi : i = INT_MAX := by omega
      have hlast : ¬ shorter (meanDuration * INT_MAX) targetChunkTime := by
        rw [htarget.shorter_iff]
        exact hreached.not_gt
      refine ⟨i, ?_, le_rfl, hi.le⟩
      rw [raise, hi, hproduct.times_eq, Option.bind_some, if_neg hlast]
  | succ fuel ih =>
      have hfits : IsDuration (meanDuration * i) :=
        isDuration_mul hmean (by omega) (by omega) hproduct
      rw [raise, hfits.times_eq, Option.bind_some]
      split
      · obtain ⟨j, hj, hle, hmax⟩ := ih (i := i + 1) (by omega) (by push_cast at hfuel; omega)
        exact ⟨j, hj, by omega, hmax⟩
      · exact ⟨i, rfl, le_rfl, by push_cast at hfuel; omega⟩

/-- **The next chunk size is at least one.** -/
theorem updateWorkChunkSize_spec (b : RunPotentialParamsQueue) {meanDuration targetChunkTime : ℤ}
    (hchunk : ChunkSize b.myNumWorkItemsChunk) (hrange : InRange targetChunkTime meanDuration) :
    ∃ n, b.updateWorkChunkSize meanDuration targetChunkTime
        = some { b with myNumWorkItemsChunk := n } ∧ ChunkSize n := by
  obtain ⟨hpos, hle⟩ := hchunk
  have hreached := hrange.reached
  rw [updateWorkChunkSize]
  split
  · exact ⟨1, rfl, le_rfl, by decide⟩
  · next hlong =>
      rw [hrange.mean.shorter_iff, not_lt] at hlong
      have hmax : INT_MAX = 2147483647 := rfl
      have hmean : 0 < meanDuration := by
        rw [hmax] at hreached
        omega
      have hproduct := hrange.product hlong
      have hfits : IsDuration (meanDuration * b.myNumWorkItemsChunk) :=
        isDuration_mul hmean (by omega) hle hproduct
      have hstart : ∃ i : ℕ, (if shorter targetChunkTime (meanDuration * b.myNumWorkItemsChunk) then 1
          else b.myNumWorkItemsChunk + 1) = i ∧ ChunkSize i := by
        split
        · exact ⟨1, rfl, le_rfl, by decide⟩
        · next hmore =>
            refine ⟨_, rfl, by omega, ?_⟩
            -- a chunk of `INT_MAX` items takes longer than the target
            by_contra hfull
            have hall : (b.myNumWorkItemsChunk : ℤ) = INT_MAX := by push_cast at hfull; omega
            rw [hall, hproduct.shorter_iff] at hmore
            exact hmore hreached
      obtain ⟨i, hi, hipos, hile⟩ := hstart
      obtain ⟨j, hj, hij, hjle⟩ := exists_raise hmean hrange.target hreached hproduct
        (INT_MAX - i).toNat (i := i) (by omega) (by omega)
      have hofInt : (ofInt j : ℤ) = j := ofInt_of_le (by omega) hjle
      refine ⟨ofInt j, ?_, by omega, by omega⟩
      rw [toInt_of_le hle, hfits.times_eq, Option.bind_some]
      simp only [hi, toInt_of_le hile, hj, Option.map_some]

/-! ### What a call of `getWork` does to the queues -/

theorem readLoop_pushes (pid chunk fuel : ℕ) (s : Scan) :
    ∃ pushed, (s.readLoop pid chunk fuel).myParamsQueue = s.myParamsQueue ++ pushed := by
  induction fuel generalizing s with
  | zero => exact ⟨[], (List.append_nil _).symm⟩
  | succ fuel ih =>
      rw [Scan.readLoop]
      split
      · split
        · exact ⟨[], (List.append_nil _).symm⟩
        · next line rest _ =>
            obtain ⟨pushed, hpushed⟩ := ih ((s.unread rest).readLine pid line)
            rw [hpushed, Scan.readLine, readParams_eq]
            split
            · exact ⟨pieces line :: pushed, by simp [Scan.take, Scan.unread]⟩
            · exact ⟨pushed, rfl⟩
      · exact ⟨[], (List.append_nil _).symm⟩

/-- Whatever the chunk size, a call only pushes to the queue of the block. -/
theorem getWork_pushes (b : RunPotentialParamsQueue) (pid : ℕ) (queueFile : Option Str) :
    ∃ pushed, (b.getWork pid queueFile).2.1
      = { b with myParamsQueue := b.myParamsQueue ++ pushed } := by
  cases queueFile with
  | none => exact ⟨[], by simp [getWork]⟩
  | some content =>
      obtain ⟨pushed, hpushed⟩ := readLoop_pushes pid b.myNumWorkItemsChunk content.length
        ⟨content, [], [], 0, b.myParamsQueue⟩
      exact ⟨pushed, by rw [getWork, hpushed]⟩

/-- The work lines of a file that may not exist. -/
def workLeft (queueFile : Option Str) : List Str := workLines (queueFile.getD [])

/-- **A call with a chunk size of at least one** pushes as many parameter sets as work lines go from
the file, whatever the file holds, and pushes nothing only if there is no work line. -/
theorem getWork_drains (b : RunPotentialParamsQueue) (pid : ℕ) (queueFile : Option Str)
    (hchunk : 1 ≤ b.myNumWorkItemsChunk) :
    ∃ (pushed : List Params) (queueFile' : Option Str),
      b.getWork pid queueFile = (decide (0 < pushed.length),
        { b with myParamsQueue := b.myParamsQueue ++ pushed }, queueFile') ∧
      (workLeft queueFile').length + pushed.length = (workLeft queueFile).length ∧
      (pushed = [] → workLeft queueFile' = []) := by
  cases queueFile with
  | none => exact ⟨[], none, by simp [getWork], rfl, fun _ => rfl⟩
  | some content =>
      obtain ⟨seen, s, hread, hcall⟩ := getWork_spec pid b content hchunk
      refine ⟨((workLines content).take b.myNumWorkItemsChunk).map pieces,
        some (if seen.filter isWork = [] then content else s.newContents), ?_, ?_, ?_⟩
      · rw [hcall, ← hread.taken_eq]
        simp [List.length_pos_iff]
      · have hlines := congrArg List.length hread.workLines_eq
        rw [List.length_append] at hlines
        rw [List.length_map, ← hread.taken_eq, workLeft, workLeft, Option.getD_some,
          Option.getD_some]
        split
        · next htaken => rw [htaken, List.length_nil, Nat.add_zero]
        · next htaken => rw [hread.length_workLines_newContents htaken, hlines, Nat.add_comm]
      · intro hnil
        rw [List.map_eq_nil_iff, ← hread.taken_eq] at hnil
        rw [workLeft, Option.getD_some, if_pos hnil]
        have hempty := hread.taken_eq.symm.trans hnil
        exact (List.take_eq_nil_iff.mp hempty).resolve_left (by omega)

@[simp] theorem myNumWorkItemsChunk_runFront (b : RunPotentialParamsQueue) :
    b.runFront.myNumWorkItemsChunk = b.myNumWorkItemsChunk := by
  rw [runFront]
  split <;> rfl

end RunPotentialParamsQueue

/-! ### The two loops -/

open RunPotentialParamsQueue

/-- Where `start` is: at the head of the outer loop, at the head of the inner loop, or returned. -/
inductive LoopHead where
  | outer
  | inner
  | returned
deriving DecidableEq, Repr

/-- The block and its files.  The rest is what happened in this run: the parameter sets taken, run
and recorded, what was appended to the done file, and the chunk size at each call of `getWork`. -/
structure Start where
  block : RunPotentialParamsQueue
  head : LoopHead := .outer
  queueFile : Option Str
  doneFile : Option Str
  taken : List Params
  ran : List Params
  recorded : List Params := []
  appended : Str := []
  chunkSizes : List ℕ := []
deriving DecidableEq, Repr

/-- Others change the queue file, or the block goes on to the next loop head.  Going on, it finds the
done file as given, and the mean time of a work item is as given. -/
inductive StartEvent where
  | queueFileChanges (queueFile : Option Str)
  | proceed (doneFile : Option Str) (meanDuration : ℤ)
deriving DecidableEq, Repr

namespace Start

/-- `start` is called.  What an earlier run has left in the block counts as taken. -/
def begin (b : RunPotentialParamsQueue) (queueFile doneFile : Option Str) : Start where
  block := b
  queueFile := queueFile
  doneFile := doneFile
  taken := b.myDoneParams ++ b.myParamsQueue
  ran := b.myDoneParams

/-- The condition of the outer loop. -/
def getWork (pid : ℕ) (s : Start) : Start :=
  let (found, b, queueFile) := s.block.getWork pid s.queueFile
  { s with
    block := b
    head := if found then .inner else .returned
    queueFile := queueFile
    taken := s.taken ++ b.myParamsQueue.drop s.block.myParamsQueue.length
    chunkSizes := s.chunkSizes ++ [s.block.myNumWorkItemsChunk] }

/-- The body of the inner loop. -/
def runFront (s : Start) : Start :=
  { s with
    block := s.block.runFront
    ran := s.ran ++ s.block.myParamsQueue.take 1 }

/-- What follows the inner loop. -/
def finishChunk (targetChunkTime meanDuration : ℤ) (s : Start) : Option Start :=
  let updated := s.block.updateDoneParams s.doneFile
  (updated.1.updateWorkChunkSize meanDuration targetChunkTime).map fun b =>
    { s with
      block := b
      head := .outer
      doneFile := updated.2
      recorded := if s.doneFile.isSome then s.recorded ++ s.block.myDoneParams else s.recorded
      appended := s.appended ++ (updated.2.getD []).drop (s.doneFile.getD []).length }

def findDoneFile (doneFile : Option Str) (s : Start) : Start := { s with doneFile := doneFile }

def step (targetChunkTime : ℤ) (pid : ℕ) (s : Start) : StartEvent → Option Start
  | .queueFileChanges queueFile => some { s with queueFile := queueFile }
  | .proceed doneFile meanDuration =>
      match s.head with
      | .outer => some ((s.findDoneFile doneFile).getWork pid)
      | .inner =>
          if s.block.myParamsQueue.isEmpty then
            (s.findDoneFile doneFile).finishChunk targetChunkTime meanDuration
          else some (s.findDoneFile doneFile).runFront
      | .returned => none

/-! ### The books -/

/-- **The parameter sets in the order they were taken**: recorded, done, queued. -/
structure Books (s : Start) : Prop where
  taken : s.taken = s.recorded ++ s.block.myDoneParams ++ s.block.myParamsQueue
  ran : s.ran = s.recorded ++ s.block.myDoneParams
  appended : s.appended = s.recorded.flatMap writeParams

theorem books_begin (b : RunPotentialParamsQueue) (queueFile doneFile : Option Str) :
    Books (begin b queueFile doneFile) := ⟨rfl, rfl, rfl⟩

theorem Books.findDoneFile {s : Start} (h : Books s) (doneFile : Option Str) :
    Books (s.findDoneFile doneFile) := ⟨h.taken, h.ran, h.appended⟩

theorem Books.getWork {s : Start} (h : Books s) (pid : ℕ) : Books (s.getWork pid) := by
  obtain ⟨pushed, hpushed⟩ := getWork_pushes s.block pid s.queueFile
  have hblock : (s.getWork pid).block
      = { s.block with myParamsQueue := s.block.myParamsQueue ++ pushed } := hpushed
  have htaken : (s.getWork pid).taken = s.taken ++ pushed := by
    show s.taken ++ List.drop _ (s.getWork pid).block.myParamsQueue = _
    rw [hblock, List.drop_left]
  refine ⟨?_, ?_, h.appended⟩
  · show _ = s.recorded ++ _ ++ _
    rw [htaken, hblock, h.taken, List.append_assoc]
  · show s.ran = s.recorded ++ _
    rw [hblock, h.ran]

theorem Books.runFront {s : Start} (h : Books s) : Books s.runFront := by
  cases hqueue : s.block.myParamsQueue with
  | nil =>
      have hsame : s.runFront = s := by
        rw [Start.runFront, RunPotentialParamsQueue.runFront, hqueue]
        simp
      rwa [hsame]
  | cons params rest =>
      have hblock : s.runFront.block = { s.block with
          myCurrentParams := params
          myDoneParams := s.block.myDoneParams ++ [params]
          myParamsQueue := rest } := by
        rw [Start.runFront, RunPotentialParamsQueue.runFront, hqueue]
      refine ⟨?_, ?_, h.appended⟩
      · show s.taken = s.recorded ++ _ ++ _
        rw [hblock, h.taken, hqueue]
        simp
      · show s.ran ++ List.take 1 _ = s.recorded ++ _
        rw [hblock, h.ran, hqueue]
        simp

/-- What the end of a chunk does, if the next chunk size is defined. -/
theorem finishChunk_cases {targetChunkTime meanDuration : ℤ} {s s' : Start}
    (h : s.finishChunk targetChunkTime meanDuration = some s') :
    ∃ n, (s.doneFile = none ∧ s' = { s with
          block := { s.block with myNumWorkItemsChunk := n }
          head := .outer }) ∨
      ∃ content, s.doneFile = some content ∧ s' = { s with
          block := { s.block with myDoneParams := [], myNumWorkItemsChunk := n }
          head := .outer
          doneFile := some (content ++ s.block.myDoneParams.flatMap writeParams)
          recorded := s.recorded ++ s.block.myDoneParams
          appended := s.appended ++ s.block.myDoneParams.flatMap writeParams } := by
  have hchunk : ∀ {b b' : RunPotentialParamsQueue},
      b.updateWorkChunkSize meanDuration targetChunkTime = some b' →
        ∃ n, b' = { b with myNumWorkItemsChunk := n } := by
    intro b b' hb
    rw [updateWorkChunkSize] at hb
    split at hb
    · exact ⟨1, (Option.some.inj hb).symm⟩
    · obtain ⟨full, _, hfull⟩ := Option.bind_eq_some_iff.mp hb
      obtain ⟨i, _, hi⟩ := Option.map_eq_some_iff.mp hfull
      exact ⟨ofInt i, hi.symm⟩
  rw [finishChunk] at h
  obtain ⟨b', hb', hs'⟩ := Option.map_eq_some_iff.mp h
  obtain ⟨n, hn⟩ := hchunk hb'
  refine ⟨n, ?_⟩
  cases hdone : s.doneFile with
  | none =>
      left
      refine ⟨rfl, ?_⟩
      simp [← hs', hn, hdone, updateDoneParams]
  | some content =>
      right
      refine ⟨content, rfl, ?_⟩
      simp [← hs', hn, hdone, updateDoneParams]

theorem Books.finishChunk {targetChunkTime meanDuration : ℤ} {s s' : Start} (h : Books s)
    (hs' : s.finishChunk targetChunkTime meanDuration = some s') : Books s' := by
  obtain ⟨n, ⟨_, rfl⟩ | ⟨content, _, rfl⟩⟩ := finishChunk_cases hs'
  · exact ⟨h.taken, h.ran, h.appended⟩
  · refine ⟨?_, ?_, ?_⟩
    · show s.taken = s.recorded ++ s.block.myDoneParams ++ [] ++ s.block.myParamsQueue
      rw [List.append_nil, h.taken]
    · show s.ran = s.recorded ++ s.block.myDoneParams ++ []
      rw [List.append_nil, h.ran]
    · show s.appended ++ _ = (s.recorded ++ s.block.myDoneParams).flatMap writeParams
      rw [List.flatMap_append, h.appended]

/-- **One step.** -/
theorem Books.step {targetChunkTime : ℤ} {pid : ℕ} {s s' : Start} (h : Books s)
    {event : StartEvent} (hstep : s.step targetChunkTime pid event = some s') : Books s' := by
  cases event with
  | queueFileChanges queueFile =>
      obtain rfl := Option.some.inj hstep
      exact ⟨h.taken, h.ran, h.appended⟩
  | proceed doneFile meanDuration =>
      have hfound := h.findDoneFile doneFile
      rw [Start.step] at hstep
      cases hhead : s.head with
      | outer =>
          rw [hhead] at hstep
          exact Option.some.inj hstep ▸ hfound.getWork pid
      | inner =>
          simp only [hhead] at hstep
          split at hstep
          · exact hfound.finishChunk hstep
          · exact Option.some.inj hstep ▸ hfound.runFront
      | returned =>
          rw [hhead] at hstep
          exact absurd hstep (by simp)

/-- Others only append to the done file, once it exists. -/
def OnlyAppended (s : Start) : StartEvent → Prop
  | .queueFileChanges _ => True
  | .proceed doneFile _ =>
      ∀ content ∈ s.doneFile, ∃ found ∈ doneFile, content <+: found

instance (s : Start) (event : StartEvent) : Decidable (s.OnlyAppended event) :=
  match event with
  | .queueFileChanges _ => isTrue trivial
  | .proceed doneFile _ =>
      inferInstanceAs (Decidable (∀ content ∈ s.doneFile, ∃ found ∈ doneFile, content <+: found))

/-- The text of the done file is made of what this run has recorded, chunk by chunk and each behind what
others had written by then, and of what others have written since. -/
def LaidOut (s : Start) (content : Str) : Prop :=
  ∃ (chunks : List (Str × List Params)) (rest : Str),
    content = chunks.flatMap (fun chunk => chunk.1 ++ chunk.2.flatMap writeParams) ++ rest ∧
      chunks.flatMap Prod.snd = s.recorded

/-- What this run has recorded is in the done file, and nothing is recorded without one. -/
def InDoneFile (s : Start) : Prop :=
  match s.doneFile with
  | none => s.recorded = []
  | some content => s.LaidOut content

theorem inDoneFile_none {s : Start} (h : s.doneFile = none) : s.InDoneFile ↔ s.recorded = [] := by
  rw [InDoneFile, h]

theorem inDoneFile_some {s : Start} {content : Str} (h : s.doneFile = some content) :
    s.InDoneFile ↔ s.LaidOut content := by
  rw [InDoneFile, h]

/-- Without a record every text is one that others have written. -/
theorem laidOut_of_nil {s : Start} (h : s.recorded = []) (content : Str) : s.LaidOut content :=
  ⟨[], content, rfl, h.symm⟩

theorem inDoneFile_begin (b : RunPotentialParamsQueue) (queueFile doneFile : Option Str) :
    (begin b queueFile doneFile).InDoneFile := by
  cases doneFile with
  | none => rfl
  | some content => exact laidOut_of_nil rfl content

theorem LaidOut.append {s : Start} {content : Str} (h : s.LaidOut content) (more : Str) :
    s.LaidOut (content ++ more) := by
  obtain ⟨chunks, rest, htext, hsets⟩ := h
  exact ⟨chunks, rest ++ more, by rw [htext, List.append_assoc], hsets⟩

theorem InDoneFile.findDoneFile {s : Start} (h : s.InDoneFile) {doneFile : Option Str} {mean : ℤ}
    (honly : s.OnlyAppended (.proceed doneFile mean)) : (s.findDoneFile doneFile).InDoneFile := by
  cases hdone : s.doneFile with
  | none =>
      have hnil := (inDoneFile_none hdone).mp h
      cases doneFile with
      | none => exact hnil
      | some content => exact laidOut_of_nil hnil content
  | some content =>
      obtain ⟨found, hfound, more, rfl⟩ := honly content hdone
      rw [Option.mem_def.mp hfound]
      exact ((inDoneFile_some hdone).mp h).append more

theorem InDoneFile.finishChunk {targetChunkTime meanDuration : ℤ} {s s' : Start}
    (h : s.InDoneFile) (hs' : s.finishChunk targetChunkTime meanDuration = some s') :
    s'.InDoneFile := by
  obtain ⟨n, ⟨hdone, rfl⟩ | ⟨content, hdone, rfl⟩⟩ := finishChunk_cases hs'
  · exact (inDoneFile_none hdone).mpr ((inDoneFile_none hdone).mp h)
  · obtain ⟨chunks, rest, htext, hsets⟩ := (inDoneFile_some hdone).mp h
    refine (inDoneFile_some rfl).mpr ⟨chunks ++ [(rest, s.block.myDoneParams)], [], ?_, ?_⟩
    · rw [htext, List.flatMap_append]
      simp
    · rw [List.flatMap_append, hsets]
      simp

theorem InDoneFile.step {targetChunkTime : ℤ} {pid : ℕ} {s s' : Start} (h : s.InDoneFile)
    {event : StartEvent} (honly : s.OnlyAppended event)
    (hstep : s.step targetChunkTime pid event = some s') : s'.InDoneFile := by
  cases event with
  | queueFileChanges queueFile =>
      obtain rfl := Option.some.inj hstep
      exact h
  | proceed doneFile meanDuration =>
      have hfound := h.findDoneFile honly
      rw [Start.step] at hstep
      cases hhead : s.head with
      | outer =>
          rw [hhead] at hstep
          exact Option.some.inj hstep ▸ hfound
      | inner =>
          simp only [hhead] at hstep
          split at hstep
          · exact hfound.finishChunk hstep
          · exact Option.some.inj hstep ▸ hfound
      | returned =>
          rw [hhead] at hstep
          exact absurd hstep (by simp)

/-- Whether or not there is a done file. -/
theorem InDoneFile.laidOut {s : Start} (h : s.InDoneFile) : s.LaidOut (s.doneFile.getD []) := by
  cases hdone : s.doneFile with
  | none => exact laidOut_of_nil ((inDoneFile_none hdone).mp h) []
  | some content => exact (inDoneFile_some hdone).mp h

end Start

/-- **The books are right at every loop head.**  In every run of `start`, whatever others do to the
two files and whether or not the done file exists when it is looked for: the parameter sets taken so
far are those recorded in the done file, those remembered as done and those in the queue, in this
order; those recorded and those remembered are the ones that have been run; and the text appended to
the done file has a line for each recorded set, in order, with a blank behind every parameter.  If
others only append to the done file, it consists of these lines, in runs for one chunk each, and of
what others have written before, between and behind the runs. -/
theorem start_keeps_books (targetChunkTime : ℤ) (pid : ℕ) (b : RunPotentialParamsQueue)
    (queueFile doneFile : Option Str) (events : List StartEvent) {s : Start}
    (h : run (Start.step targetChunkTime pid) (Start.begin b queueFile doneFile) events = some s) :
    let line : Params → Str := fun params => params.flatMap (fun p => p ++ [' ']) ++ ['\n']
    s.taken = s.recorded ++ s.block.myDoneParams ++ s.block.myParamsQueue ∧
      s.ran = s.recorded ++ s.block.myDoneParams ∧
      s.appended = s.recorded.flatMap line ∧
      (Along (Start.step targetChunkTime pid) Start.OnlyAppended
          (Start.begin b queueFile doneFile) events →
        ∃ (chunks : List (Str × List Params)) (rest : Str),
          s.doneFile.getD []
            = chunks.flatMap (fun chunk => chunk.1 ++ chunk.2.flatMap line) ++ rest ∧
          chunks.flatMap Prod.snd = s.recorded) := by
  have hbooks : s.Books := run_invariant Start.Books (fun _ => True)
    (fun _ _ _ hs _ hstep => hs.step hstep) (Start.books_begin b queueFile doneFile)
    (fun _ _ => trivial) h
  refine ⟨hbooks.taken, hbooks.ran, hbooks.appended, fun honly => ?_⟩
  have hfile : s.InDoneFile := run_invariant_along Start.InDoneFile Start.OnlyAppended
    (fun _ _ _ hs hok hstep => hs.step hok hstep) (Start.inDoneFile_begin b queueFile doneFile)
    honly h
  exact hfile.laidOut

/-- Two chunks of one; the done file appears after the second, and somebody adds a line to it. -/
theorem start_keeps_books_at :
    ∃ s, run (Start.step 100 7)
        (Start.begin { myNumWorkItemsChunk := 1 } (some ['a', '\n', 'b', '\n']) none)
        [.proceed none 200, .proceed none 200, .proceed none 200, .proceed none 200,
          .proceed none 200, .proceed (some ['o', '\n']) 200,
          .proceed (some ['o', '\n', 'a', ' ', '\n', 'b', ' ', '\n', 'o', '\n']) 200] = some s ∧
      s.recorded = [[['a']], [['b']]] ∧
      s.taken = s.recorded ++ s.block.myDoneParams ++ s.block.myParamsQueue ∧
      s.ran = [[['a']], [['b']]] ∧ s.appended = ['a', ' ', '\n', 'b', ' ', '\n'] ∧
      ∃ (chunks : List (Str × List Params)) (rest : Str),
        ['o', '\n', 'a', ' ', '\n', 'b', ' ', '\n', 'o', '\n'] = chunks.flatMap (fun chunk =>
          chunk.1 ++ chunk.2.flatMap fun params => params.flatMap (fun p => p ++ [' ']) ++ ['\n'])
            ++ rest ∧
        chunks.flatMap Prod.snd = [[['a']], [['b']]] := by
  refine ⟨_, rfl, rfl, ?_⟩
  obtain ⟨htaken, hran, happended, hfile⟩ := start_keeps_books 100 7 { myNumWorkItemsChunk := 1 }
    (some ['a', '\n', 'b', '\n']) none
    [.proceed none 200, .proceed none 200, .proceed none 200, .proceed none 200,
      .proceed none 200, .proceed (some ['o', '\n']) 200,
      .proceed (some ['o', '\n', 'a', ' ', '\n', 'b', ' ', '\n', 'o', '\n']) 200] rfl
  exact ⟨htaken, hran, happended, hfile (by decide)⟩

/-! ### Draining the queue -/

namespace Start

/-- What holds while `start` has the queue file to itself, with `work` work lines in it at first. -/
structure Draining (work : ℕ) (s : Start) : Prop where
  chunk : ChunkSize s.block.myNumWorkItemsChunk
  sizes : ∀ n ∈ s.chunkSizes, 1 ≤ n
  calls : s.chunkSizes.length + (workLeft s.queueFile).length
    + (if s.head = .returned then 0 else 1) ≤ work + 1
  drained : s.head = .returned → workLeft s.queueFile = []

/-- What is left to do. -/
def remaining (s : Start) : ℕ :=
  3 * (workLeft s.queueFile).length + s.block.myParamsQueue.length
    + match s.head with
      | .outer => 1
      | .inner => 2
      | .returned => 0

theorem Draining.findDoneFile {work : ℕ} {s : Start} (h : Draining work s)
    (doneFile : Option Str) : Draining work (s.findDoneFile doneFile) :=
  ⟨h.chunk, h.sizes, h.calls, h.drained⟩

@[simp] theorem remaining_findDoneFile (s : Start) (doneFile : Option Str) :
    (s.findDoneFile doneFile).remaining = s.remaining := rfl

theorem Draining.getWork {work : ℕ} {s : Start} (h : Draining work s) (hhead : s.head = .outer)
    (pid : ℕ) : Draining work (s.getWork pid) ∧ (s.getWork pid).remaining < s.remaining := by
  obtain ⟨pushed, queueFile, hcall, hlines, hnil⟩ :=
    getWork_drains s.block pid s.queueFile h.chunk.1
  have hcalls := h.calls
  have hsizes : ∀ n ∈ s.chunkSizes ++ [s.block.myNumWorkItemsChunk], 1 ≤ n := by
    intro n hn
    rcases List.mem_append.mp hn with hn | hn
    · exact h.sizes n hn
    · exact List.mem_singleton.mp hn ▸ h.chunk.1
  rw [if_neg (by simp [hhead])] at hcalls
  rw [Start.getWork, hcall]
  cases pushed with
  | nil =>
      have hleft := hnil rfl
      rw [hleft] at hlines
      simp only [List.length_nil, Nat.lt_irrefl, decide_false, List.append_nil] at hlines ⊢
      refine ⟨⟨h.chunk, hsizes, ?_, fun _ => hleft⟩, ?_⟩
      · simp [hleft]
        omega
      · simp [remaining, hleft, hhead]
  | cons p ps =>
      have hpos : 0 < (p :: ps).length := Nat.succ_pos _
      simp only [hpos, decide_true, if_true]
      refine ⟨⟨h.chunk, hsizes, ?_, fun hreturned => absurd hreturned (by simp)⟩, ?_⟩
      · simp only [List.length_append, List.length_singleton, reduceCtorEq, if_false]
        omega
      · simp only [remaining, hhead, List.length_append]
        omega

theorem Draining.runFront {work : ℕ} {s : Start} (h : Draining work s)
    (hqueue : s.block.myParamsQueue ≠ []) :
    Draining work s.runFront ∧ s.runFront.remaining < s.remaining := by
  refine ⟨⟨?_, h.sizes, h.calls, h.drained⟩, ?_⟩
  · show ChunkSize s.block.runFront.myNumWorkItemsChunk
    rw [myNumWorkItemsChunk_runFront]
    exact h.chunk
  · obtain ⟨params, rest, hcons⟩ := List.exists_cons_of_ne_nil hqueue
    have hblock : s.runFront.block.myParamsQueue = rest := by
      rw [Start.runFront, RunPotentialParamsQueue.runFront, hcons]
    rw [remaining, remaining, hblock, hcons, List.length_cons]
    show 3 * (workLeft s.queueFile).length + rest.length + _ < _
    exact Nat.add_lt_add_right (by omega) _

theorem Draining.finishChunk {work : ℕ} {s : Start} {targetChunkTime meanDuration : ℤ}
    (h : Draining work s) (hhead : s.head = .inner)
    (hrange : InRange targetChunkTime meanDuration) :
    ∃ s', s.finishChunk targetChunkTime meanDuration = some s' ∧ Draining work s' ∧
      s'.remaining < s.remaining := by
  have hkept : (s.block.updateDoneParams s.doneFile).1.myNumWorkItemsChunk
      = s.block.myNumWorkItemsChunk := by
    cases s.doneFile <;> rfl
  have hqueue : (s.block.updateDoneParams s.doneFile).1.myParamsQueue
      = s.block.myParamsQueue := by
    cases s.doneFile <;> rfl
  obtain ⟨n, hn, hsize⟩ := updateWorkChunkSize_spec (s.block.updateDoneParams s.doneFile).1
    (hkept ▸ h.chunk) hrange
  have hcalls := h.calls
  rw [if_neg (by simp [hhead])] at hcalls
  refine ⟨_, congrArg (Option.map _) hn, ?_, ?_⟩
  · exact ⟨hsize, h.sizes, by simpa using hcalls, fun hreturned => absurd hreturned (by simp)⟩
  · simp only [remaining, hhead, hqueue]
    omega

theorem Draining.step {work : ℕ} {s : Start} {targetChunkTime : ℤ} (pid : ℕ)
    (h : Draining work s) (hhead : s.head ≠ .returned) (doneFile : Option Str) {meanDuration : ℤ}
    (hrange : InRange targetChunkTime meanDuration) :
    ∃ s', s.step targetChunkTime pid (.proceed doneFile meanDuration) = some s' ∧
      Draining work s' ∧ s'.remaining < s.remaining := by
  have hfound := h.findDoneFile doneFile
  cases hcase : s.head with
  | outer =>
      refine ⟨(s.findDoneFile doneFile).getWork pid, by rw [Start.step, hcase], ?_⟩
      exact hfound.getWork hcase pid
  | inner =>
      cases hqueue : s.block.myParamsQueue with
      | nil =>
          obtain ⟨s', hs', hend⟩ := hfound.finishChunk hcase hrange
          exact ⟨s', by simp [Start.step, hcase, hqueue, hs'], hend⟩
      | cons params rest =>
          refine ⟨(s.findDoneFile doneFile).runFront, by simp [Start.step, hcase, hqueue], ?_⟩
          refine hfound.runFront ?_
          show s.block.myParamsQueue ≠ []
          simp [hqueue]
  | returned => exact absurd hcase hhead

end Start

/-- **`start` drains the queue and returns.**  The queue file is anything and nobody else changes it;
at each step the done file and the mean time of a work item are anything such that the target is
less than the largest `int` of mean times, and that this product is a duration unless one item takes
longer than the target.  (For targets of up to an hour it always is.)  Then some number of steps leads
to the return, with no work line left in the file, at most one call of `getWork` for each work line and
one more, and a chunk size of at least one at each of them and at the end. -/
theorem start_drains_queue (targetChunkTime : ℤ) (pid : ℕ) (b : RunPotentialParamsQueue)
    (hchunk : 1 ≤ b.myNumWorkItemsChunk ∧ (b.myNumWorkItemsChunk : ℤ) ≤ INT_MAX)
    (queueFile doneFile : Option Str) (found : ℕ → Option Str) (meanDuration : ℕ → ℤ)
    (hrange : ∀ n, InRange targetChunkTime (meanDuration n)) :
    ∃ n s, run (Start.step targetChunkTime pid) (Start.begin b queueFile doneFile)
        ((List.range n).map fun i => .proceed (found i) (meanDuration i)) = some s ∧
      s.head = .returned ∧
      (lines '\n' (s.queueFile.getD [])).filter isWork = [] ∧
      s.chunkSizes.length ≤ (workLines (queueFile.getD [])).length + 1 ∧
      (∀ size ∈ s.chunkSizes, 1 ≤ size) ∧
      1 ≤ s.block.myNumWorkItemsChunk ∧ (s.block.myNumWorkItemsChunk : ℤ) ≤ INT_MAX := by
  have hbegin : (Start.begin b queueFile doneFile).Draining (workLeft queueFile).length := by
    refine ⟨hchunk, fun n hn => absurd hn (by simp [Start.begin]), ?_, fun h => absurd h ?_⟩
    · simp [Start.begin]
    · simp [Start.begin]
  obtain ⟨n, s, hrun, hdraining, hreturned⟩ := run_reaches
    (Start.Draining (workLeft queueFile).length) (fun s => s.head = .returned) Start.remaining
    (fun _ i hs hhead => hs.step pid hhead (found i) (hrange i)) hbegin
  have hcalls := hdraining.calls
  rw [if_pos hreturned] at hcalls
  exact ⟨n, s, hrun, hreturned, hdraining.drained hreturned,
    (Nat.le_add_right _ _).trans ((Nat.add_zero _).symm.le.trans hcalls), hdraining.sizes,
    hdraining.chunk⟩

/-- The last line has no newline, so that it is merged with the comment for the first. -/
theorem start_drains_queue_at :
    ∃ n s, run (Start.step 100 7)
        (Start.begin { myNumWorkItemsChunk := 1 } (some ['a', '\n', 'b']) none)
        ((List.range n).map fun _ => .proceed none 30) = some s ∧
      s.head = .returned ∧ workLines (s.queueFile.getD []) = [] := by
  obtain ⟨n, s, hrun, hreturned, hwork, _⟩ := start_drains_queue 100 7
    { myNumWorkItemsChunk := 1 } (by decide) (some ['a', '\n', 'b']) none (fun _ => none)
    (fun _ => 30) (fun _ => by decide)
  exact ⟨n, s, hrun, hreturned, hwork⟩

end StructurePipe.Blocks
