import StructurePipe.Common.Strings
import StructurePipe.Lib.OverwrittenFile

/-!
# Taking work from the parameter queue

`RunPotentialParamsQueue` shares a text file of parameter lines with other processes.  `getWork` reads
it line by line until it has enough work or reaches the end; lines it takes come back at the end of
the file as comments with the process id, lines it skips and the part it has not read come first.
The file is rewritten in place, without truncation.

The seam that matters is the one between the unread rest and the first comment.  If the rest does
not end with a newline, its last line and the comment become one line.

* `scanned_readLoop` — what the reading loop has done when it ends, with enough fuel for every file;
* `length_lt_newContents` — the new text is longer than the old one, so no old byte survives;
* `getWork_spec` — **one call in terms of the lines of the file;**
* `getWork_leaves_no_stale_bytes` — **a rewrite leaves exactly the new text;**
* `getWork_keeps_lines_iff` — **exactly when no line is lost, altered or duplicated.**
-/

namespace StructurePipe.Blocks

open TextLines OverwrittenFile

abbrev Params := List Str

structure RunPotentialParamsQueue where
  myCurrentParams : Params := []
  myParamsQueue : List Params := []
  myDoneParams : List Params := []
  myNumWorkItemsChunk : ℕ := 20
deriving DecidableEq, Repr

namespace RunPotentialParamsQueue

/-- `boost::split` at blanks and tabs: adjacent separators give empty pieces, and there is always a
result. -/
def readParams (paramsLine : Str) : Option Params :=
  some (paramsLine.splitOnP fun c => c == ' ' || c == '\t')

/-- A line with parameters: not empty and not a comment. -/
def isWork (line : Str) : Bool := !line.isEmpty && line.head? != some '#'

def isComment (line : Str) : Bool := line.head? == some '#'

/-- The comment a taken line is replaced by. -/
def tag (pid : ℕ) (line : Str) : Str := '#' :: (decimal pid ++ ' ' :: line)

/-- The local variables of `getWork`, with the queue it pushes to.  `queueStream` is the part of the
file that has not been read. -/
structure Scan where
  queueStream : Str
  takenWorkItems : Str
  originalContents : Str
  numParamsRead : ℕ
  myParamsQueue : List Params
deriving DecidableEq, Repr

namespace Scan

def take (s : Scan) (pid : ℕ) (line : Str) (params : Params) : Scan :=
  { s with
    numParamsRead := s.numParamsRead + 1
    myParamsQueue := s.myParamsQueue ++ [params]
    takenWorkItems := s.takenWorkItems ++ (tag pid line ++ ['\n']) }

def skip (s : Scan) (line : Str) : Scan :=
  { s with originalContents := s.originalContents ++ (line ++ ['\n']) }

def unread (s : Scan) (rest : Str) : Scan := { s with queueStream := rest }

/-- The body of the loop. -/
def readLine (s : Scan) (pid : ℕ) (line : Str) : Scan :=
  if isWork line then
    match readParams line with
    | some params => s.take pid line params
    | none => s.skip line
  else s.skip line

/-- The loop of `getWork`.  Every round reads a line, so the length of the file is enough fuel. -/
def readLoop (pid chunk : ℕ) : ℕ → Scan → Scan
  | 0, s => s
  | fuel + 1, s =>
      if s.numParamsRead < chunk then
        match getLine '\n' s.queueStream with
        | none => s
        | some (line, rest) => readLoop pid chunk fuel ((s.unread rest).readLine pid line)
      else s

/-- What the file is rewritten with: the skipped lines, the unread rest, the taken lines. -/
def newContents (s : Scan) : Str := s.originalContents ++ s.queueStream ++ s.takenWorkItems

end Scan

/-- `getWork` of a process on a queue file that may not exist. -/
def getWork (b : RunPotentialParamsQueue) (pid : ℕ) (queueFile : Option Str) :
    Bool × RunPotentialParamsQueue × Option Str :=
  match queueFile with
  | none => (false, b, none)
  | some content =>
      let s := Scan.readLoop pid b.myNumWorkItemsChunk content.length
        ⟨content, [], [], 0, b.myParamsQueue⟩
      (decide (0 < s.numParamsRead), { b with myParamsQueue := s.myParamsQueue },
        some (if 0 < s.numParamsRead then overwrite ' ' content 0 s.newContents else content))

/-- One round of the inner loop of `start`: run the first parameter set and remember it as done. -/
def runFront (b : RunPotentialParamsQueue) : RunPotentialParamsQueue :=
  match b.myParamsQueue with
  | [] => b
  | params :: rest =>
      { b with
        myCurrentParams := params
        myDoneParams := b.myDoneParams ++ [params]
        myParamsQueue := rest }

/-- The work lines of a text. -/
def workLines (content : Str) : List Str := (lines '\n' content).filter isWork

/-- The comments of a text. -/
def commentLines (content : Str) : List Str := (lines '\n' content).filter isComment

/-! ### What the loop reads -/

/-- The pieces of a line. -/
def pieces (line : Str) : Params := line.splitOnP fun c => c == ' ' || c == '\t'

@[simp] theorem readParams_eq (line : Str) : readParams line = some (pieces line) := rfl

@[simp] theorem queueStream_readLine (s : Scan) (pid : ℕ) (line : Str) :
    (s.readLine pid line).queueStream = s.queueStream := by
  rw [Scan.readLine, readParams_eq]
  split <;> rfl

/-- The loop started with the queue `queue` at the start of `content` and has read the lines `seen`. -/
structure Scanned (pid : ℕ) (queue : List Params) (content : Str) (seen : List Str) (s : Scan) :
    Prop where
  lines_eq : lines '\n' content = seen ++ lines '\n' s.queueStream
  original : s.originalContents = unlines '\n' (seen.filter fun l => !isWork l)
  taken : s.takenWorkItems = unlines '\n' ((seen.filter isWork).map (tag pid))
  count : s.numParamsRead = (seen.filter isWork).length
  pushed : s.myParamsQueue = queue ++ (seen.filter isWork).map pieces
  text : content = unlines '\n' seen ++ s.queueStream ∨
    s.queueStream = [] ∧ content ++ ['\n'] = unlines '\n' seen

theorem scanned_start (pid : ℕ) (queue : List Params) (content : Str) :
    Scanned pid queue content [] ⟨content, [], [], 0, queue⟩ :=
  ⟨rfl, rfl, rfl, rfl, by simp, Or.inl rfl⟩

/-- The text of the lines read so far, after one more: the rest follows, or the last line had no
newline. -/
theorem Scanned.text_unread {pid : ℕ} {queue : List Params} {content : Str} {seen : List Str}
    {s : Scan} (h : Scanned pid queue content seen s) {line rest : Str}
    (hline : getLine '\n' s.queueStream = some (line, rest)) :
    content = unlines '\n' (seen ++ [line]) ++ rest ∨
      rest = [] ∧ content ++ ['\n'] = unlines '\n' (seen ++ [line]) := by
  obtain ⟨_, _, hsplit⟩ := getLine_eq_some '\n' hline
  have hne : s.queueStream ≠ [] := by
    intro hnil
    rw [hnil] at hline
    simp at hline
  have hcontent := h.text.resolve_right fun hnil => hne hnil.1
  rw [unlines_append, unlines_cons]
  rcases hsplit with hsplit | ⟨hsplit, hnil, _⟩
  · left
    rw [hcontent, hsplit]
    simp [unlines]
  · right
    refine ⟨hnil, ?_⟩
    rw [hcontent, hsplit]
    simp [unlines]

/-- **One round.** -/
theorem Scanned.readLine {pid : ℕ} {queue : List Params} {content : Str} {seen : List Str}
    {s : Scan} (h : Scanned pid queue content seen s) {line rest : Str}
    (hline : getLine '\n' s.queueStream = some (line, rest)) :
    Scanned pid queue content (seen ++ [line]) ((s.unread rest).readLine pid line) := by
  obtain ⟨hlines, _, _⟩ := getLine_eq_some '\n' hline
  have hrest : ((s.unread rest).readLine pid line).queueStream = rest := queueStream_readLine _ _ _
  have htext := h.text_unread hline
  by_cases hwork : isWork line
  · have heq : (s.unread rest).readLine pid line = (s.unread rest).take pid line (pieces line) := by
      rw [Scan.readLine, if_pos hwork, readParams_eq]
    rw [heq] at hrest ⊢
    refine ⟨?_, ?_, ?_, ?_, ?_, by rwa [hrest]⟩
    · rw [hrest, h.lines_eq, hlines, List.append_assoc, List.singleton_append]
    · show s.originalContents = _
      simp [h.original, hwork]
    · show s.takenWorkItems ++ (tag pid line ++ ['\n']) = _
      rw [h.taken]
      simp [hwork, unlines]
    · show s.numParamsRead + 1 = _
      rw [h.count]
      simp [hwork]
    · show s.myParamsQueue ++ [pieces line] = _
      rw [h.pushed]
      simp [hwork]
  · have heq : (s.unread rest).readLine pid line = (s.unread rest).skip line := by
      rw [Scan.readLine, if_neg hwork]
    rw [heq] at hrest ⊢
    refine ⟨?_, ?_, ?_, ?_, ?_, by rwa [hrest]⟩
    · rw [hrest, h.lines_eq, hlines, List.append_assoc, List.singleton_append]
    · show s.originalContents ++ (line ++ ['\n']) = _
      rw [h.original]
      simp [hwork, unlines]
    · show s.takenWorkItems = _
      simp [h.taken, hwork]
    · show s.numParamsRead = _
      simp [h.count, hwork]
    · show s.myParamsQueue = _
      simp [h.pushed, hwork]

/-- With an empty chunk nothing is read. -/
theorem readLoop_zero (pid fuel : ℕ) (s : Scan) : s.readLoop pid 0 fuel = s := by
  cases fuel with
  | zero => rfl
  | succ fuel => rw [Scan.readLoop, if_neg (Nat.not_lt_zero _)]

/-- **The whole loop.**  It ends with the chunk full or the file read, and every line was read while
the chunk was not full. -/
theorem scanned_readLoop {pid chunk : ℕ} {queue : List Params} {content : Str} (fuel : ℕ)
    {seen : List Str} {s : Scan} (h : Scanned pid queue content seen s)
    (hearly : (seen.dropLast.filter isWork).length < chunk) (hcount : s.numParamsRead ≤ chunk)
    (hfuel : s.queueStream.length ≤ fuel) :
    ∃ seen', Scanned pid queue content seen' (s.readLoop pid chunk fuel) ∧
      (seen'.dropLast.filter isWork).length < chunk ∧
      (s.readLoop pid chunk fuel).numParamsRead ≤ chunk ∧
      ((s.readLoop pid chunk fuel).queueStream = [] ∨
        (s.readLoop pid chunk fuel).numParamsRead = chunk) := by
  induction fuel generalizing seen s with
  | zero =>
      exact ⟨seen, h, hearly, hcount, Or.inl (List.length_eq_zero_iff.mp (Nat.le_zero.mp hfuel))⟩
  | succ fuel ih =>
      rw [Scan.readLoop]
      split
      · next hlt =>
          cases hline : getLine '\n' s.queueStream with
          | none =>
              exact ⟨seen, h, hearly, hcount, Or.inl ((getLine_eq_none_iff '\n' _).mp hline)⟩
          | some lr =>
              obtain ⟨line, rest⟩ := lr
              have hnext := h.readLine hline
              refine ih hnext ?_ ?_ ?_
              · rw [List.dropLast_concat, ← h.count]
                exact hlt
              · rw [hnext.count, List.filter_append, List.length_append, ← h.count]
                have : ([line].filter isWork).length ≤ 1 := List.length_filter_le _ _
                omega
              · rw [queueStream_readLine]
                have hshorter : rest.length < s.queueStream.length := getLine_length_lt '\n' hline
                exact Nat.le_of_lt_succ (hshorter.trans_le hfuel)
      · next hge => exact ⟨seen, h, hearly, hcount, Or.inr (by omega)⟩

/-! ### One call -/

theorem not_isComment_of_isWork {line : Str} (h : isWork line) : ¬ isComment line := by
  simp only [isWork, isComment, Bool.and_eq_true] at h ⊢
  simpa using h.2

theorem isWork_or_isComment {line : Str} (h : line ≠ []) : isWork line ∨ isComment line := by
  cases line with
  | nil => exact absurd rfl h
  | cons c line =>
      by_cases hc : c = '#'
      · exact Or.inr (by simp [isComment, hc])
      · exact Or.inl (by simp [isWork, hc])

/-- The kind of a line is in its first character. -/
theorem isWork_append_of_ne_nil {line : Str} (more : Str) (h : line ≠ []) :
    isWork (line ++ more) = isWork line := by
  cases line with
  | nil => exact absurd rfl h
  | cons c line => rfl

theorem isComment_append_of_ne_nil {line : Str} (more : Str) (h : line ≠ []) :
    isComment (line ++ more) = isComment line := by
  cases line with
  | nil => exact absurd rfl h
  | cons c line => rfl

theorem isComment_tag (pid : ℕ) (line : Str) : isComment (tag pid line) := by simp [isComment, tag]

theorem not_isWork_tag (pid : ℕ) (line : Str) : ¬ isWork (tag pid line) := by simp [isWork, tag]

theorem newline_notMem_tag (pid : ℕ) {line : Str} (h : '\n' ∉ line) : '\n' ∉ tag pid line := by
  simp [tag, newline_notMem_decimal, h]

theorem filter_isWork_tags (pid : ℕ) (ls : List Str) : (ls.map (tag pid)).filter isWork = [] := by
  rw [List.filter_eq_nil_iff]
  intro l hl
  obtain ⟨l', _, rfl⟩ := List.mem_map.mp hl
  exact not_isWork_tag pid l'

theorem filter_isComment_tags (pid : ℕ) (ls : List Str) :
    (ls.map (tag pid)).filter isComment = ls.map (tag pid) := by
  rw [List.filter_eq_self]
  intro l hl
  obtain ⟨l', _, rfl⟩ := List.mem_map.mp hl
  exact isComment_tag pid l'

theorem filter_isWork_skipped (ls : List Str) :
    (ls.filter fun l => !isWork l).filter isWork = [] := by
  rw [List.filter_filter]
  simp

/-- What a call with a chunk size of at least one has seen when it stops reading. -/
structure Read (pid : ℕ) (b : RunPotentialParamsQueue) (content : Str) (seen : List Str)
    (s : Scan) : Prop extends Scanned pid b.myParamsQueue content seen s where
  early : (seen.dropLast.filter isWork).length < b.myNumWorkItemsChunk
  count_le : s.numParamsRead ≤ b.myNumWorkItemsChunk
  done : s.queueStream = [] ∨ s.numParamsRead = b.myNumWorkItemsChunk

theorem exists_read (pid : ℕ) (b : RunPotentialParamsQueue) (content : Str)
    (hchunk : 0 < b.myNumWorkItemsChunk) :
    ∃ seen, Read pid b content seen (Scan.readLoop pid b.myNumWorkItemsChunk content.length
      ⟨content, [], [], 0, b.myParamsQueue⟩) := by
  obtain ⟨seen, hscan, hearly, hle, hdone⟩ := scanned_readLoop content.length
    (scanned_start pid b.myParamsQueue content) hchunk (Nat.zero_le b.myNumWorkItemsChunk) le_rfl
  exact ⟨seen, hscan, hearly, hle, hdone⟩

namespace Read

variable {pid : ℕ} {b : RunPotentialParamsQueue} {content : Str} {seen : List Str} {s : Scan}

theorem workLines_eq (h : Read pid b content seen s) :
    workLines content = seen.filter isWork ++ (lines '\n' s.queueStream).filter isWork := by
  rw [workLines, h.lines_eq, List.filter_append]

/-- The lines taken are the first work lines of the file. -/
theorem taken_eq (h : Read pid b content seen s) :
    seen.filter isWork = (workLines content).take b.myNumWorkItemsChunk := by
  have hle := h.count_le
  rw [h.count] at hle
  rw [h.workLines_eq]
  rcases h.done with hnil | hfull
  · rw [hnil, lines_nil, List.filter_nil, List.append_nil, List.take_of_length_le hle]
  · rw [h.count] at hfull
    rw [← hfull, List.take_left]

/-- The work lines of the unread rest are the others. -/
theorem left_eq (h : Read pid b content seen s) :
    (lines '\n' s.queueStream).filter isWork = (workLines content).drop b.myNumWorkItemsChunk := by
  have hle := h.count_le
  rw [h.count] at hle
  rw [h.workLines_eq]
  rcases h.done with hnil | hfull
  · rw [hnil, lines_nil, List.filter_nil, List.append_nil, List.drop_eq_nil_of_le hle]
  · rw [h.count] at hfull
    rw [← hfull, List.drop_left]

theorem commentLines_eq (h : Read pid b content seen s) :
    commentLines content
      = (seen.filter fun l => !isWork l).filter isComment
        ++ (lines '\n' s.queueStream).filter isComment := by
  have hseen : (seen.filter fun l => !isWork l).filter isComment = seen.filter isComment := by
    rw [List.filter_filter]
    refine List.filter_congr fun l _ => ?_
    by_cases hw : isWork l
    · simp [hw, not_isComment_of_isWork hw]
    · simp [hw]
  rw [commentLines, h.lines_eq, List.filter_append, hseen]

theorem newContents_eq (h : Read pid b content seen s) :
    s.newContents = unlines '\n' (seen.filter fun l => !isWork l) ++ s.queueStream
      ++ unlines '\n' ((seen.filter isWork).map (tag pid)) := by
  rw [Scan.newContents, h.original, h.taken]

theorem length_tag (pid : ℕ) (line : Str) :
    (tag pid line).length = line.length + ((decimal pid).length + 2) := by
  simp only [tag, List.length_cons, List.length_append]
  omega

/-- Each line that is taken comes back longer by the process id and two characters. -/
theorem length_rewritten (pid : ℕ) (ls : List Str) :
    (unlines '\n' (ls.filter fun l => !isWork l)).length
        + (unlines '\n' ((ls.filter isWork).map (tag pid))).length
      = (unlines '\n' ls).length + (ls.filter isWork).length * ((decimal pid).length + 2) := by
  induction ls with
  | nil => simp [unlines]
  | cons l ls ih =>
      by_cases hw : isWork l
      · rw [List.filter_cons_of_neg (by simp [hw]), List.filter_cons_of_pos hw, List.map_cons,
          unlines_cons, unlines_cons]
        simp only [List.length_append, List.length_cons, length_tag, Nat.add_mul, Nat.one_mul]
          at ih ⊢
        omega
      · rw [List.filter_cons_of_pos (by simp [hw]), List.filter_cons_of_neg hw, unlines_cons,
          unlines_cons]
        simp only [List.length_append, List.length_cons]
        omega

/-- **The rewritten text is longer than the file**, if anything was taken. -/
theorem length_lt_newContents (h : Read pid b content seen s) (htaken : seen.filter isWork ≠ []) :
    content.length < s.newContents.length := by
  have hlength := length_rewritten pid seen
  have hgrown : 2 ≤ (seen.filter isWork).length * ((decimal pid).length + 2) := by
    have hpos : 1 ≤ (seen.filter isWork).length := List.length_pos_iff.mpr htaken
    exact (Nat.le_add_left 2 _).trans (Nat.le_mul_of_pos_left _ hpos)
  rw [h.newContents_eq]
  rcases h.text with heq | ⟨hnil, heq⟩
  · rw [heq]
    simp only [List.length_append]
    omega
  · have hlen := congrArg List.length heq
    rw [hnil]
    simp only [List.length_append, List.length_singleton, List.length_nil] at hlen ⊢
    omega

/-- The unread rest ends with a newline exactly when the file does, or when the reading went to the
end: that is, when the work lines before the last line do not fill the chunk. -/
theorem terminated_iff (h : Read pid b content seen s) :
    Terminated '\n' s.queueStream ↔ Terminated '\n' content ∨
      (((lines '\n' content).dropLast).filter isWork).length < b.myNumWorkItemsChunk := by
  rcases eq_or_ne s.queueStream [] with hnil | hne
  · have hseen : lines '\n' content = seen := by rw [h.lines_eq, hnil, lines_nil, List.append_nil]
    exact ⟨fun _ => Or.inr (hseen ▸ h.early), fun _ => Or.inl hnil⟩
  · have hfull := h.done.resolve_left hne
    have htext := h.text.resolve_right fun hnil => hne hnil.1
    have hlines : lines '\n' s.queueStream ≠ [] := by rwa [Ne, lines_eq_nil_iff]
    have hmany : b.myNumWorkItemsChunk
        ≤ (((lines '\n' content).dropLast).filter isWork).length := by
      rw [h.lines_eq, List.dropLast_append_of_ne_nil hlines, List.filter_append,
        List.length_append, ← hfull, h.count]
      exact Nat.le_add_right _ _
    constructor
    · intro hterm
      left
      rw [htext]
      exact (terminated_unlines '\n' seen).append '\n' hterm
    · rintro (hterm | hlt)
      · rw [htext] at hterm
        exact hterm.of_append
      · omega

theorem newline_notMem_seen (h : Read pid b content seen s) {l : Str} (hl : l ∈ seen) :
    '\n' ∉ l :=
  notMem_of_mem_lines '\n' (h.lines_eq ▸ List.mem_append_left _ hl)

theorem newline_notMem_skipped (h : Read pid b content seen s) :
    ∀ l ∈ seen.filter (fun l => !isWork l), '\n' ∉ l :=
  fun _ hl => h.newline_notMem_seen (List.mem_filter.mp hl).1

theorem newline_notMem_tags (h : Read pid b content seen s) :
    ∀ l ∈ (seen.filter isWork).map (tag pid), '\n' ∉ l := by
  intro l hl
  obtain ⟨l', hl', rfl⟩ := List.mem_map.mp hl
  exact newline_notMem_tag pid (h.newline_notMem_seen (List.mem_filter.mp hl').1)

/-- **The seam holds.**  If the unread rest ends with a newline, the new file has its lines between
the skipped ones and the comments. -/
theorem lines_newContents (h : Read pid b content seen s) (hterm : Terminated '\n' s.queueStream) :
    lines '\n' s.newContents = (seen.filter fun l => !isWork l) ++ lines '\n' s.queueStream
      ++ (seen.filter isWork).map (tag pid) := by
  rw [h.newContents_eq, lines_append '\n' ((terminated_unlines '\n' _).append '\n' hterm),
    lines_append '\n' (terminated_unlines '\n' _), lines_unlines '\n' h.newline_notMem_skipped,
    lines_unlines '\n' h.newline_notMem_tags]

/-- If the unread rest does not end with a newline, its last line runs into the first comment. -/
theorem exists_merged_line (h : Read pid b content seen s)
    (hterm : ¬ Terminated '\n' s.queueStream) (htaken : seen.filter isWork ≠ []) :
    ∃ (ls : List Str) (l t : Str) (ts : List Str), l ≠ [] ∧
      lines '\n' s.queueStream = ls ++ [l] ∧ seen.filter isWork = t :: ts ∧
      lines '\n' s.newContents
        = (seen.filter fun l => !isWork l) ++ (ls ++ (l ++ tag pid t) :: ts.map (tag pid)) := by
  obtain ⟨u, l, hul, hu, hl⟩ := exists_terminated_append '\n' s.queueStream
  have hne : l ≠ [] := by
    rintro rfl
    rw [hul, List.append_nil] at hterm
    exact hterm hu
  obtain ⟨t, ts, htags⟩ := List.exists_cons_of_ne_nil htaken
  refine ⟨lines '\n' u, l, t, ts, hne, ?_, htags, ?_⟩
  · rw [hul, lines_append '\n' hu, lines_of_notMem '\n' hl hne]
  · rw [h.newContents_eq, hul, List.append_assoc, lines_append '\n' (terminated_unlines '\n' _),
      lines_unlines '\n' h.newline_notMem_skipped, List.append_assoc, lines_append '\n' hu,
      lines_append_unterminated '\n' hl hne, lines_unlines '\n' h.newline_notMem_tags, htags]
    rfl

/-- **The seam breaks.**  If the unread rest does not end with a newline, its last line runs into the
first comment, and the work lines or the comments are not what they should be. -/
theorem lines_newContents_broken (h : Read pid b content seen s)
    (hterm : ¬ Terminated '\n' s.queueStream) (htaken : seen.filter isWork ≠ []) :
    workLines s.newContents ≠ (lines '\n' s.queueStream).filter isWork ∨
      commentLines s.newContents ≠ commentLines content ++ (seen.filter isWork).map (tag pid) := by
  obtain ⟨ls, l, t, ts, hne, hold, htags, hnew⟩ := h.exists_merged_line hterm htaken
  rcases isWork_or_isComment hne with hwork | hcomment
  · left
    have hmerged : isWork (l ++ tag pid t) := by rwa [isWork_append_of_ne_nil _ hne]
    rw [workLines, hnew, hold, List.filter_append, filter_isWork_skipped, List.nil_append,
      List.filter_append, List.filter_cons_of_pos hmerged, filter_isWork_tags, List.filter_append,
      List.filter_cons_of_pos hwork, List.filter_nil]
    intro heq
    simpa [tag] using List.append_cancel_left heq
  · right
    have hmerged : isComment (l ++ tag pid t) := by rwa [isComment_append_of_ne_nil _ hne]
    intro heq
    have hlen := congrArg List.length heq
    rw [h.commentLines_eq, commentLines, hnew, hold, htags, List.filter_append, List.filter_append,
      List.filter_cons_of_pos hmerged, filter_isComment_tags, List.filter_append,
      List.filter_cons_of_pos hcomment, List.filter_nil] at hlen
    simp only [List.length_append, List.length_cons, List.length_map, List.map_cons,
      List.length_nil] at hlen
    omega

/-- **As many work lines are left as the unread rest has**, also if its last line is merged: a line
stays of its kind when something is appended to it. -/
theorem length_workLines_newContents (h : Read pid b content seen s)
    (htaken : seen.filter isWork ≠ []) :
    (workLines s.newContents).length = ((lines '\n' s.queueStream).filter isWork).length := by
  by_cases hterm : Terminated '\n' s.queueStream
  · rw [workLines, h.lines_newContents hterm, List.filter_append, List.filter_append,
      filter_isWork_skipped, filter_isWork_tags, List.nil_append, List.append_nil]
  · obtain ⟨ls, l, t, ts, hne, hold, _, hnew⟩ := h.exists_merged_line hterm htaken
    rw [workLines, hnew, hold, List.filter_append, filter_isWork_skipped, List.nil_append,
      List.filter_append, List.filter_append, List.length_append, List.length_append,
      List.filter_cons, isWork_append_of_ne_nil _ hne, filter_isWork_tags, List.filter_singleton]
    cases isWork l <;> rfl

end Read

/-- **One call.**  It takes the first lines of the chunk; if there are any, the file is the new text
and nothing of the old one. -/
theorem getWork_spec (pid : ℕ) (b : RunPotentialParamsQueue) (content : Str)
    (hchunk : 0 < b.myNumWorkItemsChunk) :
    ∃ seen s, Read pid b content seen s ∧
      b.getWork pid (some content) = (decide (seen.filter isWork ≠ []),
        { b with myParamsQueue := b.myParamsQueue
            ++ ((workLines content).take b.myNumWorkItemsChunk).map pieces },
        some (if seen.filter isWork = [] then content else s.newContents)) := by
  obtain ⟨seen, hread⟩ := exists_read pid b content hchunk
  refine ⟨seen, _, hread, ?_⟩
  have hpos : 0 < (Scan.readLoop pid b.myNumWorkItemsChunk content.length
      ⟨content, [], [], 0, b.myParamsQueue⟩).numParamsRead ↔ seen.filter isWork ≠ [] := by
    rw [hread.count, List.length_pos_iff]
  have hqueue := hread.pushed
  rw [hread.taken_eq] at hqueue
  rw [getWork]
  simp only [hpos, hqueue]
  by_cases htaken : seen.filter isWork = []
  · rw [if_neg (not_not.mpr htaken), if_pos htaken]
  · rw [if_pos htaken, if_neg htaken, (overwrite_zero_eq_iff ' ' _ _).mpr
      (hread.length_lt_newContents htaken).le]

/-- **No stale bytes.**  Whenever the file is rewritten, the lines skipped, the unread rest and the
comments for the lines taken are together longer than the old content, so that overwriting from the
start leaves exactly the new content.  The lines read and the rest make up the file, whose last line
may lack its newline. -/
theorem getWork_leaves_no_stale_bytes (pid : ℕ) (b : RunPotentialParamsQueue) (content : Str)
    (hrewritten : (b.getWork pid (some content)).1 = true) :
    ∃ (seen : List Str) (rest : Str),
      (content = unlines '\n' seen ++ rest ∨
        rest = [] ∧ content ++ ['\n'] = unlines '\n' seen) ∧
      let newContents := unlines '\n' (seen.filter fun l => !isWork l) ++ rest
        ++ unlines '\n' ((seen.filter isWork).map (tag pid))
      content.length < newContents.length ∧
        overwrite ' ' content 0 newContents = newContents ∧
        (b.getWork pid (some content)).2.2 = some newContents := by
  have hchunk : 0 < b.myNumWorkItemsChunk := by
    by_contra hzero
    have hnone : (Scan.readLoop pid b.myNumWorkItemsChunk content.length
        ⟨content, [], [], 0, b.myParamsQueue⟩).numParamsRead = 0 := by
      rw [Nat.eq_zero_of_not_pos hzero, readLoop_zero]
    simp [getWork, hnone] at hrewritten
  obtain ⟨seen, s, hread, hcall⟩ := getWork_spec pid b content hchunk
  rw [hcall] at hrewritten ⊢
  have htaken : seen.filter isWork ≠ [] := of_decide_eq_true hrewritten
  have hlonger := hread.length_lt_newContents htaken
  have hexact := (overwrite_zero_eq_iff ' ' content s.newContents).mpr hlonger.le
  refine ⟨seen, s.queueStream, hread.text, ?_⟩
  show _ < _ ∧ _ ∧ some _ = _
  rw [if_neg htaken, ← hread.newContents_eq]
  exact ⟨hlonger, hexact, rfl⟩

/-- A comment is skipped, a line is taken and the last line, which has no newline, is not read. -/
theorem getWork_leaves_no_stale_bytes_at :
    ∃ (seen : List Str) (rest : Str),
      (['#', '\n', 'a', '\n', 'b'] = unlines '\n' seen ++ rest ∨
        rest = [] ∧ ['#', '\n', 'a', '\n', 'b'] ++ ['\n'] = unlines '\n' seen) ∧
      let newContents := unlines '\n' (seen.filter fun l => !isWork l) ++ rest
        ++ unlines '\n' ((seen.filter isWork).map (tag 7))
      ['#', '\n', 'a', '\n', 'b'].length < newContents.length ∧
        overwrite ' ' ['#', '\n', 'a', '\n', 'b'] 0 newContents = newContents ∧
        (RunPotentialParamsQueue.getWork { myNumWorkItemsChunk := 1 } 7
          (some ['#', '\n', 'a', '\n', 'b'])).2.2 = some newContents :=
  getWork_leaves_no_stale_bytes 7 { myNumWorkItemsChunk := 1 } ['#', '\n', 'a', '\n', 'b']
    (by decide)

/-- **A call on a terminated file keeps every line** and leaves a terminated file.  The same holds of
any file whose unread rest ends with a newline. -/
theorem getWork_lines {pid : ℕ} {b : RunPotentialParamsQueue} {content : Str} {seen : List Str}
    {s : Scan} (h : Read pid b content seen s) (hterm : Terminated '\n' s.queueStream) :
    workLines (if seen.filter isWork = [] then content else s.newContents)
        = (workLines content).drop b.myNumWorkItemsChunk ∧
      commentLines (if seen.filter isWork = [] then content else s.newContents)
        = commentLines content
          ++ ((workLines content).take b.myNumWorkItemsChunk).map (tag pid) := by
  by_cases htaken : seen.filter isWork = []
  · rw [if_pos htaken]
    have hwork := h.workLines_eq
    rw [htaken, List.nil_append] at hwork
    refine ⟨by rw [← h.left_eq, hwork], ?_⟩
    rw [← h.taken_eq, htaken, List.map_nil, List.append_nil]
  · rw [if_neg htaken]
    have hlines := h.lines_newContents hterm
    constructor
    · rw [workLines, hlines, List.filter_append, List.filter_append, filter_isWork_skipped,
        filter_isWork_tags, List.nil_append, List.append_nil, h.left_eq]
    · rw [commentLines, hlines, List.filter_append, List.filter_append, filter_isComment_tags,
        ← h.commentLines_eq, ← h.taken_eq]

/-- What a call should do with the lines of the file: push the first lines of the chunk, leave the
others, and add one comment for each line it takes. -/
def KeepsLines (pid : ℕ) (b : RunPotentialParamsQueue) (content : Str) : Prop :=
  let n := b.myNumWorkItemsChunk
  let (_, b', queueFile) := b.getWork pid (some content)
  b'.myParamsQueue = b.myParamsQueue ++ ((workLines content).take n).map pieces ∧
    workLines (queueFile.getD []) = (workLines content).drop n ∧
    (0 < min n (workLines content).length → commentLines (queueFile.getD [])
      = commentLines content ++ ((workLines content).take n).map (tag pid))

/-- **When no line is lost, altered or duplicated.**  Exactly if the file is empty or ends with a
newline, or if the work lines before its last line are fewer than the chunk, so that the reading
goes to the end. -/
theorem getWork_keeps_lines_iff (pid : ℕ) (b : RunPotentialParamsQueue) (content : Str)
    (hchunk : 1 ≤ b.myNumWorkItemsChunk) :
    KeepsLines pid b content ↔ (content = [] ∨ content.getLast? = some '\n') ∨
      (((lines '\n' content).dropLast).filter isWork).length < b.myNumWorkItemsChunk := by
  obtain ⟨seen, s, hread, hcall⟩ := getWork_spec pid b content hchunk
  rw [KeepsLines, hcall]
  refine Iff.trans ?_ hread.terminated_iff
  constructor
  · rintro ⟨_, hwork, hcomment⟩
    by_contra hterm
    have htaken : seen.filter isWork ≠ [] := by
      intro hnil
      have hcount := hread.count
      rw [hnil, List.length_nil] at hcount
      exact hterm (Or.inl (hread.done.resolve_right (by omega)))
    have hpos : 0 < min b.myNumWorkItemsChunk (workLines content).length := by
      have := List.length_pos_iff.mpr htaken
      rwa [hread.taken_eq, List.length_take] at this
    rw [if_neg htaken, Option.getD_some] at hwork hcomment
    rcases hread.lines_newContents_broken hterm htaken with hbad | hbad
    · exact hbad (hwork.trans hread.left_eq.symm)
    · rw [hread.taken_eq] at hbad
      exact hbad (hcomment hpos)
  · intro hterm
    obtain ⟨hwork, hcomment⟩ := getWork_lines hread hterm
    exact ⟨rfl, hwork, fun _ => hcomment⟩

/-- A file that ends with a newline, with an empty line and a comment, read in part. -/
theorem getWork_keeps_lines_iff_at :
    KeepsLines 7 { myNumWorkItemsChunk := 1 } ['a', '\n', '\n', '#', 'c', '\n', 'b', '\n'] :=
  (getWork_keeps_lines_iff 7 { myNumWorkItemsChunk := 1 }
    ['a', '\n', '\n', '#', 'c', '\n', 'b', '\n'] (by decide)).mpr (Or.inl (Or.inr rfl))

/-- **A last line without a newline is merged with a comment.**  The work line `b` is not taken, and
is no longer in the file either. -/
theorem getWork_merges_last_line :
    RunPotentialParamsQueue.getWork { myNumWorkItemsChunk := 1 } 7 (some ['a', '\n', 'b'])
        = (true, { myNumWorkItemsChunk := 1, myParamsQueue := [[['a']]] },
            some ['b', '#', '7', ' ', 'a', '\n']) ∧
      ¬ KeepsLines 7 { myNumWorkItemsChunk := 1 } ['a', '\n', 'b'] := by
  have hcall : RunPotentialParamsQueue.getWork { myNumWorkItemsChunk := 1 } 7
      (some ['a', '\n', 'b']) = (true, { myNumWorkItemsChunk := 1, myParamsQueue := [[['a']]] },
        some ['b', '#', '7', ' ', 'a', '\n']) := by
    decide
  refine ⟨hcall, ?_⟩
  rw [KeepsLines, hcall]
  rintro ⟨_, hwork, _⟩
  exact absurd hwork (by decide)

end RunPotentialParamsQueue

end StructurePipe.Blocks
