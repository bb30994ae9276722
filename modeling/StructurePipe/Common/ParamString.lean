import StructurePipe.Common.LexicalCast
import StructurePipe.Lib.Delimited
import StructurePipe.Lib.Substrings

/-!
# Parameter strings

A parameter is written `f`, `f+g` or `f+g*n`: a value, a value and a step, or these and a number of
steps.  `parseParamString` cuts a string at its first `+` and its first `*`, wherever they are, and
reads the pieces.

The cut is the notation only as long as the numbers have neither character in them.  A sign or an
exponent, as in `+1` or `1e+5`, is taken for the separator.  Besides, the count is read as an unsigned
number, which may have a sign, and one is added to it in 32 bits.

* `cut_cases` — the four ways a string is cut;
* `text_cut` — pieces that are accepted are those of the notation;
* `readPieces_eq_ok_iff`, `parseParamString_cases` — what the parser returns;
* `digits_of_denotes` — if a string has a meaning, its count is read right;
* `parseParamString_exact_iff` — **exactly which strings are treated as the notation says.**
-/

namespace StructurePipe.Common

open Delimited Substrings

/-- A value, a step and a number of points. -/
structure StepRange (δ : Type*) where
  from_ : δ
  step : δ
  nSteps : ℕ
deriving DecidableEq, Repr

/-- The pieces of a parameter string. -/
inductive Pieces where
  | value (f : Str)
  | step (f g : Str)
  | count (f g n : Str)
deriving DecidableEq, Repr

/-! ### The cut -/

/-- `plusEnd - plusPos`.  Without a `*` this is `npos` minus a position; with a `*` in front of the `+`
the difference wraps around.  Both are larger than any string is long. -/
def stepLength (plusPos : ℕ) (timesPos : Option ℕ) : Option ℕ :=
  match timesPos with
  | none => none
  | some timesPos => if plusPos < timesPos then some (timesPos - 1 - plusPos) else none

/-- The pieces that both parsers of parameter strings read. -/
def cut (str : Str) : Pieces :=
  let plusPos := find '+' str
  let timesPos := find '*' str
  match plusPos with
  | none => .value (substr str 0 plusPos)
  | some plus =>
      match timesPos with
      | none => .step (substr str 0 plusPos) (substr str (plus + 1) (stepLength plus timesPos))
      | some times =>
          .count (substr str 0 plusPos) (substr str (plus + 1) (stepLength plus timesPos))
            (substr str (times + 1) none)

/-- Without a `+` the string is one piece. -/
theorem cut_value {s : Str} (hs : '+' ∉ s) : cut s = .value s := by
  simp [cut, find_eq_none hs, substr]

theorem cut_step {f g : Str} (hf : '+' ∉ f) (hstar : '*' ∉ f ++ '+' :: g) :
    cut (f ++ '+' :: g) = .step f g := by
  simp only [cut, find_append_cons hf, find_eq_none hstar, stepLength, substr_front, substr_behind]

theorem cut_count {f g : Str} (n : Str) (hf : '+' ∉ f) (hstar : '*' ∉ f ++ '+' :: g) :
    cut (f ++ '+' :: (g ++ '*' :: n)) = .count f g n := by
  have heq : f ++ '+' :: (g ++ '*' :: n) = (f ++ '+' :: g) ++ '*' :: n := by simp
  have htimes : find '*' (f ++ '+' :: (g ++ '*' :: n)) = some (f ++ '+' :: g).length := by
    rw [heq, find_append_cons hstar]
  have hn : substr (f ++ '+' :: (g ++ '*' :: n)) ((f ++ '+' :: g).length + 1) none = n := by
    rw [heq, substr_behind]
  have hlength : f.length < (f ++ '+' :: g).length := by simp
  have hstep : (f ++ '+' :: g).length - 1 - f.length = g.length := by simp
  simp only [cut, find_append_cons hf, htimes, stepLength, if_pos hlength, hstep, hn, substr_front,
    substr_between]

/-- With a `*` in front of the `+` the pieces overlap. -/
theorem cut_overlap {a b : Str} (g : Str) (ha : '*' ∉ a) (hplus : '+' ∉ a ++ '*' :: b) :
    cut (a ++ '*' :: (b ++ '+' :: g)) = .count (a ++ '*' :: b) g (b ++ '+' :: g) := by
  have heq : a ++ '*' :: (b ++ '+' :: g) = (a ++ '*' :: b) ++ '+' :: g := by simp
  have hfind : find '+' (a ++ '*' :: (b ++ '+' :: g)) = some (a ++ '*' :: b).length := by
    rw [heq, find_append_cons hplus]
  have hf : substr (a ++ '*' :: (b ++ '+' :: g)) 0 (some (a ++ '*' :: b).length)
      = a ++ '*' :: b := by
    rw [heq, substr_front]
  have hg : substr (a ++ '*' :: (b ++ '+' :: g)) ((a ++ '*' :: b).length + 1) none = g := by
    rw [heq, substr_behind]
  have hlength : ¬ (a ++ '*' :: b).length < a.length := by simp
  simp only [cut, hfind, find_append_cons ha, stepLength, if_neg hlength, hf, hg, substr_behind]

/-- **The four ways a string is cut.** -/
theorem cut_cases (s : Str) :
    ('+' ∉ s ∧ cut s = .value s) ∨
    (∃ f g, s = f ++ '+' :: g ∧ '*' ∉ s ∧ cut s = .step f g) ∨
    (∃ f g n, s = f ++ '+' :: (g ++ '*' :: n) ∧ '*' ∉ f ++ '+' :: g ∧ cut s = .count f g n) ∨
    ∃ a b g, s = a ++ '*' :: (b ++ '+' :: g) ∧ '*' ∉ a ∧
      cut s = .count (a ++ '*' :: b) g (b ++ '+' :: g) := by
  by_cases hplus : '+' ∈ s
  · right
    obtain ⟨f, g, rfl, hf⟩ := List.eq_append_cons_of_mem hplus
    by_cases hleft : '*' ∈ f
    · -- the first `*` is in front of the first `+`
      obtain ⟨a, b, rfl, ha⟩ := List.eq_append_cons_of_mem hleft
      refine Or.inr (Or.inr ⟨a, b, g, by simp, ha, ?_⟩)
      rw [← cut_overlap g ha hf]
      simp
    · by_cases hright : '*' ∈ g
      · obtain ⟨g, n, rfl, hg⟩ := List.eq_append_cons_of_mem hright
        have hstar : '*' ∉ f ++ '+' :: g := by simp [hleft, hg]
        exact Or.inr (Or.inl ⟨f, g, n, rfl, hstar, cut_count n hf hstar⟩)
      · have hstar : '*' ∉ f ++ '+' :: g := by simp [hleft, hright]
        exact Or.inl ⟨f, g, rfl, hstar, cut_step hf hstar⟩
  · exact Or.inl ⟨hplus, cut_value hplus⟩

/-! ### The parser -/

section Parser

variable {δ : Type} (lexicalCast : DoubleCast δ)

/-- The first two `try` blocks. -/
def readDouble (sub : Str) : Except Str δ :=
  match lexicalCast.cast sub with
  | some value => .ok value
  | none => .error ("Could not parse ".toList ++ sub ++ " as double".toList)

/-- The third `try` block. -/
def readCount (sub : Str) : Except Str ℕ :=
  match lexicalCastUnsigned sub with
  | some value => .ok ((value + 1) % 2 ^ 32)
  | none => .error ("Could not parse ".toList ++ sub ++ " as unsigned integer".toList)

/-- The temporaries, read one after the other, or the text of the exception. -/
def readPieces : Pieces → Except Str (StepRange δ)
  | .value f => do
      let lFrom ← readDouble lexicalCast f
      return ⟨lFrom, lexicalCast.zero, 1⟩
  | .step f g => do
      let lFrom ← readDouble lexicalCast f
      let lStep ← readDouble lexicalCast g
      return ⟨lFrom, lStep, 2⟩
  | .count f g n => do
      let lFrom ← readDouble lexicalCast f
      let lStep ← readDouble lexicalCast g
      let lNSteps ← readCount n
      return ⟨lFrom, lStep, lNSteps⟩

/-- `common::parseParamString`: the text of the exception, if one is thrown, and the output variables
after the call. -/
def parseParamString (str : Str) (out : StepRange δ) : Option Str × StepRange δ :=
  if str.isEmpty then (some "Cannot get parameters from empty string".toList, out)
  else
    match readPieces lexicalCast (cut str) with
    | .error what => (some what, out)
    | .ok temporaries => (none, temporaries)

end Parser

/-! ### The notation -/

section Notation

variable {δ : Type} (lexicalCast : DoubleCast δ)

namespace Pieces

/-- The string with these pieces. -/
def text : Pieces → Str
  | value f => f
  | step f g => f ++ '+' :: g
  | count f g n => f ++ '+' :: (g ++ '*' :: n)

/-- What pieces stand for: the numbers are those that are cast to a `double`, the count is a decimal
number of 32 bits, and there is one point more than steps. -/
def Means : Pieces → StepRange δ → Prop
  | value f, r => lexicalCast.cast f = some r.from_ ∧ r.step = lexicalCast.zero ∧ r.nSteps = 1
  | step f g, r => lexicalCast.cast f = some r.from_ ∧ lexicalCast.cast g = some r.step ∧
      r.nSteps = 2
  | count f g n, r => lexicalCast.cast f = some r.from_ ∧ lexicalCast.cast g = some r.step ∧
      ∃ k, digitsValue n = some k ∧ k < 2 ^ 32 ∧ r.nSteps = k + 1

/-- Every piece is accepted by the cast it is for. -/
def AcceptedBy {ν : Type} (castCount : Str → Option ν) : Pieces → Prop
  | value f => (lexicalCast.cast f).isSome
  | step f g => (lexicalCast.cast f).isSome ∧ (lexicalCast.cast g).isSome
  | count f g n => (lexicalCast.cast f).isSome ∧ (lexicalCast.cast g).isSome ∧
      (castCount n).isSome

/-- What a parser makes of pieces: two numbers, and a count that is fixed without a step and without
a count of its own. -/
def ReadsAs {ν : Type} (castCount : Str → Option ν) (noStep oneStep : ν) : Pieces → δ → δ → ν → Prop
  | value f, a, b, k => lexicalCast.cast f = some a ∧ b = lexicalCast.zero ∧ k = noStep
  | step f g, a, b, k => lexicalCast.cast f = some a ∧ lexicalCast.cast g = some b ∧ k = oneStep
  | count f g n, a, b, k => lexicalCast.cast f = some a ∧ lexicalCast.cast g = some b ∧
      castCount n = some k

end Pieces

/-- A string stands for what its pieces stand for, however it is taken apart. -/
def Denotes (s : Str) (r : StepRange δ) : Prop := ∃ p : Pieces, p.text = s ∧ p.Means lexicalCast r

/-! ### What the parser returns -/

theorem acceptedBy_iff {ν : Type} (castCount : Str → Option ν) (noStep oneStep : ν) {p : Pieces} :
    p.AcceptedBy lexicalCast castCount ↔
      ∃ a b k, p.ReadsAs lexicalCast castCount noStep oneStep a b k := by
  cases p with
  | value f =>
      simp only [Pieces.AcceptedBy, Pieces.ReadsAs, Option.isSome_iff_exists]
      constructor
      · rintro ⟨a, ha⟩
        exact ⟨a, _, _, ha, rfl, rfl⟩
      · rintro ⟨a, _, _, ha, _⟩
        exact ⟨a, ha⟩
  | step f g =>
      simp only [Pieces.AcceptedBy, Pieces.ReadsAs, Option.isSome_iff_exists]
      constructor
      · rintro ⟨⟨a, ha⟩, ⟨b, hb⟩⟩
        exact ⟨a, b, _, ha, hb, rfl⟩
      · rintro ⟨a, b, _, ha, hb, _⟩
        exact ⟨⟨a, ha⟩, ⟨b, hb⟩⟩
  | count f g n =>
      simp only [Pieces.AcceptedBy, Pieces.ReadsAs, Option.isSome_iff_exists]
      constructor
      · rintro ⟨⟨a, ha⟩, ⟨b, hb⟩, ⟨k, hk⟩⟩
        exact ⟨a, b, k, ha, hb, hk⟩
      · rintro ⟨a, b, k, ha, hb, hk⟩
        exact ⟨⟨a, ha⟩, ⟨b, hb⟩, ⟨k, hk⟩⟩

/-- The number of points for a count of steps, in 32 bits. -/
def castPoints (sub : Str) : Option ℕ := (lexicalCastUnsigned sub).map fun k => (k + 1) % 2 ^ 32

/-- What `parseParamString` accepts. -/
def Pieces.Accepted (p : Pieces) : Prop := p.AcceptedBy lexicalCast lexicalCastUnsigned

/-- What `parseParamString` makes of pieces. -/
def Pieces.ReadsTo (p : Pieces) (r : StepRange δ) : Prop :=
  p.ReadsAs lexicalCast castPoints 1 2 r.from_ r.step r.nSteps

theorem accepted_iff {p : Pieces} : p.Accepted lexicalCast ↔ ∃ r, p.ReadsTo lexicalCast r := by
  have hpoints : p.Accepted lexicalCast ↔ p.AcceptedBy lexicalCast castPoints := by
    cases p with
    | value f => exact Iff.rfl
    | step f g => exact Iff.rfl
    | count f g n => simp [Pieces.Accepted, Pieces.AcceptedBy, castPoints]
  rw [hpoints, acceptedBy_iff lexicalCast castPoints 1 2]
  constructor
  · rintro ⟨a, b, k, h⟩
    exact ⟨⟨a, b, k⟩, h⟩
  · rintro ⟨r, h⟩
    exact ⟨r.from_, r.step, r.nSteps, h⟩

theorem readDouble_eq_ok_iff {sub : Str} {value : δ} :
    readDouble lexicalCast sub = .ok value ↔ lexicalCast.cast sub = some value := by
  rw [readDouble]
  cases lexicalCast.cast sub with
  | none => simp
  | some value' => simp

theorem readCount_eq_ok_iff {sub : Str} {value : ℕ} :
    readCount sub = .ok value ↔ castPoints sub = some value := by
  rw [readCount, castPoints]
  cases lexicalCastUnsigned sub with
  | none => simp
  | some k => simp

/-- A block that went through was passed with the value it read. -/
theorem bind_eq_ok_iff {α β : Type} {x : Except Str α} {f : α → Except Str β} {b : β} :
    x >>= f = .ok b ↔ ∃ a, x = .ok a ∧ f a = .ok b := by
  cases x with
  | error what => simp [bind, Except.bind]
  | ok a => simp [bind, Except.bind]

theorem pure_eq_ok_iff {a b : StepRange δ} :
    (pure a : Except Str (StepRange δ)) = .ok b ↔ a = b := by
  simp [pure, Except.pure]

/-- **The parser on pieces.** -/
theorem readPieces_eq_ok_iff {p : Pieces} {r : StepRange δ} :
    readPieces lexicalCast p = .ok r ↔ p.ReadsTo lexicalCast r := by
  cases p with
  | value f =>
      simp only [readPieces, bind_eq_ok_iff, readDouble_eq_ok_iff, pure_eq_ok_iff, Pieces.ReadsTo,
        Pieces.ReadsAs]
      constructor
      · rintro ⟨a, ha, rfl⟩
        exact ⟨ha, rfl, rfl⟩
      · rintro ⟨ha, hstep, hcount⟩
        exact ⟨r.from_, ha, by rw [← hstep, ← hcount]⟩
  | step f g =>
      simp only [readPieces, bind_eq_ok_iff, readDouble_eq_ok_iff, pure_eq_ok_iff, Pieces.ReadsTo,
        Pieces.ReadsAs]
      constructor
      · rintro ⟨a, ha, b, hb, rfl⟩
        exact ⟨ha, hb, rfl⟩
      · rintro ⟨ha, hb, hcount⟩
        exact ⟨r.from_, ha, r.step, hb, by rw [← hcount]⟩
  | count f g n =>
      simp only [readPieces, bind_eq_ok_iff, readDouble_eq_ok_iff, readCount_eq_ok_iff,
        pure_eq_ok_iff, Pieces.ReadsTo, Pieces.ReadsAs]
      constructor
      · rintro ⟨a, ha, b, hb, count, hcount, rfl⟩
        exact ⟨ha, hb, hcount⟩
      · rintro ⟨ha, hb, hcount⟩
        exact ⟨r.from_, ha, r.step, hb, r.nSteps, hcount, rfl⟩

/-- The empty string is not accepted either; it only gets a message of its own. -/
theorem not_accepted_cut_nil : ¬ (cut []).Accepted lexicalCast := by
  rw [cut_value (by simp), Pieces.Accepted, Pieces.AcceptedBy, lexicalCast.cast_nil]
  exact Bool.false_ne_true

/-- **One call.**  It returns what it reads, or throws and leaves the output variables alone. -/
theorem parseParamString_cases (s : Str) (out : StepRange δ) :
    (∃ r, (cut s).ReadsTo lexicalCast r ∧ parseParamString lexicalCast s out = (none, r)) ∨
      ¬ (cut s).Accepted lexicalCast ∧
        ∃ what, parseParamString lexicalCast s out = (some what, out) := by
  cases s with
  | nil => exact Or.inr ⟨not_accepted_cut_nil lexicalCast, _, rfl⟩
  | cons c s =>
      rw [parseParamString, if_neg (by simp)]
      cases hread : readPieces lexicalCast (cut (c :: s)) with
      | ok r => exact Or.inl ⟨r, (readPieces_eq_ok_iff lexicalCast).mp hread, rfl⟩
      | error what =>
          refine Or.inr ⟨fun haccepted => ?_, what, rfl⟩
          obtain ⟨r, hr⟩ := (accepted_iff lexicalCast).mp haccepted
          rw [(readPieces_eq_ok_iff lexicalCast).mpr hr] at hread
          exact absurd hread (by simp)

/-! ### The cut and the notation -/

/-- A number in a string whose first `*` has no bracket behind it has no `*` in it. -/
theorem notMem_of_cast {a n u t w : Str} {value : δ} (ha : '*' ∉ a) (hn : ')' ∉ n)
    (h : a ++ '*' :: n = u ++ t ++ w) (ht : lexicalCast.cast t = some value) : '*' ∉ t := by
  intro hmem
  obtain ⟨x, y, rfl, _⟩ := List.eq_append_cons_of_mem hmem
  have hbracket := lexicalCast.paren_mem x y value ht
  have hsplit : a ++ '*' :: n = (u ++ x) ++ '*' :: (y ++ w) := by simpa using h
  exact hn (mem_behind_first ha hsplit (List.mem_append_left w hbracket))

/-- **A count that is accepted is the count of every meaning.**  No number can reach over the first
`*`, for want of a bracket behind it. -/
theorem digits_of_denotes {f g n : Str} {v : ℤ} {r : StepRange δ}
    (hstar : '*' ∉ f ++ '+' :: g) (hn : signedValue n = some v)
    (hr : Denotes lexicalCast (f ++ '+' :: (g ++ '*' :: n)) r) :
    ∃ k, digitsValue n = some k ∧ k < 2 ^ 32 ∧ r.nSteps = k + 1 := by
  have hbracket : ')' ∉ n := notMem_of_signedValue hn (by decide) (by decide) (by decide)
  have hsplit : f ++ '+' :: (g ++ '*' :: n) = (f ++ '+' :: g) ++ '*' :: n := by simp
  have hmem : '*' ∈ (f ++ '+' :: g) ++ '*' :: n := by simp
  obtain ⟨p, htext, hmeans⟩ := hr
  rw [hsplit] at htext
  cases p with
  | value f' =>
      have hno := notMem_of_cast lexicalCast (u := []) (w := []) hstar hbracket
        (by simpa [Pieces.text] using htext.symm) hmeans.1
      rw [← htext] at hmem
      exact absurd hmem hno
  | step f' g' =>
      have hleft := notMem_of_cast lexicalCast (u := []) (w := '+' :: g') hstar hbracket
        (by simpa [Pieces.text] using htext.symm) hmeans.1
      have hright := notMem_of_cast lexicalCast (u := f' ++ ['+']) (w := []) hstar hbracket
        (by simpa [Pieces.text] using htext.symm) hmeans.2.1
      rw [← htext] at hmem
      exact absurd hmem (by simp [Pieces.text, hleft, hright])
  | count f' g' n' =>
      have hleft := notMem_of_cast lexicalCast (u := []) (w := '+' :: (g' ++ '*' :: n')) hstar
        hbracket (by simpa [Pieces.text] using htext.symm) hmeans.1
      have hright := notMem_of_cast lexicalCast (u := f' ++ ['+']) (w := '*' :: n') hstar
        hbracket (by simpa [Pieces.text] using htext.symm) hmeans.2.1
      have hstar' : '*' ∉ f' ++ '+' :: g' := by simp [hleft, hright]
      have hsame : (f' ++ '+' :: g') ++ ['*'] ++ n' = (f ++ '+' :: g) ++ ['*'] ++ n := by
        simpa [Pieces.text] using htext
      have hcount := (((unmarked_singleton_iff '*' _).mpr hstar').append_inj
        ((unmarked_singleton_iff '*' _).mpr hstar) hsame).2
      rw [← hcount]
      exact hmeans.2.2

/-- The pieces of a cut make up the string unless they overlap. -/
theorem text_cut {s : Str} (hoverlap : ∀ a b g, '*' ∉ a →
    cut s ≠ .count (a ++ '*' :: b) g (b ++ '+' :: g)) : (cut s).text = s := by
  rcases cut_cases s with ⟨_, hcut⟩ | ⟨f, g, hs, _, hcut⟩ | ⟨f, g, n, hs, _, hcut⟩ |
    ⟨a, b, g, _, ha, hcut⟩
  · rw [hcut, Pieces.text]
  · rw [hcut, Pieces.text, hs]
  · rw [hcut, Pieces.text, hs]
  · exact absurd hcut (hoverlap a b g ha)

/-- Overlapping pieces are not accepted: the number needs a bracket that the count cannot have. -/
theorem not_accepted_overlap (a b g : Str) :
    ¬ (Pieces.count (a ++ '*' :: b) g (b ++ '+' :: g)).Accepted lexicalCast := by
  rintro ⟨hf, _, hn⟩
  obtain ⟨value, hvalue⟩ := Option.isSome_iff_exists.mp hf
  obtain ⟨k, hk⟩ := Option.isSome_iff_exists.mp hn
  obtain ⟨v, hv⟩ := exists_signedValue_of_unsigned hk
  have hbracket := lexicalCast.paren_mem a b value hvalue
  exact notMem_of_signedValue hv (by decide) (by decide) (by decide)
    (List.mem_append_left _ hbracket)

theorem text_cut_of_accepted {s : Str} (h : (cut s).Accepted lexicalCast) : (cut s).text = s := by
  refine text_cut fun a b g _ hcut => ?_
  rw [hcut] at h
  exact not_accepted_overlap lexicalCast a b g h

/-- Pieces that have a meaning are read with it, if the count can be increased. -/
theorem readsTo_of_means {p : Pieces} {r : StepRange δ} (hp : p.Means lexicalCast r)
    (hmax : ∀ f g n, p = .count f g n → digitsValue n ≠ some (2 ^ 32 - 1)) :
    p.ReadsTo lexicalCast r := by
  cases p with
  | value f => exact hp
  | step f g => exact hp
  | count f g n =>
      obtain ⟨hf, hg, k, hdigits, hk, hcount⟩ := hp
      have hne : k ≠ 2 ^ 32 - 1 := fun heq => hmax f g n rfl (heq ▸ hdigits)
      refine ⟨hf, hg, ?_⟩
      rw [castPoints, lexicalCastUnsigned_of_digits hdigits hk, Option.map_some, hcount]
      congr 1
      omega

theorem readsTo_unique {p : Pieces} {r r' : StepRange δ} (h : p.ReadsTo lexicalCast r)
    (h' : p.ReadsTo lexicalCast r') : r = r' := by
  rw [← readPieces_eq_ok_iff] at h h'
  rw [h] at h'
  exact Except.ok.inj h'

/-- The string is in the notation as it is cut, with a count that can be increased. -/
def ReadAtCut (s : Str) : Prop :=
  (cut s).text = s ∧ (∃ r, (cut s).Means lexicalCast r) ∧
    ∀ f g n, cut s = .count f g n → digitsValue n ≠ some (2 ^ 32 - 1)

/-- What a cut is read as has to be one of the meanings. -/
theorem readAtCut_of_denotes {s : Str} {r : StepRange δ} (hreads : (cut s).ReadsTo lexicalCast r)
    (hdenotes : Denotes lexicalCast s r) : ReadAtCut lexicalCast s := by
  have haccepted := (accepted_iff lexicalCast).mpr ⟨r, hreads⟩
  refine ⟨text_cut_of_accepted lexicalCast haccepted, ?_⟩
  rcases cut_cases s with ⟨_, hcut⟩ | ⟨f, g, _, _, hcut⟩ | ⟨f, g, n, hs, hstar, hcut⟩ |
    ⟨a, b, g, _, _, hcut⟩
  · rw [hcut] at hreads ⊢
    exact ⟨⟨r, hreads⟩, by simp⟩
  · rw [hcut] at hreads ⊢
    exact ⟨⟨r, hreads⟩, by simp⟩
  · rw [hcut] at hreads ⊢
    obtain ⟨hf, hg, hpoints⟩ := hreads
    obtain ⟨k', hcast, hmod⟩ := Option.map_eq_some_iff.mp hpoints
    obtain ⟨v, hv⟩ := exists_signedValue_of_unsigned hcast
    rw [hs] at hdenotes
    obtain ⟨k, hdigits, hk, hcount⟩ := digits_of_denotes lexicalCast hstar hv hdenotes
    refine ⟨⟨r, hf, hg, k, hdigits, hk, hcount⟩, ?_⟩
    rintro f' g' n' ⟨⟩ hmax
    rw [lexicalCastUnsigned_of_digits hdigits hk] at hcast
    have hsame : k = k' := Option.some.inj hcast
    have hlargest : k = 2 ^ 32 - 1 := Option.some.inj (hdigits.symm.trans hmax)
    omega
  · rw [hcut] at haccepted
    exact absurd haccepted (not_accepted_overlap lexicalCast a b g)

/-- What the notation asks of the parser for one string: the result it stands for; an exception if it
stands for nothing; and no change to the output variables with an exception. -/
def TreatedExactly (s : Str) : Prop :=
  ∀ out : StepRange δ,
    (∀ r, Denotes lexicalCast s r → parseParamString lexicalCast s out = (none, r)) ∧
    ((¬ ∃ r, Denotes lexicalCast s r) → (parseParamString lexicalCast s out).1.isSome) ∧
    ((parseParamString lexicalCast s out).1.isSome →
      (parseParamString lexicalCast s out).2 = out)

/-- **Which strings are treated as the notation says.**  The string must have one meaning at most.
And if it has one, or its pieces are accepted when it is cut at the first `+` and the first `*`, these
pieces must be what gives it its meaning, with a count other than the largest number of 32 bits. -/
theorem parseParamString_exact_iff (s : Str) :
    TreatedExactly lexicalCast s ↔
      (∀ r r', Denotes lexicalCast s r → Denotes lexicalCast s r' → r = r') ∧
        ((∃ r, Denotes lexicalCast s r) ∨ (cut s).Accepted lexicalCast →
          ReadAtCut lexicalCast s) := by
  constructor
  · intro hexact
    obtain ⟨hmeaning, hnone, _⟩ := hexact ⟨lexicalCast.zero, lexicalCast.zero, 0⟩
    refine ⟨fun r r' hr hr' => (Prod.mk.inj ((hmeaning r hr).symm.trans (hmeaning r' hr'))).2,
      fun hsome => ?_⟩
    rcases parseParamString_cases lexicalCast s ⟨lexicalCast.zero, lexicalCast.zero, 0⟩ with
      ⟨r, hreads, hparse⟩ | ⟨hrejected, what, hparse⟩
    · obtain ⟨r', hr'⟩ : ∃ r', Denotes lexicalCast s r' := by
        by_contra hno
        simpa [hparse] using hnone hno
      have hsame : r = r' := (Prod.mk.inj (hparse.symm.trans (hmeaning r' hr'))).2
      exact readAtCut_of_denotes lexicalCast hreads (hsame ▸ hr')
    · rcases hsome with ⟨r, hr⟩ | haccepted
      · have hthrown := hmeaning r hr
        rw [hparse] at hthrown
        exact absurd (Prod.mk.inj hthrown).1 (by simp)
      · exact absurd haccepted hrejected
  · rintro ⟨hunique, hcut⟩ out
    rcases parseParamString_cases lexicalCast s out with
      ⟨r, hreads, hparse⟩ | ⟨hrejected, what, hparse⟩
    · obtain ⟨htext, ⟨r', hmeans⟩, hmax⟩ :=
        hcut (Or.inr ((accepted_iff lexicalCast).mpr ⟨r, hreads⟩))
      have hsame : r' = r :=
        readsTo_unique lexicalCast (readsTo_of_means lexicalCast hmeans hmax) hreads
      have hdenotes : Denotes lexicalCast s r := ⟨cut s, htext, hsame ▸ hmeans⟩
      rw [hparse]
      exact ⟨fun r₁ hr₁ => by rw [hunique r r₁ hdenotes hr₁], fun hno => absurd ⟨r, hdenotes⟩ hno,
        fun hthrown => absurd hthrown (by simp)⟩
    · rw [hparse]
      refine ⟨fun r hr => ?_, fun _ => rfl, fun _ => rfl⟩
      obtain ⟨_, ⟨r', hmeans⟩, hmax⟩ := hcut (Or.inl ⟨r, hr⟩)
      have hread := readsTo_of_means lexicalCast hmeans hmax
      exact absurd ((accepted_iff lexicalCast).mpr ⟨r', hread⟩) hrejected

end Notation

/-- **What is misread.**  The sign of `+1` is taken for the separator, and nothing is in front of it.
The largest count makes a range without points.  And a count with a sign, which the notation does not
have, is accepted. -/
theorem signs_and_counts_are_misread :
    let out : StepRange ℤ := ⟨5, 6, 7⟩
    (Denotes integerCast ['+', '1'] ⟨1, 0, 1⟩ ∧
        (parseParamString integerCast ['+', '1'] out).1
          = some ("Could not parse ".toList ++ [] ++ " as double".toList)) ∧
      (Denotes integerCast (['1', '+', '1', '*'] ++ "4294967295".toList) ⟨1, 1, 4294967296⟩ ∧
        parseParamString integerCast (['1', '+', '1', '*'] ++ "4294967295".toList) out
          = (none, ⟨1, 1, 0⟩)) ∧
      ((¬ ∃ r, Denotes integerCast ['1', '+', '1', '*', '-', '1'] r) ∧
        parseParamString integerCast ['1', '+', '1', '*', '-', '1'] out = (none, ⟨1, 1, 0⟩)) ∧
      ¬ TreatedExactly integerCast ['+', '1'] := by
  intro out
  have hsign : Denotes integerCast ['+', '1'] ⟨1, 0, 1⟩ := ⟨.value ['+', '1'], rfl, rfl, rfl, rfl⟩
  refine ⟨⟨hsign, by decide⟩, ⟨?_, by decide⟩, ⟨?_, by decide⟩, fun hexact => ?_⟩
  · exact ⟨.count ['1'] ['1'] "4294967295".toList, rfl, rfl, rfl, 4294967295, by decide, by decide,
      rfl⟩
  · rintro ⟨r, hr⟩
    obtain ⟨k, hk, _⟩ := digits_of_denotes (f := ['1']) (g := ['1']) (v := -1) integerCast
      (by decide) rfl hr
    have hnone : digitsValue ['-', '1'] = none := by decide
    rw [hnone] at hk
    exact absurd hk (by simp)
  · have hresult := (hexact out).1 _ hsign
    exact absurd hresult (by decide)

end StructurePipe.Common
