import StructurePipe.Common.ParamString
import StructurePipe.Lib.FirstInsertion

/-!
# Ranges of several parameters

`ParamRange` has a parser of its own for the same strings.  It cuts them in the same way, but trims the
pieces, reads the count as a signed number and counts steps where the other counts points.  Nothing is
written for a string that is rejected.

`fromStrings` fills the range from a list of strings.  It gives the vectors their new size before it
reads anything, and each string is written as soon as it is read, so that a rejected string leaves a
range that is half old and half new.

* `parsers_agree_iff` — **exactly on which strings the two parsers agree;**
* `parseAll_cases` — what the loop of `fromStrings` has written when it ends;
* `denotesEntry_of_readRange` — an entry is what its string denotes;
* `overwriteWith_eq_self_iff` — entries that are written change nothing exactly if they were there;
* `fromStrings_all_or_nothing_iff` — **exactly when a failure leaves no trace.**
-/

namespace StructurePipe.Common

open FirstInsertion Substrings

/-- One parameter of a range. -/
structure RangeEntry (δ : Type*) where
  from_ : δ
  step : δ
  nSteps : ℤ
deriving DecidableEq, Repr

structure ParamRange (δ : Type*) where
  from_ : List δ
  step : List δ
  nSteps : List ℤ
deriving DecidableEq, Repr

namespace Pieces

/-- `boost::trim` of every piece. -/
def trimmed : Pieces → Pieces
  | value f => .value (Tokens.trim isspace f)
  | step f g => .step (Tokens.trim isspace f) (Tokens.trim isspace g)
  | count f g n =>
      .count (Tokens.trim isspace f) (Tokens.trim isspace g) (Tokens.trim isspace n)

end Pieces

variable {δ : Type} (lexicalCast : DoubleCast δ)

/-- The temporaries of `ParamRange::parseParamString`, from trimmed pieces; `none` for `false`. -/
def readRangePieces : Pieces → Option (RangeEntry δ)
  | .value f => do
      let lFrom ← lexicalCast.cast f
      return ⟨lFrom, lexicalCast.zero, 0⟩
  | .step f g => do
      let lFrom ← lexicalCast.cast f
      let lStep ← lexicalCast.cast g
      return ⟨lFrom, lStep, 1⟩
  | .count f g n => do
      let lFrom ← lexicalCast.cast f
      let lStep ← lexicalCast.cast g
      let lNSteps ← lexicalCastInt n
      return ⟨lFrom, lStep, lNSteps⟩

/-- What a string is read as. -/
def readRange (paramString : Str) : Option (RangeEntry δ) :=
  if paramString.isEmpty then none else readRangePieces lexicalCast (cut paramString).trimmed

namespace ParamRange

/-- Write one entry of all three vectors. -/
def setEntry (range : ParamRange δ) (idx : ℕ) (entry : RangeEntry δ) : ParamRange δ where
  from_ := range.from_.set idx entry.from_
  step := range.step.set idx entry.step
  nSteps := range.nSteps.set idx entry.nSteps

def parseParamString (range : ParamRange δ) (idx : ℕ) (paramString : Str) : Bool × ParamRange δ :=
  match readRange lexicalCast paramString with
  | none => (false, range)
  | some entry => (true, range.setEntry idx entry)

/-- The three calls of `resize`. -/
def resized (range : ParamRange δ) (numParams : ℕ) : ParamRange δ where
  from_ := resize range.from_ numParams lexicalCast.zero
  step := resize range.step numParams lexicalCast.zero
  nSteps := resize range.nSteps numParams 0

/-- The loop of `fromStrings`, from an index on. -/
def parseAll : ℕ → List Str → ParamRange δ → Bool × ParamRange δ
  | _, [], range => (true, range)
  | i, paramString :: paramStrings, range =>
      match range.parseParamString lexicalCast i paramString with
      | (false, range) => (false, range)
      | (true, range) => parseAll (i + 1) paramStrings range

def fromStrings (range : ParamRange δ) (paramStrings : List Str) : Bool × ParamRange δ :=
  parseAll lexicalCast 0 paramStrings (range.resized lexicalCast paramStrings.length)

end ParamRange

/-! ### The two parsers -/

/-- What `ParamRange` accepts, once the pieces are trimmed. -/
def Pieces.AcceptedInt (p : Pieces) : Prop := p.AcceptedBy lexicalCast lexicalCastInt

/-- What `ParamRange` makes of trimmed pieces. -/
def Pieces.ReadsToEntry (p : Pieces) (e : RangeEntry δ) : Prop :=
  p.ReadsAs lexicalCast lexicalCastInt 0 1 e.from_ e.step e.nSteps

theorem readRangePieces_eq_some_iff {p : Pieces} {e : RangeEntry δ} :
    readRangePieces lexicalCast p = some e ↔ p.ReadsToEntry lexicalCast e := by
  cases p with
  | value f =>
      simp only [readRangePieces, Option.bind_eq_bind, Option.bind_eq_some_iff, Option.pure_def,
        Option.some.injEq, Pieces.ReadsToEntry, Pieces.ReadsAs]
      constructor
      · rintro ⟨a, ha, rfl⟩
        exact ⟨ha, rfl, rfl⟩
      · rintro ⟨ha, hstep, hcount⟩
        exact ⟨e.from_, ha, by rw [← hstep, ← hcount]⟩
  | step f g =>
      simp only [readRangePieces, Option.bind_eq_bind, Option.bind_eq_some_iff, Option.pure_def,
        Option.some.injEq, Pieces.ReadsToEntry, Pieces.ReadsAs]
      constructor
      · rintro ⟨a, ha, b, hb, rfl⟩
        exact ⟨ha, hb, rfl⟩
      · rintro ⟨ha, hb, hcount⟩
        exact ⟨e.from_, ha, e.step, hb, by rw [← hcount]⟩
  | count f g n =>
      simp only [readRangePieces, Option.bind_eq_bind, Option.bind_eq_some_iff, Option.pure_def,
        Option.some.injEq, Pieces.ReadsToEntry, Pieces.ReadsAs]
      constructor
      · rintro ⟨a, ha, b, hb, k, hk, rfl⟩
        exact ⟨ha, hb, hk⟩
      · rintro ⟨ha, hb, hk⟩
        exact ⟨e.from_, ha, e.step, hb, e.nSteps, hk, rfl⟩

theorem acceptedInt_iff {p : Pieces} :
    p.AcceptedInt lexicalCast ↔ ∃ e, p.ReadsToEntry lexicalCast e := by
  rw [Pieces.AcceptedInt, acceptedBy_iff lexicalCast lexicalCastInt 0 1]
  constructor
  · rintro ⟨a, b, k, h⟩
    exact ⟨⟨a, b, k⟩, h⟩
  · rintro ⟨e, h⟩
    exact ⟨e.from_, e.step, e.nSteps, h⟩

/-- The empty string is a piece that is not accepted. -/
theorem readRange_eq_some_iff {s : Str} {e : RangeEntry δ} :
    readRange lexicalCast s = some e ↔ (cut s).trimmed.ReadsToEntry lexicalCast e := by
  rw [← readRangePieces_eq_some_iff]
  cases s with
  | nil =>
      have htrim : Tokens.trim isspace [] = [] := rfl
      rw [readRange, if_pos List.isEmpty_nil, cut_value (by simp), Pieces.trimmed, htrim,
        readRangePieces, lexicalCast.cast_nil]
      simp
  | cons c s => rw [readRange, if_neg (by simp)]

/-- Pieces that `common::parseParamString` accepts have nothing to be trimmed. -/
theorem trimmed_of_cast {p : Pieces} {ν : Type} {castCount : Str → Option ν}
    (hcount : ∀ n, (castCount n).isSome → ∃ v, signedValue n = some v)
    (h : p.AcceptedBy lexicalCast castCount) : p.trimmed = p := by
  have hdouble : ∀ f, (lexicalCast.cast f).isSome → Tokens.trim isspace f = f := by
    intro f hf
    obtain ⟨value, hvalue⟩ := Option.isSome_iff_exists.mp hf
    exact lexicalCast.trim_eq f value hvalue
  cases p with
  | value f => rw [Pieces.trimmed, hdouble f h]
  | step f g => rw [Pieces.trimmed, hdouble f h.1, hdouble g h.2]
  | count f g n =>
      obtain ⟨v, hv⟩ := hcount n h.2.2
      rw [Pieces.trimmed, hdouble f h.1, hdouble g h.2.1, trim_of_signedValue hv]

/-- Both parsers reject the pieces, or they read the same numbers and one point more than steps. -/
def PiecesAgree (p : Pieces) : Prop :=
  (p.Accepted lexicalCast ↔ p.trimmed.AcceptedInt lexicalCast) ∧
    ∀ r e, p.ReadsTo lexicalCast r → p.trimmed.ReadsToEntry lexicalCast e →
      r.from_ = e.from_ ∧ r.step = e.step ∧ (r.nSteps : ℤ) = e.nSteps + 1

/-- The counts that both integer types treat alike: those that the signed one can hold from minus one
on, and those that none can hold. -/
def SameCount (v : ℤ) : Prop := (-1 ≤ v ∧ v < 2 ^ 31) ∨ 2 ^ 32 ≤ v.natAbs

theorem sameCount_iff (n : Str) {v : ℤ} (hv : signedValue n = some v) :
    (((lexicalCastUnsigned n).isSome ↔ (lexicalCastInt n).isSome) ∧
      ∀ k w, castPoints n = some k → lexicalCastInt n = some w → (k : ℤ) = w + 1) ↔
      SameCount v := by
  simp only [castPoints, lexicalCastUnsigned, lexicalCastInt, hv, Option.bind_some, SameCount]
  by_cases hunsigned : v.natAbs < 2 ^ 32
  · by_cases hint : -2 ^ 31 ≤ v ∧ v < 2 ^ 31
    · rw [if_pos hunsigned, if_pos hint]
      simp only [Option.isSome_some, true_and, Option.map_some, Option.some.injEq]
      constructor
      · intro h
        have hpoints := h _ _ rfl rfl
        omega
      · rintro h _ _ rfl rfl
        omega
    · rw [if_pos hunsigned, if_neg hint]
      simp only [Option.isSome_some, Option.isSome_none]
      constructor
      · intro h
        exact absurd (h.1.mp trivial) Bool.false_ne_true
      · intro h
        omega
  · by_cases hint : -2 ^ 31 ≤ v ∧ v < 2 ^ 31
    · omega
    · rw [if_neg hunsigned, if_neg hint]
      simp only [Option.isSome_none, true_and, Option.map_none]
      constructor
      · intro _
        omega
      · intro _ _ _ h
        exact absurd h (by simp)

/-- Two readings of the same numbers. -/
theorem numbers_eq {p : Pieces} {ν ν' : Type} {castCount : Str → Option ν} {noStep oneStep : ν}
    {castCount' : Str → Option ν'} {noStep' oneStep' : ν'} {a b a' b' : δ} {k : ν} {k' : ν'}
    (h : p.ReadsAs lexicalCast castCount noStep oneStep a b k)
    (h' : p.ReadsAs lexicalCast castCount' noStep' oneStep' a' b' k') : a = a' ∧ b = b' := by
  cases p with
  | value f => exact ⟨Option.some.inj (h.1.symm.trans h'.1), h.2.1.trans h'.2.1.symm⟩
  | step f g =>
      exact ⟨Option.some.inj (h.1.symm.trans h'.1), Option.some.inj (h.2.1.symm.trans h'.2.1)⟩
  | count f g n =>
      exact ⟨Option.some.inj (h.1.symm.trans h'.1), Option.some.inj (h.2.1.symm.trans h'.2.1)⟩

/-- Of pieces with nothing to be trimmed only the count can make a difference. -/
theorem piecesAgree_of_trimmed {p : Pieces} (htrim : p.trimmed = p) :
    PiecesAgree lexicalCast p ↔
      ∀ f g n, p = .count f g n → (lexicalCast.cast f).isSome → (lexicalCast.cast g).isSome →
        ∀ v, signedValue n = some v → SameCount v := by
  rw [PiecesAgree, htrim]
  cases p with
  | value f =>
      refine iff_of_true ⟨Iff.rfl, fun r e hr he => ?_⟩ (by simp)
      obtain ⟨hfrom, hstep⟩ := numbers_eq lexicalCast hr he
      exact ⟨hfrom, hstep, by rw [hr.2.2, he.2.2]; rfl⟩
  | step f g =>
      refine iff_of_true ⟨Iff.rfl, fun r e hr he => ?_⟩ (by simp)
      obtain ⟨hfrom, hstep⟩ := numbers_eq lexicalCast hr he
      exact ⟨hfrom, hstep, by rw [hr.2.2, he.2.2]; rfl⟩
  | count f g n =>
      constructor
      · rintro ⟨haccepted, hcounts⟩ f' g' n' ⟨⟩ hf hg v hv
        refine (sameCount_iff n hv).mp ⟨?_, fun k w hk hw => ?_⟩
        · simpa [Pieces.Accepted, Pieces.AcceptedInt, Pieces.AcceptedBy, hf, hg] using haccepted
        · obtain ⟨a, ha⟩ := Option.isSome_iff_exists.mp hf
          obtain ⟨b, hb⟩ := Option.isSome_iff_exists.mp hg
          exact (hcounts ⟨a, b, k⟩ ⟨a, b, w⟩ ⟨ha, hb, hk⟩ ⟨ha, hb, hw⟩).2.2
      · intro hsame
        refine ⟨and_congr_right fun hf => and_congr_right fun hg => ?_, fun r e hr he => ?_⟩
        · cases hv : signedValue n with
          | none => simp [lexicalCastUnsigned, lexicalCastInt, hv]
          | some v => exact ((sameCount_iff n hv).mpr (hsame f g n rfl hf hg v hv)).1
        · obtain ⟨hfrom, hstep⟩ := numbers_eq lexicalCast hr he
          obtain ⟨v, hv⟩ := exists_signedValue_of_int he.2.2
          have hf := Option.isSome_iff_exists.mpr ⟨_, hr.1⟩
          have hg := Option.isSome_iff_exists.mpr ⟨_, hr.2.1⟩
          exact ⟨hfrom, hstep, ((sameCount_iff n hv).mpr (hsame f g n rfl hf hg v hv)).2 _ _
            hr.2.2 he.2.2⟩

/-- **When the parsers agree on pieces.**  Either there is nothing to be trimmed, or the pieces are not
accepted when they are trimmed; and a count behind two numbers is one that both types treat alike. -/
theorem piecesAgree_iff (p : Pieces) :
    PiecesAgree lexicalCast p ↔
      (p.trimmed = p ∨ ¬ p.trimmed.AcceptedInt lexicalCast) ∧
        ∀ f g n, p = .count f g n → (lexicalCast.cast f).isSome → (lexicalCast.cast g).isSome →
          ∀ v, signedValue n = some v → SameCount v := by
  by_cases htrim : p.trimmed = p
  · rw [piecesAgree_of_trimmed lexicalCast htrim]
    simp [htrim]
  · have hrejected : ¬ p.Accepted lexicalCast := fun h =>
      htrim (trimmed_of_cast lexicalCast (fun _ hn => by
        obtain ⟨k, hk⟩ := Option.isSome_iff_exists.mp hn
        exact exists_signedValue_of_unsigned hk) h)
    have hcount : ∀ f g n, p = .count f g n → (lexicalCast.cast f).isSome →
        (lexicalCast.cast g).isSome → ∀ v, signedValue n = some v → SameCount v := by
      rintro f g n rfl hf hg v hv
      exact absurd (@trimmed_of_cast _ lexicalCast (.count f g n) _ signedValue
        (fun _ hn => Option.isSome_iff_exists.mp hn)
        ⟨hf, hg, Option.isSome_iff_exists.mpr ⟨v, hv⟩⟩) htrim
    constructor
    · intro hagree
      exact ⟨Or.inr fun h => hrejected (hagree.1.mpr h), hcount⟩
    · rintro ⟨hnone, _⟩
      have hrejected' := hnone.resolve_left htrim
      refine ⟨iff_of_false hrejected hrejected', fun r _ hr _ => ?_⟩
      exact absurd ((accepted_iff lexicalCast).mpr ⟨r, hr⟩) hrejected

/-- One call of each parser with the same string: they succeed together, and then `from` and `step` are
the same and there is one point more than steps. -/
def CallsAgree (s : Str) (out : StepRange δ) (range : ParamRange δ) (idx : ℕ) : Prop :=
  let (thrown, out') := parseParamString lexicalCast s out
  let (success, range') := range.parseParamString lexicalCast idx s
  (thrown = none ↔ success = true) ∧
    (thrown = none → range'.from_[idx]? = some out'.from_ ∧ range'.step[idx]? = some out'.step ∧
      ∃ nSteps, range'.nSteps[idx]? = some nSteps ∧ (out'.nSteps : ℤ) = nSteps + 1)

/-- All calls agree, whatever the outputs were before; the index is one that the vectors have. -/
def ParsersAgree (s : Str) : Prop :=
  ∀ (out : StepRange δ) (range : ParamRange δ) (idx : ℕ), idx < range.from_.length →
    idx < range.step.length → idx < range.nSteps.length → CallsAgree lexicalCast s out range idx

/-- **One call.**  It writes the entry it reads, or nothing. -/
theorem ParamRange.parseParamString_cases (range : ParamRange δ) (idx : ℕ) (s : Str) :
    (∃ e, (cut s).trimmed.ReadsToEntry lexicalCast e ∧
        range.parseParamString lexicalCast idx s = (true, range.setEntry idx e)) ∨
      ¬ (cut s).trimmed.AcceptedInt lexicalCast ∧
        range.parseParamString lexicalCast idx s = (false, range) := by
  rw [ParamRange.parseParamString]
  cases hread : readRange lexicalCast s with
  | some e => exact Or.inl ⟨e, (readRange_eq_some_iff lexicalCast).mp hread, rfl⟩
  | none =>
      refine Or.inr ⟨fun h => ?_, rfl⟩
      obtain ⟨e, he⟩ := (acceptedInt_iff lexicalCast).mp h
      rw [(readRange_eq_some_iff lexicalCast).mpr he] at hread
      exact absurd hread (by simp)

theorem readsToEntry_unique {p : Pieces} {e e' : RangeEntry δ} (h : p.ReadsToEntry lexicalCast e)
    (h' : p.ReadsToEntry lexicalCast e') : e = e' := by
  rw [← readRangePieces_eq_some_iff] at h h'
  exact Option.some.inj (h.symm.trans h')

/-- **Agreement of two calls** is agreement on the pieces of the cut. -/
theorem callsAgree_iff (s : Str) (out : StepRange δ) {range : ParamRange δ} {idx : ℕ}
    (hfrom : idx < range.from_.length) (hstep : idx < range.step.length)
    (hcount : idx < range.nSteps.length) :
    CallsAgree lexicalCast s out range idx ↔ PiecesAgree lexicalCast (cut s) := by
  rw [CallsAgree]
  rcases parseParamString_cases lexicalCast s out with ⟨r, hr, hparse⟩ | ⟨hr, what, hparse⟩
  · have hr' := (accepted_iff lexicalCast).mpr ⟨r, hr⟩
    rcases range.parseParamString_cases lexicalCast idx s with ⟨e, he, hrange⟩ | ⟨he, hrange⟩
    · have he' := (acceptedInt_iff lexicalCast).mpr ⟨e, he⟩
      simp only [hparse, hrange, ParamRange.setEntry, List.getElem?_set_self hfrom,
        List.getElem?_set_self hstep, List.getElem?_set_self hcount, Option.some.injEq]
      constructor
      · rintro ⟨_, hvalues⟩
        obtain ⟨hfrom', hstep', nSteps, rfl, hpoints⟩ := hvalues trivial
        refine ⟨iff_of_true hr' he', fun r₁ e₁ hr₁ he₁ => ?_⟩
        rw [readsTo_unique lexicalCast hr₁ hr, readsToEntry_unique lexicalCast he₁ he]
        exact ⟨hfrom'.symm, hstep'.symm, hpoints⟩
      · rintro ⟨_, hvalues⟩
        obtain ⟨hfrom', hstep', hpoints⟩ := hvalues r e hr he
        exact ⟨trivial, fun _ => ⟨hfrom'.symm, hstep'.symm, e.nSteps, rfl, hpoints⟩⟩
    · rw [hparse, hrange]
      exact iff_of_false (by simp) fun hagree => he (hagree.1.mp hr')
  · rcases range.parseParamString_cases lexicalCast idx s with ⟨e, he, hrange⟩ | ⟨he, hrange⟩
    · rw [hparse, hrange]
      exact iff_of_false (by simp) fun hagree =>
        hr (hagree.1.mpr ((acceptedInt_iff lexicalCast).mpr ⟨e, he⟩))
    · rw [hparse, hrange]
      refine iff_of_true (by simp) ⟨iff_of_false hr he, fun r₁ _ hr₁ _ => ?_⟩
      exact absurd ((accepted_iff lexicalCast).mpr ⟨r₁, hr₁⟩) hr

/-- **On which strings the parsers agree.** -/
theorem parsers_agree_iff (s : Str) :
    ParsersAgree lexicalCast s ↔
      ((cut s).trimmed = cut s ∨ ¬ (cut s).trimmed.AcceptedInt lexicalCast) ∧
        ∀ f g n, cut s = .count f g n → (lexicalCast.cast f).isSome →
          (lexicalCast.cast g).isSome → ∀ v, signedValue n = some v → SameCount v := by
  rw [← piecesAgree_iff]
  constructor
  · intro hagree
    exact (callsAgree_iff lexicalCast s ⟨lexicalCast.zero, lexicalCast.zero, 0⟩ (by simp) (by simp)
      (by simp)).mp (hagree _ ⟨[lexicalCast.zero], [lexicalCast.zero], [0]⟩ 0 (by simp) (by simp)
        (by simp))
  · intro hagree out range idx hfrom hstep hcount
    exact (callsAgree_iff lexicalCast s out hfrom hstep hcount).mpr hagree

/-- **Where the parsers part.**  One of them takes no blanks.  The larger half of the unsigned counts
does not fit the signed type.  And a negative count wraps around in one of them only. -/
theorem parsers_disagree :
    let out : StepRange ℤ := ⟨0, 0, 0⟩
    let range : ParamRange ℤ := ⟨[0], [0], [0]⟩
    let large := ['1', '+', '1', '*'] ++ "2147483648".toList
    ((parseParamString integerCast [' ', '1'] out).1.isSome = true ∧
        range.parseParamString integerCast 0 [' ', '1'] = (true, ⟨[1], [0], [0]⟩)) ∧
      (parseParamString integerCast large out = (none, ⟨1, 1, 2147483649⟩) ∧
        range.parseParamString integerCast 0 large = (false, range)) ∧
      (parseParamString integerCast ['1', '+', '1', '*', '-', '5'] out = (none, ⟨1, 1, 4294967292⟩) ∧
        range.parseParamString integerCast 0 ['1', '+', '1', '*', '-', '5']
          = (true, ⟨[1], [1], [-5]⟩)) ∧
      ¬ ParsersAgree integerCast [' ', '1'] := by
  intro out range large
  have hthrown : (parseParamString integerCast [' ', '1'] out).1.isSome = true := by decide
  have hread : range.parseParamString integerCast 0 [' ', '1'] = (true, ⟨[1], [0], [0]⟩) := by
    decide
  refine ⟨⟨hthrown, hread⟩, ⟨by decide, by decide⟩, ⟨by decide, by decide⟩, fun hagree => ?_⟩
  have hcall : (parseParamString integerCast [' ', '1'] out).1 = none ↔
      (range.parseParamString integerCast 0 [' ', '1']).1 = true :=
    (hagree out range 0 (by decide) (by decide) (by decide)).1
  rw [hread] at hcall
  rw [hcall.mpr rfl] at hthrown
  exact absurd hthrown (by decide)

/-! ### All or nothing -/

namespace Pieces

/-- What trimmed pieces stand for in a range: no step is none, and the count is a whole number of the
signed type. -/
def MeansEntry : Pieces → RangeEntry δ → Prop
  | value f, e => lexicalCast.cast f = some e.from_ ∧ e.step = lexicalCast.zero ∧ e.nSteps = 0
  | step f g, e => lexicalCast.cast f = some e.from_ ∧ lexicalCast.cast g = some e.step ∧
      e.nSteps = 1
  | count f g n, e => lexicalCast.cast f = some e.from_ ∧ lexicalCast.cast g = some e.step ∧
      signedValue n = some e.nSteps ∧ -2 ^ 31 ≤ e.nSteps ∧ e.nSteps < 2 ^ 31

end Pieces

/-- A string denotes what its pieces stand for, blanks around them aside. -/
def DenotesEntry (s : Str) (e : RangeEntry δ) : Prop :=
  ∃ p : Pieces, p.text = s ∧ p.trimmed.MeansEntry lexicalCast e

/-- Trimming takes nothing but blanks. -/
theorem mem_trim {s : Str} {c : Char} (hc : c ∈ s) (hblank : isspace c = false) :
    c ∈ Tokens.trim isspace s := by
  obtain ⟨l, r, hsplit, hl, hr⟩ := Tokens.trim_spec isspace s
  rw [hsplit, List.mem_append, List.mem_append] at hc
  rcases hc with (hleft | hmem) | hright
  · rw [hl c hleft] at hblank
    exact Bool.noConfusion hblank
  · exact hmem
  · rw [hr c hright] at hblank
    exact Bool.noConfusion hblank

/-- What a trimmed text has behind its first `*`, it had there before. -/
theorem exists_trim_split {a : Str} (b : Str) (ha : '*' ∉ a) :
    ∃ a' b', Tokens.trim isspace (a ++ '*' :: b) = a' ++ '*' :: b' ∧ ∀ c ∈ b', c ∈ b := by
  obtain ⟨l, r, hsplit, _, _⟩ := Tokens.trim_spec isspace (a ++ '*' :: b)
  obtain ⟨a', b', htrim, _⟩ := List.eq_append_cons_of_mem (mem_trim (s := a ++ '*' :: b) (by simp)
    (show isspace '*' = false by decide))
  refine ⟨a', b', htrim, fun c hc => ?_⟩
  rw [htrim] at hsplit
  have hwhole : a ++ '*' :: b = (l ++ a') ++ '*' :: (b' ++ r) := by simpa using hsplit
  exact mem_behind_first ha hwhole (List.mem_append_left r hc)

/-- Overlapping pieces are not accepted when they are trimmed either. -/
theorem not_readsToEntry_overlap {a : Str} (b g : Str) (ha : '*' ∉ a) (e : RangeEntry δ) :
    ¬ (Pieces.count (a ++ '*' :: b) g (b ++ '+' :: g)).trimmed.ReadsToEntry lexicalCast e := by
  rintro ⟨hf, _, hn⟩
  obtain ⟨a', b', htrim, hbehind⟩ := exists_trim_split b ha
  rw [htrim] at hf
  have hbracket : ')' ∈ b ++ '+' :: g :=
    List.mem_append_left _ (hbehind ')' (lexicalCast.paren_mem a' b' _ hf))
  obtain ⟨v, hv⟩ := exists_signedValue_of_int hn
  exact notMem_of_signedValue hv (by decide) (by decide) (by decide)
    (mem_trim hbracket (by decide))

/-- **What is read is what is denoted.** -/
theorem denotesEntry_of_readRange {s : Str} {e : RangeEntry δ}
    (h : readRange lexicalCast s = some e) : DenotesEntry lexicalCast s e := by
  rw [readRange_eq_some_iff] at h
  have htext : (cut s).text = s := by
    refine text_cut fun a b g ha hcut => ?_
    rw [hcut] at h
    exact not_readsToEntry_overlap lexicalCast b g ha e h
  refine ⟨cut s, htext, ?_⟩
  cases hp : (cut s).trimmed with
  | value f =>
      rw [hp] at h
      exact h
  | step f g =>
      rw [hp] at h
      exact h
  | count f g n =>
      rw [hp] at h
      obtain ⟨v, hv, hrange⟩ := Option.bind_eq_some_iff.mp h.2.2
      split at hrange
      · next hint =>
          obtain rfl := Option.some.inj hrange
          exact ⟨h.1, h.2.1, hv, hint.1, hint.2⟩
      · exact absurd hrange (by simp)

namespace ParamRange

/-- The entry of a range at an index. -/
def entryAt (range : ParamRange δ) (i : ℕ) : Option (RangeEntry δ) :=
  match range.from_[i]?, range.step[i]?, range.nSteps[i]? with
  | some from_, some step, some nSteps => some ⟨from_, step, nSteps⟩
  | _, _, _ => none

/-- All three vectors have this length. -/
structure HasLength (range : ParamRange δ) (n : ℕ) : Prop where
  from_ : range.from_.length = n
  step : range.step.length = n
  nSteps : range.nSteps.length = n

/-- Write entries from an index on. -/
def overwriteWith (range : ParamRange δ) (i : ℕ) : List (RangeEntry δ) → ParamRange δ
  | [] => range
  | e :: es => (range.setEntry i e).overwriteWith (i + 1) es

theorem HasLength.setEntry {range : ParamRange δ} {n : ℕ} (h : range.HasLength n) (i : ℕ)
    (e : RangeEntry δ) : (range.setEntry i e).HasLength n where
  from_ := by simpa [ParamRange.setEntry] using h.from_
  step := by simpa [ParamRange.setEntry] using h.step
  nSteps := by simpa [ParamRange.setEntry] using h.nSteps

theorem HasLength.overwriteWith {n : ℕ} (es : List (RangeEntry δ)) :
    ∀ {range : ParamRange δ} (i : ℕ), range.HasLength n → (range.overwriteWith i es).HasLength n := by
  induction es with
  | nil => exact fun _ h => h
  | cons e es ih => exact fun i h => ih (i + 1) (h.setEntry i e)

theorem entryAt_setEntry_self {range : ParamRange δ} {n i : ℕ} (h : range.HasLength n) (hi : i < n)
    (e : RangeEntry δ) : (range.setEntry i e).entryAt i = some e := by
  have hfrom : i < range.from_.length := h.from_.symm ▸ hi
  have hstep : i < range.step.length := h.step.symm ▸ hi
  have hcount : i < range.nSteps.length := h.nSteps.symm ▸ hi
  simp [entryAt, setEntry, hfrom, hstep, hcount]

theorem entryAt_setEntry_of_ne (range : ParamRange δ) {i j : ℕ} (h : i ≠ j) (e : RangeEntry δ) :
    (range.setEntry i e).entryAt j = range.entryAt j := by
  simp [entryAt, setEntry, List.getElem?_set_ne h]

theorem entryAt_overwriteWith_of_lt (es : List (RangeEntry δ)) :
    ∀ (range : ParamRange δ) {i j : ℕ}, j < i → (range.overwriteWith i es).entryAt j = range.entryAt j := by
  induction es with
  | nil => exact fun _ _ _ _ => rfl
  | cons e es ih =>
      intro range i j hj
      rw [overwriteWith, ih _ (Nat.lt_succ_of_lt hj), entryAt_setEntry_of_ne range (by omega)]

/-- **The entries that were written are there.** -/
theorem entryAt_overwriteWith {n : ℕ} (es : List (RangeEntry δ)) :
    ∀ {range : ParamRange δ} {i : ℕ}, range.HasLength n → i + es.length ≤ n →
      ∀ j < es.length, (range.overwriteWith i es).entryAt (i + j) = es[j]? := by
  induction es with
  | nil => exact fun _ _ j hj => absurd hj (Nat.not_lt_zero j)
  | cons e es ih =>
      intro range i h hn j hj
      rw [List.length_cons] at hn hj
      rw [overwriteWith]
      cases j with
      | zero =>
          show ((range.setEntry i e).overwriteWith (i + 1) es).entryAt i = some e
          rw [entryAt_overwriteWith_of_lt es _ (Nat.lt_add_one i), entryAt_setEntry_self h (by omega)]
      | succ j =>
          have hnext := ih (h.setEntry i e) (i := i + 1) (by omega) j (by omega)
          rw [List.getElem?_cons_succ, ← hnext]
          congr 1
          omega

theorem set_of_getElem? {α : Type} {l : List α} {i : ℕ} {a : α} (h : l[i]? = some a) :
    l.set i a = l := by
  obtain ⟨hi, rfl⟩ := List.getElem?_eq_some_iff.mp h
  exact List.set_getElem_self hi

/-- Writing the entry that is there changes nothing. -/
theorem setEntry_self {range : ParamRange δ} {i : ℕ} {e : RangeEntry δ}
    (h : range.entryAt i = some e) : range.setEntry i e = range := by
  rw [entryAt] at h
  split at h
  · next from_ step nSteps hfrom hstep hcount =>
      obtain rfl := Option.some.inj h
      rw [setEntry, set_of_getElem? hfrom, set_of_getElem? hstep, set_of_getElem? hcount]
  · exact absurd h (by simp)

/-- **Entries that are written change nothing exactly if they were there.** -/
theorem overwriteWith_eq_self_iff {range : ParamRange δ} {n : ℕ} (h : range.HasLength n)
    {es : List (RangeEntry δ)} (hn : es.length ≤ n) :
    range.overwriteWith 0 es = range ↔ ∀ j < es.length, range.entryAt j = es[j]? := by
  constructor
  · intro hself j hj
    have hwritten := entryAt_overwriteWith es h (i := 0) (by omega) j hj
    rwa [hself, Nat.zero_add] at hwritten
  · intro hthere
    have hfrom : ∀ (es : List (RangeEntry δ)) (i : ℕ),
        (∀ j < es.length, range.entryAt (i + j) = es[j]?) → range.overwriteWith i es = range := by
      intro es
      induction es with
      | nil => exact fun _ _ => rfl
      | cons e es ih =>
          intro i hthere
          have hfirst : range.entryAt i = some e := by simpa using hthere 0 (by simp)
          rw [overwriteWith, setEntry_self hfirst]
          refine ih (i + 1) fun j hj => ?_
          have hnext := hthere (j + 1) (by simpa using hj)
          rw [List.getElem?_cons_succ] at hnext
          rw [← hnext]
          congr 1
          omega
    exact hfrom es 0 fun j hj => by rw [Nat.zero_add, hthere j hj]

/-- **The loop of `fromStrings`.**  It writes what it reads up to the first string that is rejected. -/
theorem parseAll_cases (paramStrings : List Str) :
    ∀ (i : ℕ) (range : ParamRange δ),
      (∃ es, List.Forall₂ (fun s e => readRange lexicalCast s = some e) paramStrings es ∧
          parseAll lexicalCast i paramStrings range = (true, range.overwriteWith i es)) ∨
        ∃ before bad after es, paramStrings = before ++ bad :: after ∧
          List.Forall₂ (fun s e => readRange lexicalCast s = some e) before es ∧
          readRange lexicalCast bad = none ∧
          parseAll lexicalCast i paramStrings range = (false, range.overwriteWith i es) := by
  induction paramStrings with
  | nil => exact fun i range => Or.inl ⟨[], List.Forall₂.nil, rfl⟩
  | cons s paramStrings ih =>
      intro i range
      rw [parseAll, parseParamString]
      cases hread : readRange lexicalCast s with
      | none => exact Or.inr ⟨[], s, paramStrings, [], rfl, List.Forall₂.nil, hread, rfl⟩
      | some e =>
          rcases ih (i + 1) (range.setEntry i e) with ⟨es, hes, hloop⟩ |
            ⟨before, bad, after, es, hsplit, hes, hbad, hloop⟩
          · exact Or.inl ⟨e :: es, List.Forall₂.cons hread hes, hloop⟩
          · refine Or.inr ⟨s :: before, bad, after, e :: es, ?_, List.Forall₂.cons hread hes, hbad,
              hloop⟩
            rw [hsplit, List.cons_append]

theorem hasLength_resized (range : ParamRange δ) (n : ℕ) :
    (range.resized lexicalCast n).HasLength n where
  from_ := length_resize _ _ _
  step := length_resize _ _ _
  nSteps := length_resize _ _ _

theorem resized_of_hasLength {range : ParamRange δ} {n : ℕ} (h : range.HasLength n) :
    range.resized lexicalCast n = range := by
  have hself : ∀ {α : Type} (l : List α) (d : α), l.length = n → resize l n d = l := by
    intro α l d hl
    rw [resize_of_le hl.le, hl]
    simp
  rw [resized, hself _ _ h.from_, hself _ _ h.step, hself _ _ h.nSteps]

/-- What a call is meant to do: nothing if it fails, and otherwise to have an entry for each string,
which is what the string denotes. -/
def AllOrNothing (range : ParamRange δ) (paramStrings : List Str) : Prop :=
  let (success, range') := range.fromStrings lexicalCast paramStrings
  (success = false → range' = range) ∧
    (success = true → range'.HasLength paramStrings.length ∧
      ∀ i s, paramStrings[i]? = some s →
        ∃ e, range'.entryAt i = some e ∧ DenotesEntry lexicalCast s e)

/-- A failure after these strings leaves no trace: the vectors have the new length already, and each
string is read as the entry that is there. -/
def LeavesNoTrace (range : ParamRange δ) (n : ℕ) (before : List Str) : Prop :=
  range.HasLength n ∧ ∀ j s, before[j]? = some s → range.entryAt j = readRange lexicalCast s

theorem readRange_eq_none_iff {s : Str} :
    readRange lexicalCast s = none ↔ ¬ (cut s).trimmed.AcceptedInt lexicalCast := by
  rw [acceptedInt_iff, Option.eq_none_iff_forall_ne_some, not_exists]
  exact forall_congr' fun e => not_congr (readRange_eq_some_iff lexicalCast)

/-- The entries that were read, one by one. -/
theorem getElem?_of_read {strings : List Str} {es : List (RangeEntry δ)}
    (h : List.Forall₂ (fun s e => readRange lexicalCast s = some e) strings es) :
    ∀ {j : ℕ} {s : Str}, strings[j]? = some s → es[j]? = readRange lexicalCast s := by
  induction h with
  | nil => exact fun hs => absurd hs (by simp)
  | cons hread _ ih =>
      intro j s hs
      cases j with
      | zero =>
          obtain rfl := Option.some.inj hs
          exact hread.symm
      | succ j => exact ih hs

/-- Strings that were read are accepted. -/
theorem exists_read {strings : List Str} {es : List (RangeEntry δ)}
    (h : List.Forall₂ (fun s e => readRange lexicalCast s = some e) strings es) {j : ℕ} {s : Str}
    (hs : strings[j]? = some s) : ∃ e, readRange lexicalCast s = some e ∧ es[j]? = some e := by
  obtain ⟨hj, _⟩ := List.getElem?_eq_some_iff.mp hs
  have hread := getElem?_of_read lexicalCast h hs
  rw [List.getElem?_eq_getElem (h.length_eq ▸ hj : j < es.length)] at hread
  exact ⟨_, hread.symm, List.getElem?_eq_getElem _⟩

/-- There is only one first string that is rejected. -/
theorem first_rejected_unique {P : Str → Prop} {bad bad' : Str} {after after' : List Str}
    (hbad : ¬ P bad) (hbad' : ¬ P bad') :
    ∀ {before before' : List Str}, before ++ bad :: after = before' ++ bad' :: after' →
      (∀ s ∈ before, P s) → (∀ s ∈ before', P s) → before = before' := by
  intro before
  induction before with
  | nil =>
      intro before' hsplit _ hbefore'
      cases before' with
      | nil => rfl
      | cons s before' =>
          rw [(List.cons.inj hsplit).1] at hbad
          exact absurd (hbefore' s (by simp)) hbad
  | cons s before ih =>
      intro before' hsplit hbefore hbefore'
      cases before' with
      | nil =>
          rw [← (List.cons.inj hsplit).1] at hbad'
          exact absurd (hbefore s (by simp)) hbad'
      | cons s' before' =>
          obtain ⟨rfl, hrest⟩ := List.cons.inj hsplit
          rw [ih hrest (fun t ht => hbefore t (by simp [ht])) fun t ht => hbefore' t (by simp [ht])]

/-- After a failure: the range is as before exactly if nothing new was written. -/
theorem overwriteWith_resized_eq_iff (range : ParamRange δ) {n : ℕ} {before : List Str}
    {es : List (RangeEntry δ)} (hn : es.length ≤ n)
    (hes : List.Forall₂ (fun s e => readRange lexicalCast s = some e) before es) :
    (range.resized lexicalCast n).overwriteWith 0 es = range ↔
      range.LeavesNoTrace lexicalCast n before := by
  have hentries : (∀ j < es.length, range.entryAt j = es[j]?) ↔
      ∀ j s, before[j]? = some s → range.entryAt j = readRange lexicalCast s := by
    constructor
    · intro h j s hs
      obtain ⟨hj, _⟩ := List.getElem?_eq_some_iff.mp hs
      rw [h j (hes.length_eq ▸ hj), getElem?_of_read lexicalCast hes hs]
    · intro h j hj
      have hs := List.getElem?_eq_getElem (hes.length_eq ▸ hj : j < before.length)
      rw [h j _ hs, getElem?_of_read lexicalCast hes hs]
  rw [LeavesNoTrace, ← hentries]
  constructor
  · intro hself
    have hlength := (hasLength_resized lexicalCast range n).overwriteWith es 0
    rw [hself] at hlength
    rw [resized_of_hasLength lexicalCast hlength] at hself
    exact ⟨hlength, (overwriteWith_eq_self_iff hlength hn).mp hself⟩
  · rintro ⟨hlength, hthere⟩
    rw [resized_of_hasLength lexicalCast hlength]
    exact (overwriteWith_eq_self_iff hlength hn).mpr hthere

/-- After a success: each entry is what its string denotes. -/
theorem entries_denoted (range : ParamRange δ) {strings : List Str} {es : List (RangeEntry δ)}
    (hes : List.Forall₂ (fun s e => readRange lexicalCast s = some e) strings es) {i : ℕ} {s : Str}
    (hs : strings[i]? = some s) :
    ∃ e, ((range.resized lexicalCast strings.length).overwriteWith 0 es).entryAt i = some e ∧
      DenotesEntry lexicalCast s e := by
  obtain ⟨e, hread, he⟩ := exists_read lexicalCast hes hs
  obtain ⟨hi, _⟩ := List.getElem?_eq_some_iff.mp he
  have hwritten := entryAt_overwriteWith es (hasLength_resized lexicalCast range strings.length)
    (i := 0) (by rw [hes.length_eq]; omega) i hi
  rw [Nat.zero_add, he] at hwritten
  exact ⟨e, hwritten, denotesEntry_of_readRange lexicalCast hread⟩

/-- Strings that were read are accepted, all of them. -/
theorem acceptedInt_of_mem {strings : List Str} {es : List (RangeEntry δ)}
    (hes : List.Forall₂ (fun s e => readRange lexicalCast s = some e) strings es) {s : Str}
    (hs : s ∈ strings) : (cut s).trimmed.AcceptedInt lexicalCast := by
  obtain ⟨j, hj⟩ := List.getElem?_of_mem hs
  obtain ⟨e, hread, _⟩ := exists_read lexicalCast hes hj
  exact (acceptedInt_iff lexicalCast).mpr ⟨e, (readRange_eq_some_iff lexicalCast).mp hread⟩

/-- **When a call does all or nothing:** if no string is rejected, or what was written up to the first
rejected one was there before. -/
theorem fromStrings_all_or_nothing_iff (range : ParamRange δ) (paramStrings : List Str) :
    range.AllOrNothing lexicalCast paramStrings ↔
      ∀ before bad after, paramStrings = before ++ bad :: after →
        (∀ s ∈ before, (cut s).trimmed.AcceptedInt lexicalCast) →
        ¬ (cut bad).trimmed.AcceptedInt lexicalCast →
        range.LeavesNoTrace lexicalCast paramStrings.length before := by
  have hlength := hasLength_resized lexicalCast range paramStrings.length
  rw [AllOrNothing, fromStrings]
  rcases parseAll_cases lexicalCast paramStrings 0 (range.resized lexicalCast paramStrings.length)
    with ⟨es, hes, hloop⟩ | ⟨before, bad, after, es, hsplit, hes, hbad, hloop⟩
  · rw [hloop]
    refine iff_of_true ⟨fun h => Bool.noConfusion h, fun _ => ⟨hlength.overwriteWith es 0,
      fun _ _ hs => entries_denoted lexicalCast range hes hs⟩⟩ ?_
    intro before bad after hsplit _ hbad
    exact absurd (acceptedInt_of_mem lexicalCast hes (by simp [hsplit])) hbad
  · have hn : es.length ≤ paramStrings.length := by
      rw [← hes.length_eq, hsplit, List.length_append]
      exact Nat.le_add_right _ _
    have htrace := overwriteWith_resized_eq_iff lexicalCast range hn hes
    have hbad := (readRange_eq_none_iff lexicalCast).mp hbad
    have hbefore := fun s hs => acceptedInt_of_mem lexicalCast hes (s := s) hs
    rw [hloop]
    constructor
    · intro h before' bad' after' hsplit' hbefore' hbad'
      have hsame := first_rejected_unique hbad hbad' (hsplit.symm.trans hsplit') hbefore hbefore'
      rw [← hsame]
      exact htrace.mp (h.1 rfl)
    · intro h
      exact ⟨fun _ => htrace.mpr (h before bad after hsplit hbefore hbad),
        fun hsuccess => Bool.noConfusion hsuccess⟩

/-- **A failure that leaves a trace.**  The vectors have grown, and the first of them has a new
entry. -/
theorem failed_call_leaves_a_trace :
    ParamRange.fromStrings integerCast ⟨[7], [8], [9]⟩ [['1'], ['x']]
        = (false, ⟨[1, 0], [0, 0], [0, 0]⟩) ∧
      ¬ ParamRange.AllOrNothing integerCast ⟨[7], [8], [9]⟩ [['1'], ['x']] := by
  have hcall : ParamRange.fromStrings integerCast ⟨[7], [8], [9]⟩ [['1'], ['x']]
      = (false, ⟨[1, 0], [0, 0], [0, 0]⟩) := by
    decide
  refine ⟨hcall, fun hall => ?_⟩
  rw [AllOrNothing, hcall] at hall
  exact absurd (hall.1 rfl) (by decide)

end ParamRange

end StructurePipe.Common
