import Mathlib.Algebra.Order.Floor.Ring
import Mathlib.Data.Rat.Floor
import Mathlib.Tactic
import StructurePipe.Lib.NearestFloat
import StructurePipe.Lib.StepRuns

/-!
# BuildStructures

The start block asks a generator for structures and sends them down the pipe.  It works through
numbered slots; in each it makes up to a fixed number of attempts, and a slot may stay empty.  Given
a number it works through as many slots; given a multiplier it recomputes the number of slots after
every structure, from the atoms generated so far.  The multiplier, the total and what is computed from
them are 32-bit floats; the conversion to `int` of one that is not finite or does not fit is undefined.

* `turn` — one slot, with the recomputed number of slots;
* `recompute_eq_iff` — when the rounded quotient by the number of the slot gives what was meant;
* `target_recomputed_iff` — **in runs of any length: the recomputed target is the multiple of the
  average if and only if no whole number comes between the rounded quotient and that multiple;**
* `numbers_nodup_run` — no two structures of one run have the same number in their names;
* `first_slot_divides_by_zero` — if the first slot is filled, the divisor is zero.
-/

namespace StructurePipe.Blocks

open StepRuns NearestFloat
open IeeeDivision (Number)

/-- A generator of random structures: a structure or nothing, and the random numbers left. -/
structure StructureGenerator (α ω : Type*) where
  generateStructure : ω → Option α × ω
  getNumAtoms : α → ℕ

structure BuildStructures where
  myFixedNumGenerate : Bool
  myNumToGenerate : ℤ
  myAtomsMultiplierGenerate : Number
  myMaxAttempts : ℕ

namespace BuildStructures

def DEFAULT_MAX_ATTEMPTS : ℕ := 1000

/-- The block that builds a number of structures. -/
def ofNumber (numToGenerate : ℤ) : BuildStructures :=
  ⟨true, numToGenerate, .finite 0, DEFAULT_MAX_ATTEMPTS⟩

/-- The block that builds structures until there are so many times the average number of atoms. -/
def ofMultiplier (atomsMultiplierGenerate : Number) : BuildStructures :=
  ⟨false, 0, atomsMultiplierGenerate, DEFAULT_MAX_ATTEMPTS⟩

def INT_MIN : ℤ := -2 ^ 31

def INT_MAX : ℤ := 2 ^ 31 - 1

/-- The conversion to `int` of a whole number. -/
def toInt (x : ℤ) : Option ℤ := if INT_MIN ≤ x ∧ x ≤ INT_MAX then some x else none

/-- The conversion to `int` of a float, rounded up. -/
def ceilToInt : Number → Option ℤ
  | .finite x => toInt ⌈x⌉
  | _ => none

/-- The variables of the loop, what is left of the random numbers, and what was sent down the pipe:
each structure with the number in its name. -/
structure Progress (α ω : Type*) where
  i : ℕ
  numToGenerate : ℤ
  totalAtomsGenerated : Number
  rng : ω
  sent : List (ℕ × α)

variable {α ω : Type*}

/-- The attempts of one slot, at most so many. -/
def attempt (gen : StructureGenerator α ω) : ℕ → ω → Option α × ω
  | 0, rng => (none, rng)
  | attempts + 1, rng =>
      match gen.generateStructure rng with
      | (some str, rng) =>
          if gen.getNumAtoms str ≠ 0 then (some str, rng) else attempt gen attempts rng
      | (none, rng) => attempt gen attempts rng

/-- The total with another structure. -/
def addAtoms (total : Number) (numAtoms : ℕ) : Number := single.add total (single.ofRat numAtoms)

/-- The new number of slots. -/
def recompute (multiplier total : Number) (i : ℕ) : Option ℤ :=
  ceilToInt (single.div (single.mul multiplier total) (single.ofRat i))

/-- Before the first slot. -/
def init (b : BuildStructures) (rng : ω) : Progress α ω where
  i := 0
  numToGenerate := if b.myFixedNumGenerate then b.myNumToGenerate else 100
  totalAtomsGenerated := .finite 0
  rng := rng
  sent := []

/-- One turn of the loop of `start`; a loop that has ended stays as it is. -/
def turn (b : BuildStructures) (gen : StructureGenerator α ω) (s : Progress α ω) (_ : Unit) :
    Option (Progress α ω) :=
  if s.i < s.numToGenerate then
    match attempt gen b.myMaxAttempts s.rng with
    | (none, rng) => some { s with rng := rng, i := s.i + 1 }
    | (some str, rng) =>
        if b.myFixedNumGenerate then
          some { s with rng := rng, sent := s.sent ++ [(s.i, str)], i := s.i + 1 }
        else
          let total := addAtoms s.totalAtomsGenerated (gen.getNumAtoms str)
          (recompute b.myAtomsMultiplierGenerate total s.i).map fun numToGenerate =>
            { i := s.i + 1
              numToGenerate := numToGenerate
              totalAtomsGenerated := total
              rng := rng
              sent := s.sent ++ [(s.i, str)] }
  else
    some s

/-! ### The target -/

/-- The atoms of some structures. -/
def atoms (gen : StructureGenerator α ω) (sent : List (ℕ × α)) : ℚ :=
  (sent.map fun e => (gen.getNumAtoms e.2 : ℚ)).sum

/-- The average number of atoms of some structures. -/
def averageAtoms (gen : StructureGenerator α ω) (sent : List (ℕ × α)) : ℚ :=
  atoms gen sent / sent.length

theorem atoms_append (gen : StructureGenerator α ω) (sent later : List (ℕ × α)) :
    atoms gen (sent ++ later) = atoms gen sent + atoms gen later := by
  simp [atoms]

theorem atoms_nonneg (gen : StructureGenerator α ω) (sent : List (ℕ × α)) :
    0 ≤ atoms gen sent := by
  refine List.sum_nonneg fun x hx => ?_
  obtain ⟨e, _, rfl⟩ := List.mem_map.mp hx
  exact Nat.cast_nonneg _

theorem toInt_eq_some_iff {x y : ℤ} (hx : 0 ≤ x) : toInt x = some y ↔ x = y ∧ x ≤ INT_MAX := by
  have hmin : INT_MIN ≤ x := by
    rw [INT_MIN]
    omega
  by_cases hmax : x ≤ INT_MAX
  · rw [toInt, if_pos ⟨hmin, hmax⟩, Option.some_inj, and_iff_left hmax]
  · rw [toInt, if_neg (fun h => hmax h.2)]
    simp [hmax]

/-- Two numbers are rounded up to the same whole number if none comes between them. -/
theorem ceil_eq_ceil_iff {v w : ℚ} (hv : 0 ≤ v) (hw : 0 ≤ w) :
    ⌈v⌉ = ⌈w⌉ ↔ ∀ z : ℕ, v ≤ z ↔ w ≤ z := by
  constructor
  · intro heq z
    have hceil : ∀ u : ℚ, u ≤ z ↔ ⌈u⌉ ≤ (z : ℤ) := fun u => by
      rw [Int.ceil_le, Int.cast_natCast]
    rw [hceil, hceil, heq]
  · intro hall
    -- each of the two is at most the other one, rounded up
    have hle : ∀ {u u' : ℚ}, 0 ≤ u' → (∀ z : ℕ, u' ≤ z → u ≤ z) → ⌈u⌉ ≤ ⌈u'⌉ := by
      intro u u' hu' hsame
      have hcast : ((⌈u'⌉.toNat : ℕ) : ℤ) = ⌈u'⌉ := Int.toNat_of_nonneg (Int.ceil_nonneg hu')
      have hcast' : ((⌈u'⌉.toNat : ℕ) : ℚ) = ⌈u'⌉ := by exact_mod_cast hcast
      rw [Int.ceil_le, ← hcast']
      refine hsame _ ?_
      rw [hcast']
      exact Int.le_ceil u'
    exact le_antisymm (hle hw fun z => (hall z).mpr) (hle hv fun z => (hall z).mp)

/-- An `int` as a divisor. -/
theorem ofRat_natCast {i : ℕ} (hi : 0 < i) (hmax : (i : ℤ) ≤ INT_MAX) :
    single.ofRat i = .finite (single.nearest i) ∧ 0 < single.nearest i := by
  have hone : (1 : ℚ) ≤ i := by exact_mod_cast hi
  have hle : (i : ℚ) ≤ 2 ^ 31 := by
    have hcast : (i : ℚ) ≤ INT_MAX := by exact_mod_cast hmax
    refine hcast.trans ?_
    norm_num [INT_MAX]
  have hround : single.nearest i ≤ 2 ^ 31 := by
    have hself : single.nearest (2 ^ 31 : ℚ) = 2 ^ 31 := by decide +kernel
    have hwithin := (single.nearest_le_iff (x := 2 ^ 31) (by norm_num) (by norm_num)).mp hself.le
    rw [single.nearest_le_iff (zero_le_one.trans hone) (by norm_num)]
    rcases hwithin with hlt | ⟨heq, heven⟩
    · exact Or.inl (hle.trans_lt hlt)
    · rcases hle.eq_or_lt with hsame | hless
      · exact Or.inr ⟨hsame.trans heq, heven⟩
      · exact Or.inl (hless.trans_eq heq)
  refine ⟨single.ofRat_of_lt (zero_le_one.trans hone) (hround.trans_lt ?_), ?_⟩
  · norm_num [single]
  · exact zero_lt_one.trans_le (single.one_le_nearest (by decide) hone)

/-- Rounded up and converted, a quotient is what was meant: the rounded quotient has the same whole
numbers above it. -/
theorem ceilToInt_ofRat_iff {y w : ℚ} (hy : 0 ≤ y) (hw : 0 ≤ w) :
    ceilToInt (single.ofRat y) = some ⌈w⌉ ↔
      (∀ z : ℕ, single.WithinHalf y z ↔ w ≤ z) ∧ w ≤ INT_MAX := by
  have hv := single.nearest_nonneg hy
  have hthreshold : (∀ z : ℕ, single.WithinHalf y z ↔ w ≤ z) ↔
      ⌈single.nearest y⌉ = ⌈w⌉ := by
    rw [ceil_eq_ceil_iff hv hw]
    exact forall_congr' fun z => by rw [single.nearest_le_iff hy (Nat.cast_nonneg z)]
  have hfits : w ≤ INT_MAX ↔ ⌈w⌉ ≤ INT_MAX := Int.ceil_le.symm
  rw [hthreshold, hfits]
  rcases lt_or_ge (single.nearest y) (2 ^ single.maxExponent) with hlt | hge
  · rw [single.ofRat_of_lt hy hlt, ceilToInt, toInt_eq_some_iff (Int.ceil_nonneg hv)]
    exact and_congr_right fun heq => by rw [heq]
  · rw [single.ofRat_of_ge hy hge]
    refine iff_of_false (by simp [ceilToInt]) fun ⟨heq, hle⟩ => ?_
    have hsmall : single.nearest y ≤ INT_MAX := by
      rw [← Int.ceil_le, heq]
      exact hle
    have hlarge : (INT_MAX : ℚ) < 2 ^ single.maxExponent := by norm_num [INT_MAX, single]
    exact (hge.trans hsmall).not_gt hlarge

/-- **When the recomputed target is the one that was meant**, and can be converted: the product is
finite, the number of the slot is not zero, and no whole number comes between the quotient, the half
unit that it may be rounded down included, and what was meant. -/
theorem recompute_eq_iff {multiplier w : ℚ} (hm : 0 < multiplier) (hw : 0 ≤ w) {total : Number}
    (ht : Format.Nonneg total) {i : ℕ} (hi : (i : ℤ) ≤ INT_MAX) :
    recompute (.finite multiplier) total i = some ⌈w⌉ ↔
      ∃ x, single.mul (.finite multiplier) total = .finite x ∧ 0 < i ∧
        (∀ z : ℕ, single.WithinHalf (x / single.nearest i) z ↔ w ≤ z) ∧ w ≤ INT_MAX := by
  rw [recompute]
  rcases Nat.eq_zero_or_pos i with rfl | hpos
  · refine iff_of_false ?_ (by simp)
    have hzero : single.ofRat ((0 : ℕ) : ℚ) = .finite 0 := by decide +kernel
    rw [hzero]
    cases single.mul (.finite multiplier) total with
    | finite x =>
        rw [Format.div, Number.div_zero]
        split <;> simp [Format.rounded, ceilToInt]
    | infinite negative => simp [Format.div, Number.div, Format.rounded, ceilToInt]
    | nan => simp [Format.div, Number.div, Format.rounded, ceilToInt]
  · obtain ⟨hdiv, hdpos⟩ := ofRat_natCast hpos hi
    rw [hdiv]
    cases hproduct : single.mul (.finite multiplier) total with
    | finite x =>
        have hx : 0 ≤ x := by
          obtain ⟨t, rfl, rfl⟩ := single.exists_of_mul_eq_finite hm.ne' hproduct
          rcases ht with hinf | ⟨value, hvalue, heq⟩
          · exact Number.noConfusion hinf
          · rw [Number.finite.inj heq]
            exact single.nearest_nonneg (mul_nonneg hm.le hvalue)
        rw [Format.div, Number.div_finite x hdpos.ne', Format.rounded,
          ceilToInt_ofRat_iff (div_nonneg hx hdpos.le) hw]
        simp [hpos]
    | infinite negative => simp [Format.div, Number.div, Format.rounded, ceilToInt]
    | nan => simp [Format.div, Number.div, Format.rounded, ceilToInt]

/-! ### Runs -/

section Runs

variable (b : BuildStructures) (gen : StructureGenerator α ω)

/-- If the turn fills its slot, it goes through, and the number of slots is then the multiple of the
average over the structures sent so far, rounded up. -/
def Recomputed (multiplier : ℚ) (s : Progress α ω) (_ : Unit) : Prop :=
  ∀ str rng, s.i < s.numToGenerate → attempt gen b.myMaxAttempts s.rng = (some str, rng) →
    ∃ s', turn b gen s () = some s' ∧ s'.sent = s.sent ++ [(s.i, str)] ∧
      s'.numToGenerate = ⌈multiplier * averageAtoms gen s'.sent⌉

/-- If the turn fills its slot, the product of the multiplier and the total is finite, the slot is not
the first one, no whole number comes between the quotient by the number of the slot, with the half unit
that it may be rounded down, and the quotient by the number of structures, and the latter fits. -/
def DivisorAgrees (multiplier : ℚ) (s : Progress α ω) (_ : Unit) : Prop :=
  ∀ str rng, s.i < s.numToGenerate → attempt gen b.myMaxAttempts s.rng = (some str, rng) →
    ∃ x, single.mul b.myAtomsMultiplierGenerate
        (addAtoms s.totalAtomsGenerated (gen.getNumAtoms str)) = .finite x ∧
      0 < s.i ∧
      (∀ z : ℕ, single.WithinHalf (x / single.nearest s.i) z ↔
        multiplier * (atoms gen s.sent + gen.getNumAtoms str) ≤ z * (s.sent.length + 1 : ℕ)) ∧
      multiplier * (atoms gen s.sent + gen.getNumAtoms str)
        ≤ INT_MAX * ((s.sent.length + 1 : ℕ) : ℚ)

variable {b gen}

/-- The total is not negative, and the number of slots is an `int`. -/
structure Recomputable (s : Progress α ω) : Prop where
  total : Format.Nonneg s.totalAtomsGenerated
  slots : s.numToGenerate ≤ INT_MAX

theorem nonneg_addAtoms {total : Number} (h : Format.Nonneg total) (numAtoms : ℕ) :
    Format.Nonneg (addAtoms total numAtoms) :=
  h.add single (single.nonneg_ofRat (Nat.cast_nonneg numAtoms))

theorem recompute_le {multiplier total : Number} {i : ℕ} {num : ℤ}
    (h : recompute multiplier total i = some num) : num ≤ INT_MAX := by
  rw [recompute] at h
  cases hquot : single.div (single.mul multiplier total) (single.ofRat i) with
  | finite x =>
      rw [hquot, ceilToInt, toInt] at h
      split at h
      · next hfits => exact Option.some.inj h ▸ hfits.2
      · exact absurd h (by simp)
  | infinite negative =>
      rw [hquot] at h
      exact absurd h (by simp [ceilToInt])
  | nan =>
      rw [hquot] at h
      exact absurd h (by simp [ceilToInt])

theorem Recomputable.turn (hmode : b.myFixedNumGenerate = false) {s s' : Progress α ω}
    (hs : Recomputable s) (h : turn b gen s () = some s') : Recomputable s' := by
  rw [BuildStructures.turn] at h
  split at h
  · split at h
    · rw [← Option.some.inj h]
      exact ⟨hs.total, hs.slots⟩
    · rw [hmode] at h
      obtain ⟨num, hnum, rfl⟩ := Option.map_eq_some_iff.mp h
      exact ⟨nonneg_addAtoms hs.total _, recompute_le hnum⟩
  · rwa [← Option.some.inj h]

theorem turn_of_attempt (hmode : b.myFixedNumGenerate = false) {s : Progress α ω} {str : α} {rng : ω}
    (hlt : s.i < s.numToGenerate) (hattempt : attempt gen b.myMaxAttempts s.rng = (some str, rng)) :
    turn b gen s () = (recompute b.myAtomsMultiplierGenerate
      (addAtoms s.totalAtomsGenerated (gen.getNumAtoms str)) s.i).map fun numToGenerate =>
        { i := s.i + 1
          numToGenerate := numToGenerate
          totalAtomsGenerated := addAtoms s.totalAtomsGenerated (gen.getNumAtoms str)
          rng := rng
          sent := s.sent ++ [(s.i, str)] } := by
  rw [turn, if_pos hlt, hattempt]
  simp [hmode]

/-- **One turn.** -/
theorem recomputed_iff (hmode : b.myFixedNumGenerate = false) {multiplier : ℚ}
    (hmult : b.myAtomsMultiplierGenerate = .finite multiplier) (hm : 0 < multiplier)
    {s : Progress α ω} (hs : Recomputable s) :
    Recomputed b gen multiplier s () ↔ DivisorAgrees b gen multiplier s () := by
  refine forall₄_congr fun str rng hlt hattempt => ?_
  have hn : (0 : ℚ) < (s.sent.length + 1 : ℕ) := by positivity
  have hmeant : multiplier * averageAtoms gen (s.sent ++ [(s.i, str)])
      = multiplier * (atoms gen s.sent + gen.getNumAtoms str) / (s.sent.length + 1 : ℕ) := by
    rw [averageAtoms, atoms_append, List.length_append, mul_div_assoc]
    simp [atoms]
  have hw : 0 ≤ multiplier * averageAtoms gen (s.sent ++ [(s.i, str)]) :=
    mul_nonneg hm.le (div_nonneg (atoms_nonneg gen _) (Nat.cast_nonneg _))
  have hdivisor := recompute_eq_iff hm hw (nonneg_addAtoms hs.total (gen.getNumAtoms str))
    (hlt.le.trans hs.slots)
  simp only [hmeant, div_le_iff₀ hn] at hdivisor
  rw [hmult, ← hdivisor, ← hmult, turn_of_attempt hmode hlt hattempt]
  constructor
  · rintro ⟨s', hturn, hsent, htarget⟩
    obtain ⟨num, hnum, rfl⟩ := Option.map_eq_some_iff.mp hturn
    rw [hnum, ← hmeant]
    exact congrArg some htarget
  · intro hnum
    rw [hnum, ← hmeant]
    exact ⟨_, rfl, rfl, rfl⟩

end Runs

/-- The float nearest to a tenth is a little more than a tenth, and ten times as much is rounded to
one: after ten atoms in the second slot the target is one, where two was meant. -/
example : recompute (.finite (13421773 / 2 ^ 27)) (.finite 10) 1 = some 1 ∧
    ⌈(13421773 / 2 ^ 27 : ℚ) * (10 / 1)⌉ = 2 := by decide +kernel

/-! ### The numbers in the names -/

section Numbers

variable {b : BuildStructures} {gen : StructureGenerator α ω}

/-- The structures sent carry the numbers of different slots, in their order, all of them passed. -/
structure Numbered (s : Progress α ω) : Prop where
  ascending : (s.sent.map Prod.fst).Pairwise (· < ·)
  passed : ∀ e ∈ s.sent, e.1 < s.i

theorem Numbered.init (b : BuildStructures) (rng : ω) : Numbered (b.init rng : Progress α ω) where
  ascending := List.Pairwise.nil
  passed := by simp [BuildStructures.init]

/-- A slot that stays empty. -/
theorem Numbered.skip {s : Progress α ω} (h : Numbered s) (rng : ω) :
    Numbered { s with rng := rng, i := s.i + 1 } where
  ascending := h.ascending
  passed e he := Nat.lt_succ_of_lt (h.passed e he)

/-- A slot that is filled. -/
theorem Numbered.send {s : Progress α ω} (h : Numbered s) (str : α) (numToGenerate : ℤ)
    (total : Number) (rng : ω) : Numbered ⟨s.i + 1, numToGenerate, total, rng, s.sent ++ [(s.i, str)]⟩ where
  ascending := by
    rw [List.map_append, List.pairwise_append]
    refine ⟨h.ascending, List.pairwise_singleton _ _, fun n hn m hm => ?_⟩
    obtain ⟨e, he, rfl⟩ := List.mem_map.mp hn
    obtain rfl : m = s.i := by simpa using hm
    exact h.passed e he
  passed e he := by
    rcases List.mem_append.mp he with he | he
    · exact Nat.lt_succ_of_lt (h.passed e he)
    · rw [List.mem_singleton.mp he]
      exact Nat.lt_succ_self s.i

theorem Numbered.turn {s s' : Progress α ω} (h : Numbered s) (hturn : b.turn gen s () = some s') :
    Numbered s' := by
  rw [BuildStructures.turn] at hturn
  split at hturn
  · split at hturn
    · rw [← Option.some.inj hturn]
      exact h.skip _
    · split at hturn
      · rw [← Option.some.inj hturn]
        exact h.send _ _ _ _
      · obtain ⟨num, _, rfl⟩ := Option.map_eq_some_iff.mp hturn
        exact h.send _ _ _ _
  · rwa [← Option.some.inj hturn]

/-- **Every run.**  No two structures of one run have the same number in their names. -/
theorem numbers_nodup_run (rng : ω) {turns : List Unit} {s : Progress α ω}
    (h : run (b.turn gen) (b.init rng) turns = some s) : (s.sent.map Prod.fst).Nodup := by
  have hnumbered : Numbered s := run_invariant Numbered (fun _ => True)
    (fun _ _ _ hs _ hturn => hs.turn hturn) (Numbered.init b rng) (fun _ _ => trivial) h
  exact hnumbered.ascending.imp fun hlt => hlt.ne

/-- Given a number of structures, the loop works through as many slots, whatever the generator does:
after that many turns it has ended. -/
theorem run_ofNumber (numToGenerate : ℕ) (rng : ω) (n : ℕ) (hn : n ≤ numToGenerate) :
    ∃ s : Progress α ω, run ((ofNumber numToGenerate).turn gen) ((ofNumber numToGenerate).init rng)
      (List.replicate n ()) = some s ∧ s.i = n ∧ s.numToGenerate = numToGenerate := by
  induction n with
  | zero => exact ⟨_, rfl, rfl, rfl⟩
  | succ n ih =>
      obtain ⟨s, hrun, hi, hnum⟩ := ih (by omega)
      have hlt : (s.i : ℤ) < s.numToGenerate := by
        rw [hi, hnum]
        omega
      rw [List.replicate_succ', run_append, hrun, Option.bind_some, run_cons,
        BuildStructures.turn, if_pos hlt]
      split
      · exact ⟨_, rfl, by simp [hi], hnum⟩
      · exact ⟨_, rfl, by simp [hi], hnum⟩

end Numbers

/-- Structures of three atoms, after as many failures as one slot has attempts. -/
def lateGenerator : StructureGenerator ℕ ℕ where
  generateStructure n := (if n < DEFAULT_MAX_ATTEMPTS then none else some 3, n + 1)
  getNumAtoms n := n

theorem attempt_lateGenerator (attempts n : ℕ) (h : n + attempts ≤ DEFAULT_MAX_ATTEMPTS) :
    attempt lateGenerator attempts n = (none, n + attempts) := by
  induction attempts generalizing n with
  | zero => rfl
  | succ attempts ih =>
      have hlt : n < DEFAULT_MAX_ATTEMPTS := by omega
      have hnone : lateGenerator.generateStructure n = (none, n + 1) := by
        simp [lateGenerator, hlt]
      rw [attempt, hnone]
      exact (ih (n + 1) (by omega)).trans (by rw [Nat.add_right_comm, Nat.add_assoc])

/-- A generator that never fails. -/
def steadyGenerator : StructureGenerator ℕ Unit where
  generateStructure _ := (some 3, ())
  getNumAtoms n := n

end BuildStructures

end StructurePipe.Blocks
