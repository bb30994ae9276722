import Mathlib.Data.Int.Log
import Mathlib.Data.Rat.Floor
import Mathlib.Tactic
import StructurePipe.Lib.IeeeDivision

/-!
# Rounding to a binary floating-point format

The result of an operation on floating-point numbers is the exact result, rounded to the nearest number
of the format, to the even one in the middle between two; what is too large becomes infinite.  Below
the smallest normal number the spacing of the numbers stays the same.

* `Format.nearest` — the rounded number; `Format.rounded` — the rounded result of an operation;
* `roundEven_le_iff` — when a number rounds to at most a whole number;
* `Format.nearest_le_iff` — **when a number rounds to at most a bound:** if it exceeds the last number of
  the format up to the bound by at most half a unit.
-/

namespace NearestFloat

open IeeeDivision (Number)

/-! ### Whole numbers -/

/-- The nearest whole number, the even one in the middle between two. -/
def roundEven (q : ℚ) : ℤ :=
  if q < ⌊q⌋ + 1 / 2 then ⌊q⌋
  else if ⌊q⌋ + 1 / 2 < q then ⌊q⌋ + 1
  else if Even ⌊q⌋ then ⌊q⌋ else ⌊q⌋ + 1

/-- Up to half beyond a whole number, half included if it is even. -/
theorem roundEven_le_iff (q : ℚ) (k : ℤ) :
    roundEven q ≤ k ↔ q < k + 1 / 2 ∨ q = k + 1 / 2 ∧ Even k := by
  have hlow : (⌊q⌋ : ℚ) ≤ q := Int.floor_le q
  have hhigh : q < ⌊q⌋ + 1 := Int.lt_floor_add_one q
  rcases lt_trichotomy ⌊q⌋ k with hlt | heq | hgt
  · -- the whole part is smaller, and rounding up does not pass the bound
    have hcast : (⌊q⌋ : ℚ) + 1 ≤ k := by exact_mod_cast hlt
    refine iff_of_true ?_ (Or.inl (by linarith))
    rw [roundEven]
    split_ifs <;> omega
  · rw [roundEven, ← heq]
    split_ifs with hless hmore heven
    · exact iff_of_true le_rfl (Or.inl hless)
    · exact iff_of_false (by omega) fun h => by
        rcases h with h | ⟨h, _⟩
        · exact hless h
        · exact hmore.ne' h
    · exact iff_of_true le_rfl (Or.inr ⟨le_antisymm (not_lt.mp hmore) (not_lt.mp hless), heven⟩)
    · exact iff_of_false (by omega) fun h => by
        rcases h with h | ⟨_, h⟩
        · exact hless h
        · exact heven h
  · have hcast : (k : ℚ) + 1 ≤ ⌊q⌋ := by exact_mod_cast hgt
    refine iff_of_false ?_ fun h => ?_
    · rw [roundEven]
      split_ifs <;> omega
    · rcases h with h | ⟨h, _⟩ <;> linarith

theorem roundEven_le {q : ℚ} {k : ℤ} (h : q ≤ k) : roundEven q ≤ k :=
  (roundEven_le_iff q k).mpr (Or.inl (by linarith))

theorem le_roundEven {q : ℚ} {k : ℤ} (h : k ≤ q) : k ≤ roundEven q := by
  by_contra hlt
  have hle : roundEven q ≤ k - 1 := by omega
  rw [roundEven_le_iff] at hle
  push_cast at hle
  rcases hle with hle | ⟨hle, _⟩ <;> linarith

/-! ### Formats -/

/-- A binary format: the number of binary digits behind the first one, the exponent of the smallest
normal number, and the exponent from which numbers are infinite. -/
structure Format where
  digits : ℕ
  minExponent : ℤ
  maxExponent : ℤ
deriving DecidableEq, Repr

/-- The 32-bit format. -/
def single : Format := ⟨23, -126, 128⟩

namespace Format

variable (f : Format) {x y z : ℚ}

def exponent (x : ℚ) : ℤ := if |x| < 2 ^ f.minExponent then f.minExponent else Int.log 2 |x|

/-- The distance between two numbers of the format, around `x`. -/
def ulp (x : ℚ) : ℚ := 2 ^ (f.exponent x - f.digits)

def nearest (x : ℚ) : ℚ := roundEven (x / f.ulp x) * f.ulp x

/-- A number as a number of the format. -/
def ofRat (x : ℚ) : Number :=
  if |f.nearest x| < 2 ^ f.maxExponent then .finite (f.nearest x) else .infinite (decide (x < 0))

/-- The result of an operation. -/
def rounded : Number → Number
  | .finite x => f.ofRat x
  | .infinite negative => .infinite negative
  | .nan => .nan

def add : Number → Number → Number
  | .finite x, .finite y => f.ofRat (x + y)
  | .finite _, .infinite negative => .infinite negative
  | .infinite negative, .finite _ => .infinite negative
  | .infinite negative, .infinite negative' =>
      if negative = negative' then .infinite negative else .nan
  | _, _ => .nan

def mul : Number → Number → Number
  | .finite x, .finite y => f.ofRat (x * y)
  | .finite x, .infinite negative =>
      if x = 0 then .nan else .infinite (decide (x < 0) ^^ negative)
  | .infinite negative, .finite y =>
      if y = 0 then .nan else .infinite (negative ^^ decide (y < 0))
  | .infinite negative, .infinite negative' => .infinite (negative ^^ negative')
  | _, _ => .nan

def div (x y : Number) : Number := f.rounded (Number.div x y)

/-- `x` exceeds the last number of the format up to `z` by at most half a unit, or by less if that
number is odd. -/
def WithinHalf (x z : ℚ) : Prop :=
  x < (⌊z / f.ulp z⌋ + 1 / 2) * f.ulp z ∨
    x = (⌊z / f.ulp z⌋ + 1 / 2) * f.ulp z ∧ Even ⌊z / f.ulp z⌋

instance (x z : ℚ) : Decidable (f.WithinHalf x z) :=
  inferInstanceAs (Decidable (_ ∨ _ ∧ _))

theorem ulp_pos (x : ℚ) : 0 < f.ulp x := zpow_pos two_pos _

/-- The powers of two around a number. -/
theorem lt_exponent (hx : 0 ≤ x) : x < 2 ^ (f.exponent x + 1) := by
  rw [exponent, abs_of_nonneg hx]
  split
  · next hsmall =>
      refine hsmall.trans_le ?_
      exact zpow_le_zpow_right₀ one_le_two (by omega)
  · exact_mod_cast Int.lt_zpow_succ_log_self one_lt_two x

theorem minExponent_le (x : ℚ) : f.minExponent ≤ f.exponent x := by
  rw [exponent]
  split
  · exact le_rfl
  · next hlarge =>
      have hpos : 0 < |x| := (zpow_pos two_pos _).trans_le (not_lt.mp hlarge)
      exact (Int.zpow_le_iff_le_log one_lt_two hpos).mp (by exact_mod_cast not_lt.mp hlarge)

theorem exponent_le (hx : 0 ≤ x) (h : f.minExponent < f.exponent x) : 2 ^ f.exponent x ≤ x := by
  rw [exponent, abs_of_nonneg hx] at h ⊢
  split
  · next hsmall =>
      rw [if_pos hsmall] at h
      exact absurd h (lt_irrefl _)
  · next hlarge =>
      have hpos : 0 < x := (zpow_pos two_pos _).trans_le (not_lt.mp hlarge)
      exact_mod_cast Int.zpow_log_le_self one_lt_two hpos

/-- The exponent is that of the power of two below, among the normal numbers. -/
theorem le_exponent {e : ℤ} (h : 2 ^ e ≤ x) : e ≤ f.exponent x := by
  have hpos : 0 < x := (zpow_pos two_pos e).trans_le h
  have hlt := h.trans_lt (f.lt_exponent hpos.le)
  have := (zpow_lt_zpow_iff_right₀ (one_lt_two : (1 : ℚ) < 2)).mp hlt
  omega

/-- A power of two in units of the format. -/
theorem pow_div_ulp (x : ℚ) (n : ℕ) :
    (2 : ℚ) ^ (f.exponent x + n) = 2 ^ (f.digits + n) * f.ulp x := by
  rw [ulp, ← zpow_natCast, ← zpow_add₀ two_ne_zero]
  congr 1
  push_cast
  ring

/-- A number is not rounded beyond the powers of two around it. -/
theorem nearest_le_pow (hx : 0 ≤ x) : f.nearest x ≤ 2 ^ (f.exponent x + 1) := by
  have hunit := f.pow_div_ulp x 1
  push_cast at hunit
  have hquot : x / f.ulp x ≤ ((2 ^ (f.digits + 1) : ℕ) : ℤ) := by
    rw [div_le_iff₀ (f.ulp_pos x)]
    push_cast
    rw [← hunit]
    exact (f.lt_exponent hx).le
  have hround : (roundEven (x / f.ulp x) : ℚ) ≤ ((2 ^ (f.digits + 1) : ℕ) : ℤ) := by
    exact_mod_cast roundEven_le hquot
  push_cast at hround
  rw [nearest, hunit]
  exact mul_le_mul_of_nonneg_right hround (f.ulp_pos x).le

theorem pow_le_nearest (h : 2 ^ f.exponent x ≤ x) : 2 ^ f.exponent x ≤ f.nearest x := by
  have hunit := f.pow_div_ulp x 0
  simp only [Nat.cast_zero, add_zero] at hunit
  have hquot : ((2 ^ f.digits : ℕ) : ℤ) ≤ x / f.ulp x := by
    rw [le_div_iff₀ (f.ulp_pos x)]
    push_cast
    rw [← hunit]
    exact h
  have hround : (((2 ^ f.digits : ℕ) : ℤ) : ℚ) ≤ roundEven (x / f.ulp x) := by
    exact_mod_cast le_roundEven hquot
  push_cast at hround
  rw [nearest, hunit]
  exact mul_le_mul_of_nonneg_right hround (f.ulp_pos x).le

theorem nearest_nonneg (hx : 0 ≤ x) : 0 ≤ f.nearest x := by
  have hround : 0 ≤ roundEven (x / f.ulp x) :=
    le_roundEven (by exact_mod_cast div_nonneg hx (f.ulp_pos x).le)
  exact mul_nonneg (by exact_mod_cast hround) (f.ulp_pos x).le

/-- A bound beyond the next power of two is far from the number. -/
theorem nearest_le_of_exponent_lt (hx : 0 ≤ x) (hz : 0 ≤ z) (h : f.exponent x < f.exponent z) :
    f.nearest x ≤ z ∧ x < (⌊z / f.ulp z⌋ + 1 / 2) * f.ulp z := by
  have hpos := f.ulp_pos z
  have hbetween : (2 : ℚ) ^ (f.exponent x + 1) ≤ 2 ^ f.exponent z :=
    zpow_le_zpow_right₀ one_le_two (by omega)
  have hle : (2 : ℚ) ^ f.exponent z ≤ z := f.exponent_le hz ((f.minExponent_le x).trans_lt h)
  have hunit := f.pow_div_ulp z 0
  simp only [Nat.cast_zero, add_zero] at hunit
  have hfloor : ((2 ^ f.digits : ℕ) : ℤ) ≤ ⌊z / f.ulp z⌋ := by
    rw [Int.le_floor, le_div_iff₀ hpos]
    push_cast
    rwa [← hunit]
  have hmany : (2 : ℚ) ^ f.digits ≤ ⌊z / f.ulp z⌋ := by exact_mod_cast hfloor
  refine ⟨(f.nearest_le_pow hx).trans (hbetween.trans hle), ?_⟩
  calc x < 2 ^ (f.exponent x + 1) := f.lt_exponent hx
    _ ≤ 2 ^ f.exponent z := hbetween
    _ = 2 ^ f.digits * f.ulp z := hunit
    _ ≤ (⌊z / f.ulp z⌋ + 1 / 2) * f.ulp z := mul_le_mul_of_nonneg_right (by linarith) hpos.le

/-- A number beyond the next power of two is far from the bound. -/
theorem lt_nearest_of_exponent_lt (hx : 0 ≤ x) (hz : 0 ≤ z) (h : f.exponent z < f.exponent x) :
    z < f.nearest x ∧ (⌊z / f.ulp z⌋ + 1 / 2) * f.ulp z < x := by
  have hpos := f.ulp_pos z
  have hbetween : (2 : ℚ) ^ (f.exponent z + 1) ≤ 2 ^ f.exponent x :=
    zpow_le_zpow_right₀ one_le_two (by omega)
  have hle : (2 : ℚ) ^ f.exponent x ≤ x := f.exponent_le hx ((f.minExponent_le z).trans_lt h)
  have hbeyond : z < 2 ^ f.exponent x := (f.lt_exponent hz).trans_le hbetween
  have hunit := f.pow_div_ulp z 1
  push_cast at hunit
  have hfloor : ⌊z / f.ulp z⌋ < ((2 ^ (f.digits + 1) : ℕ) : ℤ) := by
    rw [Int.floor_lt, div_lt_iff₀ hpos]
    push_cast
    rw [← hunit]
    exact f.lt_exponent hz
  have hfew : (⌊z / f.ulp z⌋ : ℚ) + 1 ≤ 2 ^ (f.digits + 1) := by exact_mod_cast hfloor
  refine ⟨hbeyond.trans_le (f.pow_le_nearest hle), ?_⟩
  calc (⌊z / f.ulp z⌋ + 1 / 2) * f.ulp z
      < 2 ^ (f.digits + 1) * f.ulp z := mul_lt_mul_of_pos_right (by linarith) hpos
    _ = 2 ^ (f.exponent z + 1) := hunit.symm
    _ ≤ 2 ^ f.exponent x := hbetween
    _ ≤ x := hle

/-- **When a number rounds to at most a bound.** -/
theorem nearest_le_iff (hx : 0 ≤ x) (hz : 0 ≤ z) : f.nearest x ≤ z ↔ f.WithinHalf x z := by
  rcases lt_trichotomy (f.exponent x) (f.exponent z) with hlt | heq | hgt
  · obtain ⟨hnearest, hhalf⟩ := f.nearest_le_of_exponent_lt hx hz hlt
    exact iff_of_true hnearest (Or.inl hhalf)
  · -- the two have the same unit, and the quotients by it are compared
    have hpos := f.ulp_pos z
    have hsame : f.ulp x = f.ulp z := by rw [ulp, heq, ulp]
    rw [nearest, WithinHalf, hsame, ← le_div_iff₀ hpos, ← Int.le_floor, roundEven_le_iff,
      div_lt_iff₀ hpos, div_eq_iff hpos.ne']
  · obtain ⟨hnearest, hhalf⟩ := f.lt_nearest_of_exponent_lt hx hz hgt
    refine iff_of_false hnearest.not_ge ?_
    rintro (hless | ⟨hequal, _⟩)
    · exact hhalf.not_gt hless
    · exact hhalf.ne' hequal

@[simp] theorem nearest_zero : f.nearest 0 = 0 := by
  have hzero : roundEven 0 = 0 := by simp [roundEven]
  rw [nearest, zero_div, hzero, Int.cast_zero, zero_mul]

/-- What is at least one is rounded to at least one. -/
theorem one_le_nearest (hf : f.minExponent < 0) (hx : 1 ≤ x) : 1 ≤ f.nearest x := by
  have hexp : 0 ≤ f.exponent x := f.le_exponent (by simpa using hx)
  have hpow : 2 ^ f.exponent x ≤ x := f.exponent_le (zero_le_one.trans hx) (by omega)
  exact (one_le_zpow₀ one_le_two hexp).trans (f.pow_le_nearest hpow)

/-- What is not too large is finite. -/
theorem ofRat_of_lt (hx : 0 ≤ x) (h : f.nearest x < 2 ^ f.maxExponent) :
    f.ofRat x = .finite (f.nearest x) := by
  rw [ofRat, if_pos (by rwa [abs_of_nonneg (f.nearest_nonneg hx)])]

theorem ofRat_of_ge (hx : 0 ≤ x) (h : 2 ^ f.maxExponent ≤ f.nearest x) :
    f.ofRat x = .infinite false := by
  rw [ofRat, if_neg (by rw [abs_of_nonneg (f.nearest_nonneg hx)]; exact h.not_gt)]
  simp [hx]

/-- A number that is not negative. -/
def Nonneg (x : Number) : Prop := x = .infinite false ∨ ∃ value, 0 ≤ value ∧ x = .finite value

theorem nonneg_ofRat (hx : 0 ≤ x) : Nonneg (f.ofRat x) := by
  rcases lt_or_ge (f.nearest x) (2 ^ f.maxExponent) with hlt | hge
  · exact Or.inr ⟨_, f.nearest_nonneg hx, f.ofRat_of_lt hx hlt⟩
  · exact Or.inl (f.ofRat_of_ge hx hge)

theorem Nonneg.add {a b : Number} (ha : Nonneg a) (hb : Nonneg b) : Nonneg (f.add a b) := by
  rcases ha with rfl | ⟨x, hx, rfl⟩
  · rcases hb with rfl | ⟨y, hy, rfl⟩
    · exact Or.inl rfl
    · exact Or.inl rfl
  · rcases hb with rfl | ⟨y, hy, rfl⟩
    · exact Or.inl rfl
    · exact f.nonneg_ofRat (add_nonneg hx hy)

/-- What a number that is not zero is multiplied with, if the product is finite. -/
theorem exists_of_mul_eq_finite (hx : x ≠ 0) {a : Number} (h : f.mul (.finite x) a = .finite z) :
    ∃ y, a = .finite y ∧ z = f.nearest (x * y) := by
  cases a with
  | finite y =>
      rw [mul, ofRat] at h
      split at h
      · exact ⟨y, rfl, (Number.finite.inj h).symm⟩
      · exact Number.noConfusion h
  | infinite negative =>
      rw [mul, if_neg hx] at h
      exact Number.noConfusion h
  | nan => exact Number.noConfusion h

end Format

end NearestFloat
