import Mathlib.Data.Rat.Defs
import Mathlib.Tactic

/-!
# Division of floating-point numbers

What a division can do apart from rounding: the quotient of two finite numbers is a finite number
unless the divisor is zero, and then it is infinite, or not a number at all if the dividend is zero as
well.  The sign of a zero is left out; a zero divisor counts as positive.

The comparison is the one that ordered containers use.  It is a total order of the finite numbers, and
false of everything that is not a number.

* `ordinary_div_iff` — **a quotient is an ordinary number exactly if the divisor is not zero;**
* `comparable_of_ordinary`, `not_comparable_nan` — ordinary numbers are totally ordered, and
  something that is not a number has no place in that order.
-/

namespace IeeeDivision

inductive Number where
  | finite (value : ℚ)
  | infinite (negative : Bool)
  | nan
deriving DecidableEq, Repr

namespace Number

def div : Number → Number → Number
  | nan, _ => nan
  | _, nan => nan
  | finite x, finite y =>
      if y ≠ 0 then finite (x / y)
      else if x = 0 then nan
      else infinite (decide (x < 0))
  | infinite negative, finite y => infinite (negative ^^ decide (y < 0))
  | finite _, infinite _ => finite 0
  | infinite _, infinite _ => nan

/-- `x < y`. -/
def lt : Number → Number → Bool
  | finite x, finite y => decide (x < y)
  | finite _, infinite negative => !negative
  | infinite negative, finite _ => negative
  | infinite negative, infinite negative' => negative && !negative'
  | _, _ => false

/-- A finite number. -/
def Ordinary (x : Number) : Prop := ∃ value, x = finite value

/-- One of the two is smaller, or they are equal, which nothing is that is not a number. -/
def Comparable (x y : Number) : Prop := lt x y = true ∨ (x = y ∧ x ≠ nan) ∨ lt y x = true

theorem ordinary_finite (value : ℚ) : Ordinary (finite value) := ⟨value, rfl⟩

theorem div_finite (x : ℚ) {y : ℚ} (hy : y ≠ 0) : div (finite x) (finite y) = finite (x / y) := by
  rw [div, if_pos hy]

theorem div_zero (x : ℚ) :
    div (finite x) (finite 0) = if x = 0 then nan else infinite (decide (x < 0)) := by
  rw [div, if_neg (not_not.mpr rfl)]

/-- **When a quotient is an ordinary number.** -/
theorem ordinary_div_iff (x y : ℚ) : Ordinary (div (finite x) (finite y)) ↔ y ≠ 0 := by
  constructor
  · rintro ⟨value, hvalue⟩ rfl
    rw [div_zero] at hvalue
    split at hvalue
    · exact Number.noConfusion hvalue
    · exact Number.noConfusion hvalue
  · intro hy
    exact ⟨x / y, div_finite x hy⟩

/-- Ordinary numbers are totally ordered. -/
theorem comparable_of_ordinary {x y : Number} (hx : Ordinary x) (hy : Ordinary y) :
    Comparable x y := by
  obtain ⟨a, rfl⟩ := hx
  obtain ⟨b, rfl⟩ := hy
  rcases lt_trichotomy a b with hlt | heq | hgt
  · exact Or.inl (decide_eq_true hlt)
  · exact Or.inr (Or.inl ⟨congrArg finite heq, by simp⟩)
  · exact Or.inr (Or.inr (decide_eq_true hgt))

/-- What is not a number has no place in the order. -/
theorem not_comparable_nan (x : Number) : ¬ Comparable nan x := by
  rintro (hlt | ⟨_, hne⟩ | hgt)
  · cases x <;> simp [lt] at hlt
  · exact hne rfl
  · cases x <;> simp [lt] at hgt

end Number

end IeeeDivision
