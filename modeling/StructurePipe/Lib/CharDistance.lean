import Mathlib.Algebra.BigOperators.Group.Finset.Basic
import Mathlib.Algebra.Order.BigOperators.Group.Finset
import Mathlib.Data.List.Basic
import Mathlib.Tactic

/-!
# Distances of lists and of families

Two lists are compared position by position, and each position of the longer one without a partner
counts like a difference.  Unlike the number of edits this is cheap to compute, and it is a metric all
the same.

Two families over a finite set of indices are as far apart as their members together.  If one is changed
at one index, the distance to the other grows by the size of the change at most, so a counter that adds
up the changes since a snapshot bounds the distance from the snapshot.

* `charDistance_triangle` — **the triangle inequality for lists**;
* `total_triangle`, `total_of_single`, `total_of_subset` — **that for families, the distance of two that
  differ at one index, and the freedom to add indices where they do not differ.**
-/

namespace CharDistance

/-! ### Lists -/

section Lists

variable {α : Type*} [DecidableEq α]

/-- The number of positions at which two lists differ, and the difference of their lengths. -/
def charDistance : List α → List α → ℕ
  | [], w => w.length
  | v, [] => v.length
  | a :: v, b :: w => (if a = b then 0 else 1) + charDistance v w

@[simp] theorem charDistance_nil_left (w : List α) : charDistance [] w = w.length := by
  rw [charDistance]

@[simp] theorem charDistance_nil_right (v : List α) : charDistance v [] = v.length := by
  cases v with
  | nil => rfl
  | cons a v => rw [charDistance]; simp

@[simp] theorem charDistance_cons_cons (a b : α) (v w : List α) :
    charDistance (a :: v) (b :: w) = (if a = b then 0 else 1) + charDistance v w := by
  rw [charDistance]

@[simp] theorem charDistance_self (v : List α) : charDistance v v = 0 := by
  induction v with
  | nil => rfl
  | cons a v ih => rw [charDistance_cons_cons, if_pos rfl, ih]

/-- A list is not longer than another by more than their distance. -/
theorem length_le_charDistance (v w : List α) : w.length ≤ v.length + charDistance v w := by
  induction v generalizing w with
  | nil => simp
  | cons a v ih =>
      cases w with
      | nil => simp
      | cons b w =>
          have hrest := ih w
          rw [charDistance_cons_cons, List.length_cons, List.length_cons]
          omega

theorem charDistance_comm (v w : List α) : charDistance v w = charDistance w v := by
  induction v generalizing w with
  | nil => simp
  | cons a v ih =>
      cases w with
      | nil => simp
      | cons b w =>
          rw [charDistance_cons_cons, charDistance_cons_cons, ih]
          simp only [eq_comm]

theorem charDistance_le_length (v w : List α) : charDistance v w ≤ v.length + w.length := by
  induction v generalizing w with
  | nil => simp
  | cons a v ih =>
      cases w with
      | nil => simp
      | cons b w =>
          have hrest := ih w
          rw [charDistance_cons_cons, List.length_cons, List.length_cons]
          split <;> omega

/-- **The triangle inequality.** -/
theorem charDistance_triangle (u v w : List α) :
    charDistance u w ≤ charDistance u v + charDistance v w := by
  induction v generalizing u w with
  | nil =>
      rw [charDistance_nil_right, charDistance_nil_left]
      exact charDistance_le_length u w
  | cons b v ih =>
      cases u with
      | nil =>
          rw [charDistance_nil_left, charDistance_nil_left]
          exact length_le_charDistance (b :: v) w
      | cons a u =>
          cases w with
          | nil =>
              rw [charDistance_nil_right, charDistance_nil_right, charDistance_comm, Nat.add_comm]
              exact length_le_charDistance (b :: v) (a :: u)
          | cons c w =>
              have hrest := ih u w
              have hhead : (if a = c then 0 else 1) ≤ (if a = b then 0 else 1) + (if b = c then 0 else 1) := by
                by_cases hab : a = b
                · rw [if_pos hab, hab, Nat.zero_add]
                · rw [if_neg hab]
                  split <;> omega
              rw [charDistance_cons_cons, charDistance_cons_cons, charDistance_cons_cons]
              omega

/-- Counting over the common positions, then comparing the lengths. -/
theorem charDistance_eq (v w : List α) :
    charDistance v w = (v.zip w).countP (fun p => p.1 != p.2)
      + ((v.length : ℤ) - (w.length : ℤ)).natAbs := by
  induction v generalizing w with
  | nil => simp
  | cons a v ih =>
      cases w with
      | nil =>
          rw [charDistance_nil_right, List.zip_nil_right, List.countP_nil, List.length_nil]
          omega
      | cons b w =>
          rw [charDistance_cons_cons, ih, List.zip_cons_cons, List.countP_cons, List.length_cons,
            List.length_cons]
          push_cast
          by_cases hab : a = b
          · simp [hab]
          · simp only [hab, if_false, bne_iff_ne, ne_eq, not_false_eq_true, if_true]
            omega

end Lists

/-! ### Families -/

section Families

variable {ι α : Type*} (δ : α → α → ℕ)

/-- The distances of the members together. -/
def total (s : Finset ι) (f g : ι → α) : ℕ := ∑ i ∈ s, δ (f i) (g i)

variable {δ} {s s' : Finset ι} {f g h : ι → α}

theorem total_of_agree (hself : ∀ x, δ x x = 0) (hagree : ∀ i ∈ s, f i = g i) : total δ s f g = 0 := by
  refine Finset.sum_eq_zero fun i hi => ?_
  rw [hagree i hi]
  exact hself (g i)

theorem total_triangle (htriangle : ∀ x y z, δ x z ≤ δ x y + δ y z) :
    total δ s f h ≤ total δ s f g + total δ s g h := by
  calc total δ s f h
      ≤ ∑ i ∈ s, (δ (f i) (g i) + δ (g i) (h i)) := Finset.sum_le_sum fun i _ => htriangle _ _ _
    _ = total δ s f g + total δ s g h := Finset.sum_add_distrib

/-- Indices where the families agree do not count. -/
theorem total_of_subset (hself : ∀ x, δ x x = 0) (hsub : s ⊆ s')
    (hagree : ∀ i ∈ s', i ∉ s → f i = g i) : total δ s f g = total δ s' f g := by
  refine Finset.sum_subset hsub fun i hi hni => ?_
  rw [hagree i hi hni]
  exact hself (g i)

/-- **Families that differ at one index.** -/
theorem total_of_single (hself : ∀ x, δ x x = 0) {i : ι} (hi : i ∈ s)
    (hagree : ∀ j ∈ s, j ≠ i → f j = g j) : total δ s f g = δ (f i) (g i) := by
  refine Finset.sum_eq_single_of_mem i hi fun j hj hne => ?_
  rw [hagree j hj hne]
  exact hself (g j)

theorem total_congr {δ' : α → α → ℕ} (heq : ∀ i ∈ s, δ (f i) (g i) = δ' (f i) (g i)) :
    total δ s f g = total δ' s f g := Finset.sum_congr rfl heq

/-- One member of a family is not further from its partner than the families are. -/
theorem member_le_total {i : ι} (hi : i ∈ s) : δ (f i) (g i) ≤ total δ s f g :=
  Finset.single_le_sum (f := fun i => δ (f i) (g i)) (fun _ _ => Nat.zero_le _) hi

end Families

end CharDistance
