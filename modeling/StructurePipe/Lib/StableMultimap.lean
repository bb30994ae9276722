import Mathlib.Data.List.Sort
import Mathlib.Tactic

/-!
# Sorted containers that keep equal keys

A multimap is a list of entries in ascending order of their keys; a new entry goes behind the entries
with the same key.  Keys are compared, values are not.

* `foldl_insert` — **inserting one entry after the other sorts them stably:** the result is the
  insertion sort of the whole list;
* `take_insert_take` — an entry that was cut off never comes back: cutting after every insert is
  cutting once at the end;
* `keys_insertionSort` — the keys of a sorted list do not depend on the order of arrival;
* `Sorted.take_filter_lt` — cutting and selecting what is below a bound can change places;
* `best_flatMap`, `insertionSort_flatMap` — parts can be sorted and cut before the whole.
-/

namespace StableMultimap

variable {κ ν : Type*} [LinearOrder κ]

/-- A multimap as the list of its entries. -/
abbrev Multimap (κ ν : Type*) := List (κ × ν)

def keyLT (a b : κ × ν) : Prop := a.1 < b.1

def keyLE (a b : κ × ν) : Prop := a.1 ≤ b.1

instance : DecidableRel (keyLT : κ × ν → κ × ν → Prop) :=
  fun a b => inferInstanceAs (Decidable (a.1 < b.1))

instance : DecidableRel (keyLE : κ × ν → κ × ν → Prop) :=
  fun a b => inferInstanceAs (Decidable (a.1 ≤ b.1))

instance : IsTrans (κ × ν) keyLE := ⟨fun _ _ _ hab hbc => le_trans hab hbc⟩

instance : Std.Total (keyLE : κ × ν → κ × ν → Prop) := ⟨fun a b => le_total a.1 b.1⟩

/-- Insert an entry in front of the first one with a larger key. -/
def insert (e : κ × ν) (m : Multimap κ ν) : Multimap κ ν := m.orderedInsert keyLT e

/-- In ascending order of the keys. -/
def Sorted (m : Multimap κ ν) : Prop := m.Pairwise keyLE

theorem perm_insert (e : κ × ν) (m : Multimap κ ν) : (insert e m).Perm (e :: m) :=
  List.perm_orderedInsert keyLT e m

theorem mem_insert {e e' : κ × ν} {m : Multimap κ ν} : e' ∈ insert e m ↔ e' = e ∨ e' ∈ m :=
  List.mem_orderedInsert keyLT

@[simp] theorem length_insert (e : κ × ν) (m : Multimap κ ν) :
    (insert e m).length = m.length + 1 :=
  List.orderedInsert_length keyLT m e

theorem insert_ne_nil (e : κ × ν) (m : Multimap κ ν) : insert e m ≠ [] := by
  rw [← List.length_pos_iff, length_insert]
  omega

theorem insert_cons (e x : κ × ν) (m : Multimap κ ν) :
    insert e (x :: m) = if e.1 < x.1 then e :: x :: m else x :: insert e m :=
  List.orderedInsert_cons keyLT e x m

/-- A new lowest entry goes to the front. -/
theorem insert_of_lt {e : κ × ν} {m : Multimap κ ν} (h : ∀ x ∈ m, e.1 < x.1) :
    insert e m = e :: m := by
  cases m with
  | nil => rfl
  | cons x m => rw [insert_cons, if_pos (h x (by simp))]

theorem Sorted.insert {m : Multimap κ ν} (h : Sorted m) (e : κ × ν) : Sorted (insert e m) := by
  induction m with
  | nil => exact List.pairwise_singleton _ _
  | cons x m ih =>
      obtain ⟨hx, hm⟩ := List.pairwise_cons.mp h
      rw [insert_cons]
      split
      · next hlt =>
          refine List.pairwise_cons.mpr ⟨fun y hy => ?_, h⟩
          rcases List.mem_cons.mp hy with rfl | hy
          · exact hlt.le
          · exact hlt.le.trans (hx y hy)
      · next hge =>
          refine List.pairwise_cons.mpr ⟨fun y hy => ?_, ih hm⟩
          rcases mem_insert.mp hy with rfl | hy
          · exact not_lt.mp hge
          · exact hx y hy

/-! ### Sorting online -/

/-- An entry that arrived earlier can be inserted later, in front of its equals. -/
theorem orderedInsert_insert (a b : κ × ν) (m : Multimap κ ν) :
    (insert b m).orderedInsert keyLE a = insert b (m.orderedInsert keyLE a) := by
  induction m with
  | nil =>
      simp only [insert, List.orderedInsert_nil, List.orderedInsert_cons, keyLE, keyLT]
      by_cases hab : a.1 ≤ b.1
      · rw [if_pos hab, if_neg (not_lt.mpr hab)]
      · rw [if_neg hab, if_pos (not_le.mp hab)]
  | cons x m ih =>
      rw [insert_cons, List.orderedInsert_cons]
      by_cases hax : a.1 ≤ x.1
      · by_cases hbx : b.1 < x.1
        · rw [if_pos hbx, if_pos (show keyLE a x from hax), List.orderedInsert_cons, insert_cons,
            insert_cons, if_pos hbx]
          by_cases hab : a.1 ≤ b.1
          · rw [if_pos (show keyLE a b from hab), if_neg (not_lt.mpr hab)]
          · rw [if_neg (show ¬ keyLE a b from hab), if_pos (not_le.mp hab),
              List.orderedInsert_cons, if_pos (show keyLE a x from hax)]
        · have hab : ¬ b.1 < a.1 := not_lt.mpr (hax.trans (not_lt.mp hbx))
          rw [if_neg hbx, if_pos (show keyLE a x from hax), List.orderedInsert_cons,
            if_pos (show keyLE a x from hax), insert_cons, if_neg hab, insert_cons, if_neg hbx]
      · have hxa : x.1 < a.1 := not_le.mp hax
        by_cases hbx : b.1 < x.1
        · have hab : ¬ a.1 ≤ b.1 := not_le.mpr (hbx.trans hxa)
          rw [if_pos hbx, if_neg (show ¬ keyLE a x from hax), List.orderedInsert_cons,
            if_neg (show ¬ keyLE a b from hab), List.orderedInsert_cons,
            if_neg (show ¬ keyLE a x from hax), insert_cons, if_pos hbx]
        · rw [if_neg hbx, if_neg (show ¬ keyLE a x from hax), List.orderedInsert_cons,
            if_neg (show ¬ keyLE a x from hax), insert_cons, if_neg hbx, ih]

/-- **Inserting one entry after the other is a stable sort.** -/
theorem foldl_insert (l : List (κ × ν)) :
    l.foldl (fun m e => insert e m) [] = l.insertionSort keyLE := by
  have hpush : ∀ (l : List (κ × ν)) (a : κ × ν) (m : Multimap κ ν),
      l.foldl (fun m e => insert e m) (m.orderedInsert keyLE a)
        = (l.foldl (fun m e => insert e m) m).orderedInsert keyLE a := by
    intro l a
    induction l with
    | nil => intro m; rfl
    | cons b l ih =>
        intro m
        rw [List.foldl_cons, List.foldl_cons, ← orderedInsert_insert, ih]
  induction l with
  | nil => rfl
  | cons a l ih =>
      calc (a :: l).foldl (fun m e => insert e m) []
          = l.foldl (fun m e => insert e m) (([] : Multimap κ ν).orderedInsert keyLE a) := rfl
        _ = (l.insertionSort keyLE).orderedInsert keyLE a := by rw [hpush, ih]
        _ = (a :: l).insertionSort keyLE := rfl

/-- **Cutting after an insert does not depend on what was cut before.** -/
theorem take_insert_take (e : κ × ν) (m : Multimap κ ν) (n : ℕ) :
    (insert e (m.take n)).take n = (insert e m).take n := by
  induction m generalizing n with
  | nil => simp
  | cons x m ih =>
      cases n with
      | zero => simp
      | succ n =>
          rw [List.take_succ_cons, insert_cons, insert_cons]
          split
          · cases n with
            | zero => rfl
            | succ n =>
                simp only [List.take_succ_cons, List.take_take]
                rw [min_eq_left (Nat.le_succ n)]
          · rw [List.take_succ_cons, List.take_succ_cons, ih]

/-- The keys of the sorted list depend on the collection only. -/
theorem keys_insertionSort {l l' : List (κ × ν)} (h : l.Perm l') :
    (l.insertionSort keyLE).map Prod.fst = (l'.insertionSort keyLE).map Prod.fst := by
  have hsorted : ∀ l : List (κ × ν), ((l.insertionSort keyLE).map Prod.fst).Pairwise (· ≤ ·) :=
    fun l => List.pairwise_map.mpr (List.pairwise_insertionSort keyLE l)
  have hperm : ((l.insertionSort keyLE).map Prod.fst).Perm ((l'.insertionSort keyLE).map Prod.fst) :=
    (((List.perm_insertionSort keyLE l).trans h).trans
      (List.perm_insertionSort keyLE l').symm).map Prod.fst
  exact hperm.eq_of_pairwise (fun a b _ _ hab hba => le_antisymm hab hba) (hsorted l) (hsorted l')

/-! ### Parts of a sorted list -/

theorem insertionSort_concat (l : List (κ × ν)) (e : κ × ν) :
    (l ++ [e]).insertionSort keyLE = insert e (l.insertionSort keyLE) := by
  rw [← foldl_insert, ← foldl_insert, List.foldl_append]
  rfl

/-- An insert keeps the order of two containers of which one is a part of the other. -/
theorem insert_sublist_insert {m m' : Multimap κ ν} (hsorted : Sorted m') (h : m.Sublist m')
    (e : κ × ν) : (insert e m).Sublist (insert e m') := by
  induction h with
  | slnil => exact List.Sublist.refl _
  | @cons m m' x hsub ih =>
      obtain ⟨hx, hm'⟩ := List.pairwise_cons.mp hsorted
      rw [insert_cons]
      split
      · next hlt =>
          rw [insert_of_lt fun y hy => hlt.trans_le (hx y (hsub.subset hy))]
          exact (hsub.cons x).cons_cons e
      · exact (ih hm').cons x
  | @cons_cons m m' x hsub ih =>
      obtain ⟨_, hm'⟩ := List.pairwise_cons.mp hsorted
      rw [insert_cons, insert_cons]
      split
      · exact (hsub.cons_cons x).cons_cons e
      · exact (ih hm').cons_cons x

/-- Nothing is below a bound that the first entry is not below. -/
theorem Sorted.filter_lt_eq_nil {x : κ × ν} {m : Multimap κ ν} (h : Sorted (x :: m)) {bound : κ}
    (hx : ¬ x.1 < bound) {l : Multimap κ ν} (hl : l.Sublist (x :: m)) :
    l.filter (fun e => e.1 < bound) = [] := by
  rw [List.filter_eq_nil_iff]
  intro y hy
  rcases List.mem_cons.mp (hl.subset hy) with rfl | hy
  · simpa using hx
  · have hle : x.1 ≤ y.1 := (List.pairwise_cons.mp h).1 y hy
    simpa using (not_lt.mp hx).trans hle

/-- What is below a bound comes first in a sorted list, -/
theorem Sorted.exists_filter_lt_eq_take {m : Multimap κ ν} (h : Sorted m) (bound : κ) :
    ∃ k, m.filter (fun e => e.1 < bound) = m.take k := by
  induction m with
  | nil => exact ⟨0, rfl⟩
  | cons x m ih =>
      by_cases hlt : x.1 < bound
      · obtain ⟨k, hk⟩ := ih (List.pairwise_cons.mp h).2
        refine ⟨k + 1, ?_⟩
        rw [List.filter_cons_of_pos (by simpa using hlt), hk, List.take_succ_cons]
      · refine ⟨0, ?_⟩
        rw [h.filter_lt_eq_nil hlt (List.Sublist.refl _), List.take_zero]

/-- so that cutting the list and selecting these can be done in either order. -/
theorem Sorted.take_filter_lt {m : Multimap κ ν} (h : Sorted m) (bound : κ) (n : ℕ) :
    (m.filter fun e => e.1 < bound).take n = (m.take n).filter fun e => e.1 < bound := by
  induction m generalizing n with
  | nil => simp
  | cons x m ih =>
      cases n with
      | zero => simp
      | succ n =>
          by_cases hlt : x.1 < bound
          · rw [List.take_succ_cons, List.filter_cons_of_pos (by simpa using hlt),
              List.filter_cons_of_pos (by simpa using hlt), List.take_succ_cons,
              ih (List.pairwise_cons.mp h).2]
          · rw [h.filter_lt_eq_nil hlt (List.Sublist.refl _),
              h.filter_lt_eq_nil hlt (List.take_sublist _ _), List.take_nil]

/-! ### Sorting in rounds -/

theorem insertionSort_append (l l' : List (κ × ν)) :
    (l ++ l').insertionSort keyLE = l'.foldl (fun m e => insert e m) (l.insertionSort keyLE) := by
  rw [← foldl_insert, ← foldl_insert, List.foldl_append]

theorem insertionSort_append' (l l' : List (κ × ν)) :
    (l ++ l').insertionSort keyLE = l.foldr (List.orderedInsert keyLE) (l'.insertionSort keyLE) := by
  induction l with
  | nil => rfl
  | cons e l ih => rw [List.cons_append, List.insertionSort_cons, ih, List.foldr_cons]

theorem insertionSort_idem (l : List (κ × ν)) :
    (l.insertionSort keyLE).insertionSort keyLE = l.insertionSort keyLE :=
  (List.pairwise_insertionSort keyLE l).insertionSort_eq

/-- **Parts that are sorted before** make no difference. -/
theorem insertionSort_flatMap (batches : List (List (κ × ν))) :
    (batches.flatMap fun l => l.insertionSort keyLE).insertionSort keyLE
      = batches.flatten.insertionSort keyLE := by
  induction batches with
  | nil => rfl
  | cons l batches ih =>
      rw [List.flatMap_cons, List.flatten_cons, insertionSort_append, insertionSort_idem,
        ← insertionSort_append, insertionSort_append', ih, ← insertionSort_append']

/-- Selecting entries and sorting can be done in either order. -/
theorem filter_insertionSort (q : κ × ν → Bool) (l : List (κ × ν)) :
    (l.insertionSort keyLE).filter q = (l.filter q).insertionSort keyLE := by
  have hinsert : ∀ (e : κ × ν) {m : Multimap κ ν}, Sorted m →
      (m.orderedInsert keyLE e).filter q
        = if q e then (m.filter q).orderedInsert keyLE e else m.filter q := by
    intro e m hm
    induction m with
    | nil => cases hq : q e <;> simp [hq]
    | cons x m ih =>
        obtain ⟨hx, hm'⟩ := List.pairwise_cons.mp hm
        rw [List.orderedInsert_cons]
        by_cases hle : keyLE e x
        · rw [if_pos hle, List.filter_cons]
          split
          · next hq =>
              -- the entry stays in front of those that are left
              have hfront : ∀ y ∈ (x :: m).filter q, keyLE e y := by
                intro y hy
                rcases List.mem_cons.mp (List.mem_filter.mp hy).1 with rfl | hy
                · exact hle
                · exact le_trans hle (hx y hy)
              cases hrest : (x :: m).filter q with
              | nil => rfl
              | cons y ys =>
                  rw [List.orderedInsert_cons, if_pos (hfront y (by simp [hrest]))]
          · rfl
        · rw [if_neg hle, List.filter_cons, ih hm', List.filter_cons]
          cases hqx : q x <;> cases hqe : q e <;> simp [hle]
  induction l with
  | nil => rfl
  | cons e l ih =>
      rw [List.insertionSort_cons, hinsert e (List.pairwise_insertionSort keyLE l), ih,
        List.filter_cons]
      split <;> rfl

/-- The first entries of the sorted list. -/
def best (n : ℕ) (l : List (κ × ν)) : Multimap κ ν := (l.insertionSort keyLE).take n

theorem sorted_best (n : ℕ) (l : List (κ × ν)) : Sorted (best n l) :=
  (List.pairwise_insertionSort keyLE l).sublist (List.take_sublist n _)

theorem best_idem (m n : ℕ) (l : List (κ × ν)) : best m (best n l) = best (min m n) l := by
  rw [best, (sorted_best n l).insertionSort_eq, best, List.take_take, best]

/-- The same for entries that arrived before the others. -/
theorem take_orderedInsert_take (e : κ × ν) (m : Multimap κ ν) (n : ℕ) :
    ((m.take n).orderedInsert keyLE e).take n = (m.orderedInsert keyLE e).take n := by
  induction m generalizing n with
  | nil => simp
  | cons x m ih =>
      cases n with
      | zero => simp
      | succ n =>
          rw [List.take_succ_cons, List.orderedInsert_cons, List.orderedInsert_cons]
          split
          · cases n with
            | zero => rfl
            | succ n =>
                simp only [List.take_succ_cons, List.take_take]
                rw [min_eq_left (Nat.le_succ n)]
          · rw [List.take_succ_cons, List.take_succ_cons, ih]

theorem best_append_left (n : ℕ) (l l' : List (κ × ν)) : best n (best n l ++ l') = best n (l ++ l') := by
  have hfold : ∀ m : Multimap κ ν, (l'.foldl (fun m e => insert e m) (m.take n)).take n
      = (l'.foldl (fun m e => insert e m) m).take n := by
    intro m
    induction l' using List.reverseRecOn with
    | nil => simp
    | append_singleton l' e ih =>
        simp only [List.foldl_append, List.foldl_cons, List.foldl_nil]
        rw [← take_insert_take, ih, take_insert_take]
  rw [best, insertionSort_append, (sorted_best n l).insertionSort_eq, best, hfold, best,
    insertionSort_append]

theorem best_append_right (n : ℕ) (l l' : List (κ × ν)) :
    best n (l ++ best n l') = best n (l ++ l') := by
  have hfold : ∀ m : Multimap κ ν, (l.foldr (List.orderedInsert keyLE) (m.take n)).take n
      = (l.foldr (List.orderedInsert keyLE) m).take n := by
    intro m
    induction l with
    | nil => simp
    | cons e l ih =>
        simp only [List.foldr_cons]
        rw [← take_orderedInsert_take, ih, take_orderedInsert_take]
  rw [best, insertionSort_append', (sorted_best n l').insertionSort_eq, best, hfold, best,
    insertionSort_append']

/-- **The best of the best of each part** are the best of all. -/
theorem best_flatMap (n : ℕ) (batches : List (List (κ × ν))) :
    best n (batches.flatMap (best n)) = best n batches.flatten := by
  induction batches with
  | nil => rfl
  | cons l batches ih =>
      rw [List.flatMap_cons, List.flatten_cons, best_append_left, ← best_append_right, ih,
        best_append_right]

end StableMultimap
