import Mathlib.Data.List.Basic
import Mathlib.Tactic

/-!
# Delimited text

Pieces written one after the other with a delimiter between them, and nothing to mark a delimiter
that belongs to a piece.  The text can be cut back into its pieces if no piece shows the delimiter
before its own end.

* `Unmarked d p` — the delimiter `d`, written after the piece `p`, is not seen earlier;
* `Unmarked.append_inj` — **a text that starts with an unmarked piece and the delimiter determines
  both the piece and what follows;**
* `flatMap_append_inj` — so do pieces that each end with the delimiter;
* `intercalate_inj` — and joined pieces.
-/

namespace Delimited

variable {α β : Type*} {d : List α}

/-- After the piece the delimiter is seen for the first time. -/
def Unmarked (d p : List α) : Prop := ∀ s t, p ++ d = s ++ d ++ t → t = []

theorem Unmarked.length_le {p q x y : List α} (hp : Unmarked d p)
    (h : p ++ d ++ x = q ++ d ++ y) : p.length ≤ q.length := by
  by_contra hlt
  have hprefix : q ++ d <+: p ++ d := by
    refine List.prefix_of_prefix_length_le ⟨y, rfl⟩ ⟨x, h⟩ ?_
    simp only [List.length_append]
    omega
  obtain ⟨t, ht⟩ := hprefix
  have hlength := congrArg List.length ht
  rw [hp q t ht.symm] at hlength
  simp only [List.length_append, List.length_nil] at hlength
  omega

/-- **The first piece and the rest are determined.** -/
theorem Unmarked.append_inj {p q x y : List α} (hp : Unmarked d p) (hq : Unmarked d q)
    (h : p ++ d ++ x = q ++ d ++ y) : p = q ∧ x = y := by
  have hlength : p.length = q.length := le_antisymm (hp.length_le h) (hq.length_le h.symm)
  rw [List.append_assoc, List.append_assoc] at h
  obtain ⟨hpq, hrest⟩ := List.append_inj h hlength
  exact ⟨hpq, List.append_cancel_left hrest⟩

/-- A delimiter of one symbol is marked by the pieces that contain it. -/
theorem unmarked_singleton_iff (c : α) (p : List α) : Unmarked [c] p ↔ c ∉ p := by
  constructor
  · intro hp hc
    obtain ⟨s, t, rfl⟩ := List.append_of_mem hc
    have ht := hp s (t ++ [c]) (by simp)
    simp at ht
  · intro hc s t h
    rcases List.eq_nil_or_concat t with rfl | ⟨t, c', rfl⟩
    · rfl
    · have hfront : p = s ++ [c] ++ t :=
        (List.append_inj' (h.trans (by simp) : p ++ [c] = (s ++ [c] ++ t) ++ [c']) rfl).1
      exact absurd (by simp [hfront]) hc

/-- Pieces that each end with the delimiter. -/
theorem flatMap_append_inj (hd : d ≠ []) {f : β → List α} {as bs : List β}
    (ha : ∀ a ∈ as, Unmarked d (f a)) (hb : ∀ b ∈ bs, Unmarked d (f b))
    (hf : ∀ a ∈ as, ∀ b ∈ bs, f a = f b → a = b)
    (h : as.flatMap (fun a => f a ++ d) = bs.flatMap (fun b => f b ++ d)) : as = bs := by
  induction as generalizing bs with
  | nil =>
      cases bs with
      | nil => rfl
      | cons b bs => simp [hd] at h
  | cons a as ih =>
      cases bs with
      | nil => simp [hd] at h
      | cons b bs =>
          rw [List.flatMap_cons, List.flatMap_cons] at h
          obtain ⟨hhead, htail⟩ := (ha a (by simp)).append_inj (hb b (by simp)) h
          rw [hf a (by simp) b (by simp) hhead,
            ih (fun a' h' => ha a' (List.mem_cons_of_mem _ h'))
              (fun b' h' => hb b' (List.mem_cons_of_mem _ h'))
              (fun a' h' b' h'' => hf a' (List.mem_cons_of_mem _ h') b' (List.mem_cons_of_mem _ h''))
              htail]

/-- Pieces that each start with a mark, and a mark at the end: each of them ends with one, and there is
one in front. -/
theorem flatMap_cons_append_singleton (c : α) (f : β → List α) (as : List β) :
    as.flatMap (fun a => c :: f a) ++ [c] = c :: as.flatMap fun a => f a ++ [c] := by
  induction as with
  | nil => rfl
  | cons a as ih =>
      rw [List.flatMap_cons, List.append_assoc, ih]
      simp

/-- Every piece of a joined text but the first starts with the delimiter. -/
theorem intercalate_cons_eq (d a : List α) (as : List (List α)) :
    d.intercalate (a :: as) = a ++ as.flatMap (d ++ ·) := by
  induction as generalizing a with
  | nil => simp
  | cons a' as ih => rw [List.intercalate_cons_cons, ih, List.flatMap_cons, List.append_assoc, List.append_assoc]

/-- One more delimiter makes every piece of a joined text start with it. -/
theorem append_intercalate (d : List α) {as : List (List α)} (has : as ≠ []) :
    d ++ d.intercalate as = as.flatMap (d ++ ·) := by
  cases as with
  | nil => exact absurd rfl has
  | cons a as => rw [intercalate_cons_eq, List.flatMap_cons, List.append_assoc]

/-- One more delimiter makes every piece of a joined text end with it. -/
theorem intercalate_append_self (d : List α) {as : List (List α)} (has : as ≠ []) :
    d.intercalate as ++ d = as.flatMap (· ++ d) := by
  induction as with
  | nil => exact absurd rfl has
  | cons a as ih =>
      cases as with
      | nil => simp
      | cons a' as =>
          calc d.intercalate (a :: a' :: as) ++ d
              = a ++ d ++ (d.intercalate (a' :: as) ++ d) := by
                rw [List.intercalate_cons_cons, List.append_assoc]
            _ = (a :: a' :: as).flatMap (· ++ d) := by
                rw [ih (by simp)]
                simp

/-- **Joined pieces are determined by their text.** -/
theorem intercalate_inj (hd : d ≠ []) {as bs : List (List α)} (has : as ≠ []) (hbs : bs ≠ [])
    (ha : ∀ a ∈ as, Unmarked d a) (hb : ∀ b ∈ bs, Unmarked d b)
    (h : d.intercalate as = d.intercalate bs) : as = bs := by
  refine flatMap_append_inj hd ha hb (fun a _ b _ hab => hab) ?_
  rw [← intercalate_append_self d has, ← intercalate_append_self d hbs, h]

/-- A joined text has the symbols of its pieces and of the delimiter. -/
theorem notMem_intercalate {c : α} (hc : c ∉ d) {as : List (List α)} (has : ∀ a ∈ as, c ∉ a) :
    c ∉ d.intercalate as := by
  intro hmem
  rcases eq_or_ne as [] with rfl | hne
  · simp at hmem
  · have hflat : c ∈ as.flatMap (· ++ d) :=
      intercalate_append_self d hne ▸ List.mem_append_left d hmem
    obtain ⟨a, ha, hca⟩ := List.mem_flatMap.mp hflat
    rcases List.mem_append.mp hca with hca | hcd
    · exact has a ha hca
    · exact hc hcd

end Delimited
