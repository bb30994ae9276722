import Mathlib.Data.List.TakeWhile
import Mathlib.Tactic
import StructurePipe.Lib.Delimited

/-!
# Numbers between fixed labels

A text that is made of numbers and labels, with a separator between the pairs, can be read back if
the labels are known: whatever the labels are, a number ends where the first symbol of its label and
separator that is no digit says so.

* `flatMap_zipIdx_separator` — a loop that writes the separator after every piece but the last joins
  the pieces;
* `append_cancel_digits` — the digits in front of a fixed text are determined;
* `numbers_inj` — **texts with the same labels have the same numbers.**
-/

namespace FixedLabels

open Delimited

variable {α β γ : Type*}

/-- A loop over a list with its indices, in which every piece but the last is followed by the
separator. -/
theorem flatMap_zipIdx_separator (piece : γ → ℕ → List α) (sep : List α) (xs : List γ) (k : ℕ) :
    ((xs.zipIdx k).flatMap fun e => piece e.1 e.2 ++ if e.2 + 1 < k + xs.length then sep else [])
      = sep.intercalate ((xs.zipIdx k).map fun e => piece e.1 e.2) := by
  induction xs generalizing k with
  | nil => rfl
  | cons x xs ih =>
      have hlength : k + (x :: xs).length = k + 1 + xs.length := by
        rw [List.length_cons]
        omega
      rw [List.zipIdx_cons, List.flatMap_cons, List.map_cons, hlength, ih (k + 1)]
      cases xs with
      | nil => simp
      | cons x' xs =>
          rw [if_pos (by simp), List.intercalate_cons_of_ne_nil (by simp)]

/-- A loop over a list that looks its indices up in another one goes through both together. -/
theorem zipIdx_map_getD {xs : List γ} {ys : List β} (h : ys.length = xs.length) (d : β) :
    (xs.zipIdx.map fun e => (e.1, ys.getD e.2 d)) = xs.zip ys := by
  refine List.ext_getElem (by simp [h]) fun i hi hi' => ?_
  have hlt : i < ys.length := by simpa [h] using hi
  simp [List.getElem?_eq_getElem hlt]

variable {isDigit : α → Bool}

/-- **The digits in front of a fixed text are determined**, if the text has a symbol that is no
digit. -/
theorem append_cancel_digits {a b m r r' : List α} (ha : ∀ c ∈ a, isDigit c) (hb : ∀ c ∈ b, isDigit c)
    (hm : ∃ c ∈ m, isDigit c = false) (h : a ++ (m ++ r) = b ++ (m ++ r')) : a = b ∧ r = r' := by
  have hstop : ∀ r, (m ++ r).takeWhile isDigit = m.takeWhile isDigit := by
    intro r
    obtain ⟨c, hc, hno⟩ := hm
    rw [List.takeWhile_append, if_neg]
    intro hlength
    have hall := List.takeWhile_eq_self_iff.mp
      ((List.takeWhile_prefix isDigit).eq_of_length hlength)
    exact absurd (hall c hc) (by simp [hno])
  have hdigits := congrArg (List.takeWhile isDigit) h
  rw [List.takeWhile_append_of_pos ha, List.takeWhile_append_of_pos hb, hstop, hstop] at hdigits
  have hab := List.append_cancel_right hdigits
  rw [hab] at h
  exact ⟨hab, List.append_cancel_left (List.append_cancel_left h)⟩

/-- With a separator after every label the texts are read from the front. -/
theorem numbers_inj_flatMap {digits : β → List α} (hdigits : ∀ n, ∀ c ∈ digits n, isDigit c)
    (hinj : Function.Injective digits) {sep : List α} (hsep : ∃ c ∈ sep, isDigit c = false)
    {labels : List (List α)} {ns ms : List β} (hns : ns.length = labels.length)
    (hms : ms.length = labels.length)
    (h : (labels.zipWith (fun l n => digits n ++ l) ns).flatMap (· ++ sep)
      = (labels.zipWith (fun l n => digits n ++ l) ms).flatMap (· ++ sep)) : ns = ms := by
  induction labels generalizing ns ms with
  | nil => rw [List.length_eq_zero_iff.mp hns, List.length_eq_zero_iff.mp hms]
  | cons l labels ih =>
      obtain ⟨n, ns, rfl⟩ := List.exists_cons_of_length_eq_add_one hns
      obtain ⟨m, ms, rfl⟩ := List.exists_cons_of_length_eq_add_one hms
      have hstop : ∃ c ∈ l ++ sep, isDigit c = false := by
        obtain ⟨c, hc, hno⟩ := hsep
        exact ⟨c, List.mem_append_right l hc, hno⟩
      rw [List.zipWith_cons_cons, List.zipWith_cons_cons, List.flatMap_cons, List.flatMap_cons,
        List.append_assoc (digits n), List.append_assoc (digits m), List.append_assoc (digits n),
        List.append_assoc (digits m)] at h
      obtain ⟨hnm, hrest⟩ := append_cancel_digits (hdigits n) (hdigits m) hstop h
      rw [hinj hnm, ih (Nat.succ.inj hns) (Nat.succ.inj hms) hrest]

/-- **Texts with the same labels have the same numbers.** -/
theorem numbers_inj {digits : β → List α} (hdigits : ∀ n, ∀ c ∈ digits n, isDigit c)
    (hinj : Function.Injective digits) {sep : List α} (hsep : ∃ c ∈ sep, isDigit c = false)
    {labels : List (List α)} {ns ms : List β} (hns : ns.length = labels.length)
    (hms : ms.length = labels.length)
    (h : sep.intercalate (labels.zipWith (fun l n => digits n ++ l) ns)
      = sep.intercalate (labels.zipWith (fun l n => digits n ++ l) ms)) : ns = ms := by
  rcases eq_or_ne labels [] with rfl | hlabels
  · rw [List.length_eq_zero_iff.mp hns, List.length_eq_zero_iff.mp hms]
  · have hne : ∀ ks : List β, ks.length = labels.length →
        labels.zipWith (fun l n => digits n ++ l) ks ≠ [] := by
      intro ks hks
      have hpos : 0 < labels.length := List.length_pos_iff.mpr hlabels
      rw [← List.length_pos_iff, List.length_zipWith]
      omega
    refine numbers_inj_flatMap hdigits hinj hsep hns hms ?_
    rw [← intercalate_append_self sep (hne ns hns), ← intercalate_append_self sep (hne ms hms), h]

end FixedLabels
