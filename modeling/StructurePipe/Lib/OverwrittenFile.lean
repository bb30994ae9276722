import Mathlib.Data.List.Basic
import Mathlib.Tactic

/-!
# Files that are overwritten in place

A file is a list of bytes, written at a position: bytes already there are replaced, bytes past the
end extend the file, and a write that starts beyond the end fills the gap.  Nothing is ever
truncated, which is the whole difficulty: after a rewrite from the start the old tail is still
there unless the new content is at least as long.

* `overwrite` / `overwrite_overwrite` — consecutive writes compose to one write of the
  concatenation;
* `window` / `window_overwrite`, `window_overwrite_append` — what is read back between two
  positions after a write at the first, or at the end of the window;
* `overwrite_zero_eq_iff` — **a rewrite from the start leaves exactly the new content if and only
  if the new content is at least as long as the old one.**

The alphabet is an arbitrary type; nothing here depends on what the bytes mean.
-/

namespace OverwrittenFile

variable {α : Type*}

/-- The file after the bytes `bs` have been written at position `p`; `fill` is the byte a gap beyond
the end is filled with.  Writing no bytes changes nothing, wherever the position is. -/
def overwrite (fill : α) (f : List α) (p : ℕ) : List α → List α
  | [] => f
  | b :: bs => f.take p ++ List.replicate (p - f.length) fill ++ (b :: bs)
      ++ f.drop (p + (b :: bs).length)

@[simp] theorem overwrite_nil (fill : α) (f : List α) (p : ℕ) : overwrite fill f p [] = f := rfl

/-- At a position inside the file there is no gap to fill. -/
theorem overwrite_of_le (fill : α) {f : List α} {p : ℕ} (hp : p ≤ f.length) (bs : List α) :
    overwrite fill f p bs = f.take p ++ bs ++ f.drop (p + bs.length) := by
  cases bs with
  | nil => simp
  | cons b bs => simp [overwrite, Nat.sub_eq_zero_of_le hp]

theorem length_overwrite (fill : α) {f : List α} {p : ℕ} (hp : p ≤ f.length) (bs : List α) :
    (overwrite fill f p bs).length = max f.length (p + bs.length) := by
  rw [overwrite_of_le fill hp]
  simp only [List.length_append, List.length_take, List.length_drop]
  omega

theorem drop_overwrite (fill : α) {f : List α} {p : ℕ} (hp : p ≤ f.length) (bs : List α) :
    (overwrite fill f p bs).drop (p + bs.length) = f.drop (p + bs.length) := by
  have hlen : (f.take p ++ bs).length = p + bs.length := by
    rw [List.length_append, List.length_take, min_eq_left hp]
  rw [overwrite_of_le fill hp, ← hlen, List.drop_left]

/-- **Consecutive writes compose.**  Writing `a` and then `b` right behind it is one write. -/
theorem overwrite_overwrite (fill : α) {f : List α} {p : ℕ} (hp : p ≤ f.length) (a b : List α) :
    overwrite fill (overwrite fill f p a) (p + a.length) b = overwrite fill f p (a ++ b) := by
  have hp' : p + a.length ≤ (overwrite fill f p a).length := by
    rw [length_overwrite fill hp]; omega
  have htake : (overwrite fill f p a).take (p + a.length) = f.take p ++ a := by
    have hlen : (f.take p ++ a).length = p + a.length := by
      rw [List.length_append, List.length_take, min_eq_left hp]
    rw [overwrite_of_le fill hp, ← hlen, List.take_left]
  have hdrop : (overwrite fill f p a).drop (p + a.length + b.length)
      = f.drop (p + a.length + b.length) := by
    rw [← List.drop_drop, drop_overwrite fill hp, List.drop_drop]
  rw [overwrite_of_le fill hp', htake, hdrop, overwrite_of_le fill hp, List.length_append]
  simp [List.append_assoc, Nat.add_assoc]

/-! ### Reading back between two positions -/

/-- The bytes of the file from position `m` up to position `p`. -/
def window (f : List α) (m p : ℕ) : List α := (f.drop m).take (p - m)

theorem length_window {f : List α} {m p : ℕ} (hp : p ≤ f.length) :
    (window f m p).length = p - m := by
  rw [window, List.length_take, List.length_drop]; omega

/-- What was just written is what the window behind it shows. -/
theorem window_overwrite (fill : α) {f : List α} {p : ℕ} (hp : p ≤ f.length) (bs : List α) :
    window (overwrite fill f p bs) p (p + bs.length) = bs := by
  have hlen : (f.take p).length = p := by rw [List.length_take, min_eq_left hp]
  have hdrop : (f.take p ++ bs ++ f.drop (p + bs.length)).drop p
      = bs ++ f.drop (p + bs.length) := by
    rw [List.append_assoc]
    calc (f.take p ++ (bs ++ f.drop (p + bs.length))).drop p
        = (f.take p ++ (bs ++ f.drop (p + bs.length))).drop (f.take p).length := by rw [hlen]
      _ = bs ++ f.drop (p + bs.length) := List.drop_left
  rw [window, overwrite_of_le fill hp, hdrop, Nat.add_sub_cancel_left, List.take_left]

/-- A write at the end of a window appends to what the window shows. -/
theorem window_overwrite_append (fill : α) {f : List α} {m p : ℕ} (hm : m ≤ p)
    (hp : p ≤ f.length) (bs : List α) :
    window (overwrite fill f p bs) m (p + bs.length) = window f m p ++ bs := by
  have hlen : ((f.take p).drop m).length = p - m := by
    rw [List.length_drop, List.length_take, min_eq_left hp]
  have hdrop : (f.take p ++ bs ++ f.drop (p + bs.length)).drop m
      = (f.take p).drop m ++ bs ++ f.drop (p + bs.length) := by
    rw [List.append_assoc, List.drop_append_of_le_length (by simp [hp, hm]), List.append_assoc]
  rw [window, overwrite_of_le fill hp, hdrop,
    show p + bs.length - m = ((f.take p).drop m ++ bs).length by
      rw [List.length_append, hlen]; omega,
    List.take_left, window, List.drop_take]

/-! ### Rewriting a whole file without truncation -/

/-- A rewrite from the start keeps the old bytes behind the new content. -/
theorem overwrite_zero (fill : α) (f bs : List α) :
    overwrite fill f 0 bs = bs ++ f.drop bs.length := by
  rw [overwrite_of_le fill (Nat.zero_le _)]
  simp

/-- **No stale tail.**  A rewrite from the start leaves exactly the new content if and only if the
old content was not longer. -/
theorem overwrite_zero_eq_iff (fill : α) (f bs : List α) :
    overwrite fill f 0 bs = bs ↔ f.length ≤ bs.length := by
  rw [overwrite_zero, List.append_right_eq_self, List.drop_eq_nil_iff]

end OverwrittenFile
