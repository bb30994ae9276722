import Mathlib.Data.List.Basic
import Mathlib.Tactic

/-!
# Positions in texts

Texts are cut at the first position of a symbol, over an arbitrary alphabet.  A position found says how
the text is put together, and what is cut out from there is one of the parts.

* `find_append_cons` — the first position of a symbol is the length of what is in front of it;
* `substr_front`, `substr_behind`, `substr_between` — the parts of a text around its separators;
* `mem_behind_first` — what is behind any occurrence of a symbol is behind the first.
-/

namespace Substrings

variable {α : Type*}

/-- The part of a text from a position on, of at most so many symbols; `none` stands for a number that
is larger than any text is long. -/
def substr (s : List α) (pos : ℕ) (count : Option ℕ) : List α :=
  match count with
  | none => s.drop pos
  | some count => (s.drop pos).take count

theorem drop_append_cons (s t : List α) (c : α) : (s ++ c :: t).drop (s.length + 1) = t := by
  simp [List.drop_append]

/-- What is in front of a symbol. -/
theorem substr_front (s t : List α) (c : α) : substr (s ++ c :: t) 0 (some s.length) = s := by
  simp [substr]

/-- What is behind a symbol. -/
theorem substr_behind (s t : List α) (c : α) : substr (s ++ c :: t) (s.length + 1) none = t :=
  drop_append_cons s t c

/-- What is between two symbols. -/
theorem substr_between (s t u : List α) (c d : α) :
    substr (s ++ c :: (t ++ d :: u)) (s.length + 1) (some t.length) = t := by
  simp only [substr, drop_append_cons]
  simp

/-- What a text has behind any occurrence of a symbol, it has behind the first. -/
theorem mem_behind_first {c d : α} {a n x y : List α} (ha : c ∉ a) (h : a ++ c :: n = x ++ c :: y)
    (hd : d ∈ y) : d ∈ n := by
  rcases List.append_eq_append_iff.mp h with ⟨b, _, hn⟩ | ⟨b, rfl, hy⟩
  · -- the other occurrence is the first one or behind it
    cases b with
    | nil =>
        rw [List.nil_append] at hn
        rw [(List.cons.inj hn).2]
        exact hd
    | cons e b =>
        rw [(List.cons.inj hn).2]
        simp [hd]
  · cases b with
    | nil =>
        rw [List.nil_append] at hy
        rw [← (List.cons.inj hy).2]
        exact hd
    | cons e b =>
        rw [← (List.cons.inj hy).1] at ha
        exact absurd (by simp) ha

variable [DecidableEq α]

/-- The first position of a symbol, `none` if it does not occur. -/
def find (c : α) (s : List α) : Option ℕ := s.findIdx? (· == c)

theorem find_eq_none {c : α} {s : List α} (h : c ∉ s) : find c s = none := by
  rw [find, List.findIdx?_eq_none_iff]
  intro x hx
  simpa using fun heq : x = c => h (heq ▸ hx)

theorem find_append_cons {c : α} {s : List α} (h : c ∉ s) (t : List α) :
    find c (s ++ c :: t) = some s.length := by
  have hnone := find_eq_none h
  rw [find] at hnone
  rw [find, List.findIdx?_append, hnone, List.findIdx?_cons, beq_self_eq_true]
  simp

end Substrings
