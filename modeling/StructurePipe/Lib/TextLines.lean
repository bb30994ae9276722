import Mathlib.Data.List.TakeWhile
import Mathlib.Tactic

/-!
# Text as lines

Reading a text line by line and writing it back.  The alphabet is an arbitrary type with one
distinguished symbol `nl` that ends a line; a text whose last line lacks it is *unterminated*, and
that is where line-based rewriting goes wrong.

* `getLine` — one line and the rest, `none` at the end of the text;
* `lines` — all lines; `unlines` — the lines written back, each one terminated;
* `lines_append` — **lines of a concatenation split at the seam if the front is terminated**;
* `lines_append_unterminated` — and what the seam does otherwise: the two lines there merge;
* `intercalate_append` — the joined text of a split list.
-/

namespace TextLines

variable {α : Type*}

/-! ### Joining -/

/-- A joined list splits at any inner point, with one delimiter at the seam. -/
theorem intercalate_append (d : List α) {as bs : List (List α)} (ha : as ≠ []) (hb : bs ≠ []) :
    d.intercalate (as ++ bs) = d.intercalate as ++ d ++ d.intercalate bs := by
  induction as with
  | nil => exact absurd rfl ha
  | cons a as ih =>
      cases as with
      | nil => simp [List.intercalate_cons_of_ne_nil hb]
      | cons a' as =>
          have hne : (a' :: as) ++ bs ≠ [] := by simp
          rw [List.cons_append, List.intercalate_cons_of_ne_nil hne, ih (by simp),
            List.intercalate_cons_of_ne_nil (by simp : a' :: as ≠ [])]
          simp only [List.append_assoc]

/-! ### Terminated texts -/

section Terminated

variable (nl : α)

/-- The text of a list of lines, every line terminated. -/
def unlines (ls : List (List α)) : List α := ls.flatMap (· ++ [nl])

/-- A text every line of which is terminated. -/
def Terminated (s : List α) : Prop := s = [] ∨ s.getLast? = some nl

instance [DecidableEq α] (s : List α) : Decidable (Terminated nl s) :=
  inferInstanceAs (Decidable (_ ∨ _))

theorem unlines_cons (l : List α) (ls : List (List α)) :
    unlines nl (l :: ls) = l ++ nl :: unlines nl ls := by
  simp [unlines]

theorem unlines_append (ls ms : List (List α)) :
    unlines nl (ls ++ ms) = unlines nl ls ++ unlines nl ms := by
  simp [unlines]

/-- Terminated texts are closed under taking suffixes. -/
theorem Terminated.of_append {s t : List α} (h : Terminated nl (s ++ t)) : Terminated nl t := by
  rcases eq_or_ne t [] with rfl | ht
  · exact Or.inl rfl
  · rcases h with h | h
    · exact absurd (List.append_eq_nil_iff.mp h).2 ht
    · right
      rwa [List.getLast?_append_of_ne_nil _ ht] at h

theorem Terminated.append {s t : List α} (hs : Terminated nl s) (ht : Terminated nl t) :
    Terminated nl (s ++ t) := by
  rcases ht with rfl | ht
  · simpa using hs
  · right
    rw [List.getLast?_append, ht]
    rfl

theorem terminated_unlines (ls : List (List α)) : Terminated nl (unlines nl ls) := by
  induction ls using List.reverseRecOn with
  | nil => exact Or.inl rfl
  | append_singleton ls l _ =>
      right
      simp [unlines]

/-- A terminated text is empty or a terminated line followed by a terminated text. -/
theorem Terminated.cases_line {s : List α} (h : Terminated nl s) (hne : s ≠ []) :
    ∃ l t, s = l ++ nl :: t ∧ nl ∉ l ∧ Terminated nl t := by
  have hmem : nl ∈ s := by
    rcases h with h | h
    · exact absurd h hne
    · exact List.mem_of_getLast? h
  obtain ⟨l, t, rfl, hl⟩ := List.eq_append_cons_of_mem hmem
  refine ⟨l, t, rfl, hl, ?_⟩
  have h' : Terminated nl ((l ++ [nl]) ++ t) := by simpa using h
  exact h'.of_append

end Terminated

/-! ### Lines -/

section Lines

variable [DecidableEq α] (nl : α)

/-- Read one line: the symbols up to the next `nl`, which is consumed but not part of the line.
There is a line as long as there is at least one symbol left. -/
def getLine (s : List α) : Option (List α × List α) :=
  match s with
  | [] => none
  | _ => some (s.takeWhile (· ≠ nl), (s.dropWhile (· ≠ nl)).tail)

/-- The lines of a text.  The empty text has none; a final line needs no `nl`. -/
def lines : List α → List (List α)
  | [] => []
  | c :: cs =>
      if c = nl then [] :: lines cs
      else
        match lines cs with
        | [] => [[c]]
        | l :: ls => (c :: l) :: ls

@[simp] theorem lines_nil : lines nl [] = [] := rfl

@[simp] theorem lines_nl (s : List α) : lines nl (nl :: s) = [] :: lines nl s := by
  simp [lines]

/-- A symbol put in front of a text extends its first line. -/
theorem lines_cons_of_ne {c : α} (hc : c ≠ nl) (s : List α) :
    lines nl (c :: s) = (c :: (lines nl s).head?.getD []) :: (lines nl s).tail := by
  rw [lines, if_neg hc]
  cases lines nl s <;> rfl

theorem lines_eq_nil_iff (s : List α) : lines nl s = [] ↔ s = [] := by
  cases s with
  | nil => simp
  | cons c s =>
      by_cases hc : c = nl
      · simp [hc]
      · simp [lines_cons_of_ne nl hc]

/-- A terminated line in front of a text is its first line. -/
theorem lines_append_nl {l : List α} (hl : nl ∉ l) (s : List α) :
    lines nl (l ++ nl :: s) = l :: lines nl s := by
  induction l with
  | nil => simp
  | cons c l ih =>
      rw [List.mem_cons, not_or] at hl
      rw [List.cons_append, lines_cons_of_ne nl (Ne.symm hl.1), ih hl.2]
      simp

/-- A text without `nl` is a single unterminated line. -/
theorem lines_of_notMem {l : List α} (hl : nl ∉ l) (hne : l ≠ []) : lines nl l = [l] := by
  induction l with
  | nil => exact absurd rfl hne
  | cons c l ih =>
      rw [List.mem_cons, not_or] at hl
      rw [lines_cons_of_ne nl (Ne.symm hl.1)]
      cases l with
      | nil => simp
      | cons c' l => simp [ih hl.2 (by simp)]

/-- No line contains `nl`. -/
theorem notMem_of_mem_lines {s l : List α} (hl : l ∈ lines nl s) : nl ∉ l := by
  induction s generalizing l with
  | nil => simp at hl
  | cons c s ih =>
      by_cases hc : c = nl
      · subst hc
        rcases List.mem_cons.mp (by simpa using hl) with rfl | hl
        · simp
        · exact ih hl
      · rw [lines_cons_of_ne nl hc] at hl
        have hhead : nl ∉ (lines nl s).head?.getD [] := by
          cases hs : lines nl s with
          | nil => simp
          | cons l' ls => exact ih (by simp [hs])
        rcases List.mem_cons.mp hl with rfl | hl
        · simp [Ne.symm hc, hhead]
        · exact ih (List.mem_of_mem_tail hl)

/-- **The seam.**  Behind a terminated text the lines of a text are unchanged. -/
theorem lines_append {s : List α} (hs : Terminated nl s) (t : List α) :
    lines nl (s ++ t) = lines nl s ++ lines nl t := by
  induction hn : s.length using Nat.strong_induction_on generalizing s with
  | _ n ih =>
    rcases eq_or_ne s [] with rfl | hne
    · simp
    · obtain ⟨l, u, rfl, hl, hu⟩ := hs.cases_line nl hne
      have hlt : u.length < n := by
        rw [← hn, List.length_append, List.length_cons]; omega
      rw [List.append_assoc, List.cons_append, lines_append_nl nl hl, lines_append_nl nl hl,
        ih _ hlt hu rfl, List.cons_append]

/-- **The broken seam.**  Behind an unterminated line the next line is swallowed by it. -/
theorem lines_append_unterminated {l t : List α} (hl : nl ∉ l) (hne : l ≠ []) :
    lines nl (l ++ t) = (l ++ (lines nl t).head?.getD []) :: (lines nl t).tail := by
  induction l with
  | nil => exact absurd rfl hne
  | cons c l ih =>
      rw [List.mem_cons, not_or] at hl
      rw [List.cons_append, lines_cons_of_ne nl (Ne.symm hl.1)]
      cases l with
      | nil => simp
      | cons c' l =>
          rw [ih hl.2 (by simp)]
          simp

theorem lines_unlines {ls : List (List α)} (h : ∀ l ∈ ls, nl ∉ l) :
    lines nl (unlines nl ls) = ls := by
  induction ls with
  | nil => rfl
  | cons l ls ih =>
      rw [unlines_cons, lines_append_nl nl (h l (by simp)), ih fun l' hl' => h l' (by simp [hl'])]

/-- Every text is a terminated part followed by at most one unterminated line. -/
theorem exists_terminated_append (s : List α) :
    ∃ u l, s = u ++ l ∧ Terminated nl u ∧ nl ∉ l := by
  induction s using List.reverseRecOn with
  | nil => exact ⟨[], [], rfl, Or.inl rfl, by simp⟩
  | append_singleton s c ih =>
      by_cases hc : c = nl
      · refine ⟨s ++ [c], [], by simp, Or.inr ?_, by simp⟩
        simp [hc]
      · obtain ⟨u, l, rfl, hu, hl⟩ := ih
        exact ⟨u, l ++ [c], by simp, hu, by simp [hl, Ne.symm hc]⟩

/-! ### Reading line by line -/

@[simp] theorem getLine_nil : getLine nl ([] : List α) = none := rfl

/-- A successful read takes off the first line, and with it at least one symbol. -/
theorem getLine_eq_some {s l t : List α} (h : getLine nl s = some (l, t)) :
    lines nl s = l :: lines nl t ∧ nl ∉ l ∧
      (s = l ++ nl :: t ∨ (s = l ∧ t = [] ∧ l ≠ [])) := by
  cases s with
  | nil => simp at h
  | cons c s =>
      simp only [getLine, Option.some.injEq, Prod.mk.injEq] at h
      obtain ⟨hl, ht⟩ := h
      have hnl : nl ∉ l := by
        intro hmem
        rw [← hl] at hmem
        have := List.mem_takeWhile_imp hmem
        simp at this
      have hsplit : (c :: s) = l ++ (c :: s).dropWhile (· ≠ nl) := by
        rw [← hl, List.takeWhile_append_dropWhile]
      cases hd : (c :: s).dropWhile (· ≠ nl) with
      | nil =>
          rw [hd] at hsplit ht
          rw [List.append_nil] at hsplit
          have hne : l ≠ [] := by rw [← hsplit]; simp
          subst ht
          refine ⟨?_, hnl, Or.inr ⟨hsplit, rfl, hne⟩⟩
          rw [hsplit, lines_of_notMem nl hnl hne]
          rfl
      | cons d ds =>
          have hdnl : d = nl := by
            have hhead := List.head?_dropWhile_not (fun x => decide (x ≠ nl)) (c :: s)
            rw [hd] at hhead
            simpa using hhead
          rw [hd] at hsplit ht
          subst hdnl
          rw [List.tail_cons] at ht
          subst ht
          exact ⟨by rw [hsplit, lines_append_nl d hnl], hnl, Or.inl hsplit⟩

theorem getLine_length_lt {s l t : List α} (h : getLine nl s = some (l, t)) :
    t.length < s.length := by
  rcases (getLine_eq_some nl h).2.2 with rfl | ⟨rfl, rfl, hne⟩
  · simp; omega
  · exact List.length_pos_iff.mpr hne

theorem getLine_eq_none_iff (s : List α) : getLine nl s = none ↔ s = [] := by
  cases s <;> simp [getLine]

end Lines

end TextLines
