import Mathlib.Data.List.DropRight
import Mathlib.Data.List.TakeWhile
import Mathlib.Tactic

/-!
# Tokens of a text

Cutting a text at separators and trimming it, over an arbitrary alphabet.  Separators are given by a
test; they belong to no token, and no token is empty.

* `tokens` — the tokens of a text; `trim` — a text without what surrounds it; `firstWord` — what a
  formatted read takes from a stream;
* `split_induction` — the induction rule: texts without a separator, and texts cut at one;
* `tokens_or` — **cutting at two kinds of separators is cutting at one kind and then at the other;**
* `tokens_of_trim` — a word that is padded with separators is the only token;
* `splitOnP_layOut_iff` — **when cutting at every separator gives back the words that were laid out.**
-/

namespace Tokens

variable {α : Type*} {p q : α → Bool}

/-- The maximal non-empty pieces of a text that contain no separator. -/
def tokens (p : α → Bool) (s : List α) : List (List α) :=
  (s.splitOnP p).filter fun t => !t.isEmpty

/-- A text without the symbols of a kind at its two ends. -/
def trim (p : α → Bool) (s : List α) : List α := (s.dropWhile p).rdropWhile p

/-- A word: not empty, and without blanks. -/
def Word (p : α → Bool) (w : List α) : Prop := w ≠ [] ∧ ∀ c ∈ w, p c = false

instance [DecidableEq α] (w : List α) : Decidable (Word p w) := inferInstanceAs (Decidable (_ ∧ _))

/-- The first word of a text and what follows it, `none` where there is no word. -/
def firstWord (p : α → Bool) (s : List α) : Option (List α × List α) :=
  match s.dropWhile p with
  | [] => none
  | c :: s => some ((c :: s).takeWhile fun c => !p c, (c :: s).dropWhile fun c => !p c)

/-- What holds of the texts without separators, and of a text whenever it holds on both sides of a
separator, holds of all texts. -/
theorem split_induction (p : α → Bool) {motive : List α → Prop}
    (plain : ∀ s, (∀ c ∈ s, p c = false) → motive s)
    (cut : ∀ s c t, p c = true → motive s → motive t → motive (s ++ c :: t)) (s : List α) :
    motive s := by
  induction hn : s.length using Nat.strong_induction_on generalizing s with
  | _ n ih =>
      by_cases h : ∃ c ∈ s, p c = true
      · obtain ⟨c, hc, hp⟩ := h
        obtain ⟨a, b, rfl⟩ := List.append_of_mem hc
        rw [List.length_append, List.length_cons] at hn
        exact cut a c b hp (ih a.length (by omega) a rfl) (ih b.length (by omega) b rfl)
      · exact plain s fun c hc => Bool.eq_false_iff.mpr fun hp => h ⟨c, hc, hp⟩

/-! ### Tokens -/

@[simp] theorem tokens_nil (p : α → Bool) : tokens p [] = [] := by simp [tokens]

theorem tokens_append_cons (s t : List α) {c : α} (hc : p c = true) :
    tokens p (s ++ c :: t) = tokens p s ++ tokens p t := by
  rw [tokens, List.splitOnP_append_cons s t hc, List.filter_append]
  rfl

theorem tokens_of_plain {s : List α} (hs : s ≠ []) (h : ∀ c ∈ s, p c = false) :
    tokens p s = [s] := by
  rw [tokens, List.splitOnP_eq_singleton h]
  simp [hs]

theorem tokens_cons_of_sep {c : α} (hc : p c = true) (s : List α) :
    tokens p (c :: s) = tokens p s := by
  have h := tokens_append_cons [] s hc
  rwa [tokens_nil] at h

/-- Separators in front of a text do not matter. -/
theorem tokens_append_left {l : List α} (hl : ∀ c ∈ l, p c = true) (s : List α) :
    tokens p (l ++ s) = tokens p s := by
  induction l with
  | nil => rfl
  | cons c l ih =>
      rw [List.cons_append, tokens_cons_of_sep (hl c (by simp)),
        ih fun d hd => hl d (List.mem_cons_of_mem c hd)]

/-- Nor do separators behind it. -/
theorem tokens_append_right (s : List α) {r : List α} (hr : ∀ c ∈ r, p c = true) :
    tokens p (s ++ r) = tokens p s := by
  cases r with
  | nil => rw [List.append_nil]
  | cons c r =>
      have hr' : ∀ d ∈ r, p d = true := fun d hd => hr d (List.mem_cons_of_mem c hd)
      have h := tokens_append_left hr' ([] : List α)
      rw [List.append_nil, tokens_nil] at h
      rw [tokens_append_cons s r (hr c (by simp)), h, List.append_nil]

theorem tokens_congr {s : List α} (h : ∀ c ∈ s, p c = q c) : tokens p s = tokens q s := by
  induction s using split_induction p with
  | plain s hs =>
      rcases eq_or_ne s [] with rfl | hne
      · simp
      · rw [tokens_of_plain hne hs, tokens_of_plain hne fun c hc => h c hc ▸ hs c hc]
  | cut s c t hc hs ht =>
      have hc' : q c = true := h c (by simp) ▸ hc
      rw [tokens_append_cons s t hc, tokens_append_cons s t hc',
        hs fun d hd => h d (by simp [hd]), ht fun d hd => h d (by simp [hd])]

theorem tokens_or (p q : α → Bool) (s : List α) :
    tokens (fun c => p c || q c) s = (tokens p s).flatMap (tokens q) := by
  induction s using split_induction p with
  | plain s hs =>
      have hpq : ∀ c ∈ s, (p c || q c) = q c := fun c hc => by rw [hs c hc, Bool.false_or]
      rcases eq_or_ne s [] with rfl | hne
      · simp
      · rw [tokens_of_plain hne hs, List.flatMap_singleton, tokens_congr hpq]
  | cut s c t hc hs ht =>
      have hc' : (p c || q c) = true := by rw [hc, Bool.true_or]
      rw [tokens_append_cons (p := fun c => p c || q c) s t hc', tokens_append_cons s t hc,
        List.flatMap_append, hs, ht]

/-- Every symbol that is not a separator is in some token. -/
theorem exists_token {s : List α} {c : α} (hmem : c ∈ s) (hc : p c = false) :
    ∃ t ∈ tokens p s, c ∈ t := by
  induction s using split_induction p with
  | plain s hs => exact ⟨s, by simp [tokens_of_plain (List.ne_nil_of_mem hmem) hs], hmem⟩
  | cut s d t hd hs ht =>
      rw [tokens_append_cons s t hd]
      have hcases : c ∈ s ∨ c ∈ t := by
        rcases List.mem_append.mp hmem with h | h
        · exact Or.inl h
        · refine Or.inr ((List.mem_cons.mp h).resolve_left ?_)
          rintro rfl
          exact absurd hd (by simp [hc])
      rcases hcases with h | h
      · obtain ⟨u, hu, hcu⟩ := hs h
        exact ⟨u, List.mem_append_left _ hu, hcu⟩
      · obtain ⟨u, hu, hcu⟩ := ht h
        exact ⟨u, List.mem_append_right _ hu, hcu⟩

/-! ### The first word -/

theorem word_firstWord {s w rest : List α} (h : firstWord p s = some (w, rest)) : Word p w := by
  rw [firstWord] at h
  split at h
  · exact absurd h (by simp)
  · next c t hdrop =>
      obtain ⟨rfl, -⟩ := Prod.mk.inj (Option.some.inj h)
      have hc : p c = false := by
        have hne : s.dropWhile p ≠ [] := by simp [hdrop]
        simpa [hdrop] using List.head_dropWhile_not p hne
      exact ⟨by simp [hc], fun d hd => by simpa using List.mem_takeWhile_imp hd⟩

/-- A word in front of a blank, or at the end, is read as it is. -/
theorem firstWord_append {w : List α} (hw : Word p w) {rest : List α}
    (hrest : ∀ c ∈ rest.head?, p c = true) : firstWord p (w ++ rest) = some (w, rest) := by
  cases w with
  | nil => exact absurd rfl hw.1
  | cons c w =>
      have hword : ∀ d ∈ c :: w, (!p d) = true := fun d hd => by rw [hw.2 d hd, Bool.not_false]
      have hstart : (c :: w ++ rest).dropWhile p = c :: w ++ rest := by simp [hw.2 c (by simp)]
      have hstop : rest.takeWhile (fun d => !p d) = [] ∧ rest.dropWhile (fun d => !p d) = rest := by
        cases rest with
        | nil => exact ⟨rfl, rfl⟩
        | cons d rest => simp [hrest d (by simp)]
      rw [firstWord, hstart]
      show some (((c :: w) ++ rest).takeWhile _, ((c :: w) ++ rest).dropWhile _) = _
      rw [List.takeWhile_append_of_pos hword, List.dropWhile_append_of_pos hword, hstop.1, hstop.2,
        List.append_nil]

theorem firstWord_cons_of_sep {c : α} (hc : p c = true) (s : List α) :
    firstWord p (c :: s) = firstWord p s := by
  rw [firstWord, firstWord, List.dropWhile_cons_of_pos hc]

/-! ### Trimming -/

theorem trim_spec (p : α → Bool) (s : List α) :
    ∃ l r, s = l ++ trim p s ++ r ∧ (∀ c ∈ l, p c = true) ∧ ∀ c ∈ r, p c = true := by
  refine ⟨s.takeWhile p, (s.dropWhile p).rtakeWhile p, ?_, fun c => List.mem_takeWhile_imp,
    fun c => List.mem_rtakeWhile_imp⟩
  rw [trim, List.append_assoc, List.rdropWhile_append_rtakeWhile, List.takeWhile_append_dropWhile]

theorem rdropWhile_append_of_pos {s r : List α} (hr : ∀ c ∈ r, p c = true) :
    (s ++ r).rdropWhile p = s.rdropWhile p := by
  induction r using List.reverseRecOn with
  | nil => rw [List.append_nil]
  | append_singleton r c ih =>
      rw [← List.append_assoc, List.rdropWhile_concat_pos p _ c (hr c (by simp)),
        ih fun d hd => hr d (List.mem_append_left _ hd)]

theorem trim_append {l w r : List α} (hl : ∀ c ∈ l, p c = true) (hw : Word p w)
    (hr : ∀ c ∈ r, p c = true) : trim p (l ++ w ++ r) = w := by
  have hdrop : (l ++ w ++ r).dropWhile p = w ++ r := by
    rw [List.append_assoc, List.dropWhile_append_of_pos hl]
    cases w with
    | nil => exact absurd rfl hw.1
    | cons c w => simp [hw.2 c (by simp)]
  rw [trim, hdrop, rdropWhile_append_of_pos hr]
  exact List.rdropWhile_eq_self_iff.mpr fun hne => by simp [hw.2 _ (List.getLast_mem hne)]

/-- A word with nothing but separators around it is the only token. -/
theorem tokens_of_trim {s : List α} (h : Word p (trim p s)) : tokens p s = [trim p s] := by
  obtain ⟨l, r, hs, hl, hr⟩ := trim_spec p s
  calc tokens p s = tokens p (l ++ trim p s ++ r) := congrArg (tokens p) hs
    _ = tokens p (trim p s) := by rw [tokens_append_right _ hr, tokens_append_left hl]
    _ = [trim p s] := tokens_of_plain h.1 h.2

/-! ### Two kinds of padding -/

section Padding

variable {s : List α} (hpq : ∀ c, p c = true → q c = true)

include hpq

theorem Word.mono {w : List α} (h : Word q w) : Word p w :=
  ⟨h.1, fun c hc => Bool.eq_false_iff.mpr fun hp => by simpa [h.2 c hc] using hpq c hp⟩

/-- Where a word is left after trimming one kind of padding, trimming more kinds does no more. -/
theorem trim_eq_of_word (h : Word q (trim p s)) : trim q s = trim p s := by
  obtain ⟨l, r, hs, hl, hr⟩ := trim_spec p s
  calc trim q s = trim q (l ++ trim p s ++ r) := congrArg (trim q) hs
    _ = trim p s := trim_append (fun c hc => hpq c (hl c hc)) h fun c hc => hpq c (hr c hc)

/-- Where no other padding is inside a token, a word is surrounded by the one kind alone. -/
theorem trim_eq_of_tokens (h : Word q (trim q s)) (htok : ∀ t ∈ tokens p s, Word q t) :
    trim p s = trim q s := by
  obtain ⟨l, r, hs, hl, hr⟩ := trim_spec q s
  have hpad : ∀ c ∈ s, q c = true → p c = true := by
    intro c hc hq
    by_contra hp
    obtain ⟨t, ht, hct⟩ := exists_token hc (Bool.eq_false_iff.mpr hp)
    simp [(htok t ht).2 c hct] at hq
  have hls : ∀ c ∈ l, c ∈ s := fun c hc => hs ▸ by simp [hc]
  have hrs : ∀ c ∈ r, c ∈ s := fun c hc => hs ▸ by simp [hc]
  calc trim p s = trim p (l ++ trim q s ++ r) := congrArg (trim p) hs
    _ = trim q s := trim_append (fun c hc => hpad c (hls c hc) (hl c hc)) (h.mono hpq)
        fun c hc => hpad c (hrs c hc) (hr c hc)

end Padding

/-! ### Words laid out in a text -/

/-- A text that lists words: each with what stands before it, and what stands after the last. -/
def layOut (items : List (List α × List α)) (trail : List α) : List α :=
  items.flatMap (fun i => i.1 ++ i.2) ++ trail

/-- The words of a layout are words, separated by one or more separators, with any number of them
around. -/
structure Layout (p : α → Bool) (items : List (List α × List α)) (trail : List α) : Prop where
  nonempty : items ≠ []
  words : ∀ i ∈ items, Word p i.2
  separators : ∀ i ∈ items, ∀ c ∈ i.1, p c = true
  between : ∀ i ∈ items.tail, i.1 ≠ []
  trailing : ∀ c ∈ trail, p c = true

/-- Nothing around the words, and a single separator between two of them. -/
def Tight (items : List (List α × List α)) (trail : List α) : Prop :=
  (∀ i ∈ items.head?, i.1 = []) ∧ (∀ i ∈ items.tail, i.1.length = 1) ∧ trail = []

/-- Every separator makes one more piece. -/
theorem length_splitOnP (p : α → Bool) (s : List α) :
    (s.splitOnP p).length = s.countP p + 1 := by
  induction s using split_induction p with
  | plain s hs =>
      have hnone : s.countP p = 0 := List.countP_eq_zero.mpr fun c hc => by simp [hs c hc]
      rw [List.splitOnP_eq_singleton hs, hnone, List.length_singleton]
  | cut s c t hc hs ht =>
      rw [List.splitOnP_append_cons s t hc, List.length_append, hs, ht, List.countP_append,
        List.countP_cons_of_pos hc]
      omega

/-- Cutting a text and putting the same symbol behind every piece replaces the separators by it. -/
theorem flatMap_splitOnP (p : α → Bool) (d : α) (s : List α) :
    (s.splitOnP p).flatMap (fun piece => piece ++ [d])
      = s.map (fun c => if p c then d else c) ++ [d] := by
  induction s using split_induction p with
  | plain s hs =>
      have hsame : s.map (fun c => if p c then d else c) = s := by
        refine List.map_id'' (fun _ => rfl) s |>.symm.trans ?_ |>.symm
        exact List.map_congr_left fun c hc => by simp [hs c hc]
      rw [List.splitOnP_eq_singleton hs, hsame, List.flatMap_singleton]
  | cut s c t hc hs ht =>
      rw [List.splitOnP_append_cons s t hc, List.flatMap_append, hs, ht, List.map_append,
        List.map_cons, if_pos hc]
      simp

theorem countP_layOut {items : List (List α × List α)} {trail : List α} (h : Layout p items trail) :
    (layOut items trail).countP p = (items.map fun i => i.1.length).sum + trail.length := by
  have hitems : ∀ l : List (List α × List α), (∀ i ∈ l, i ∈ items) →
      (l.flatMap fun i => i.1 ++ i.2).countP p = (l.map fun i => i.1.length).sum := by
    intro l hl
    induction l with
    | nil => rfl
    | cons i l ih =>
        have hi : i ∈ items := hl i (by simp)
        have hsep : i.1.countP p = i.1.length := List.countP_eq_length.mpr (h.separators i hi)
        have hword : i.2.countP p = 0 :=
          List.countP_eq_zero.mpr fun c hc => by simp [(h.words i hi).2 c hc]
        rw [List.flatMap_cons, List.countP_append, List.countP_append, hsep, hword,
          ih fun j hj => hl j (List.mem_cons_of_mem i hj), List.map_cons, List.sum_cons, Nat.add_zero]
  rw [layOut, List.countP_append, hitems items fun _ hi => hi,
    List.countP_eq_length.mpr h.trailing]

theorem length_le_sum_length {l : List (List α × List α)} (hne : ∀ i ∈ l, i.1 ≠ []) :
    l.length ≤ (l.map fun i => i.1.length).sum := by
  have hmap := List.length_le_sum_of_one_le (l.map fun i => i.1.length) fun n hn => by
    obtain ⟨i, hi, rfl⟩ := List.mem_map.mp hn
    exact List.length_pos_iff.mpr (hne i hi)
  rwa [List.length_map] at hmap

/-- Separators that are not empty, no longer in sum than their number, have length one each. -/
theorem length_eq_one_of_sum_le {l : List (List α × List α)} (hne : ∀ i ∈ l, i.1 ≠ [])
    (hsum : (l.map fun i => i.1.length).sum ≤ l.length) : ∀ i ∈ l, i.1.length = 1 := by
  induction l with
  | nil => simp
  | cons j l ih =>
      have hl : ∀ i ∈ l, i.1 ≠ [] := fun i hi => hne i (List.mem_cons_of_mem j hi)
      have hj : 1 ≤ j.1.length := List.length_pos_iff.mpr (hne j (by simp))
      have hrest : l.length ≤ (l.map fun i => i.1.length).sum := length_le_sum_length hl
      rw [List.map_cons, List.sum_cons, List.length_cons] at hsum
      intro i hi
      rcases List.mem_cons.mp hi with rfl | hi
      · omega
      · exact ih hl (by omega) i hi

/-- Words with one separator before each but the first. -/
theorem splitOnP_tight {w : List α} (hw : Word p w) {items : List (List α × List α)}
    (hwords : ∀ i ∈ items, Word p i.2) (hseps : ∀ i ∈ items, ∀ c ∈ i.1, p c = true)
    (hone : ∀ i ∈ items, i.1.length = 1) :
    (w ++ items.flatMap fun i => i.1 ++ i.2).splitOnP p = w :: items.map Prod.snd := by
  induction items generalizing w with
  | nil => simp [List.splitOnP_eq_singleton hw.2]
  | cons i items ih =>
      obtain ⟨c, hc⟩ := List.length_eq_one_iff.mp (hone i (by simp))
      have hsep : p c = true := hseps i (by simp) c (by simp [hc])
      have hrest := ih (hwords i (by simp)) (fun j hj => hwords j (List.mem_cons_of_mem i hj))
        (fun j hj => hseps j (List.mem_cons_of_mem i hj))
        fun j hj => hone j (List.mem_cons_of_mem i hj)
      calc (w ++ (i :: items).flatMap fun i => i.1 ++ i.2).splitOnP p
          = (w ++ c :: (i.2 ++ items.flatMap fun i => i.1 ++ i.2)).splitOnP p := by
            rw [List.flatMap_cons, hc, List.singleton_append, List.cons_append]
        _ = [w] ++ (i.2 :: items.map Prod.snd) := by
            rw [List.splitOnP_append_cons _ _ hsep, List.splitOnP_eq_singleton hw.2, hrest]
        _ = w :: (i :: items).map Prod.snd := rfl

/-- **Cutting at every separator gives the words exactly if the layout is tight.** -/
theorem splitOnP_layOut_iff {items : List (List α × List α)} {trail : List α}
    (h : Layout p items trail) :
    (layOut items trail).splitOnP p = items.map Prod.snd ↔ Tight items trail := by
  obtain ⟨i, rest, rfl⟩ := List.exists_cons_of_ne_nil h.nonempty
  constructor
  · intro heq
    have hcount := congrArg List.length heq
    rw [length_splitOnP, countP_layOut h, List.length_map, List.map_cons, List.sum_cons,
      List.length_cons] at hcount
    have hrest : rest.length ≤ (rest.map fun i => i.1.length).sum := length_le_sum_length h.between
    refine ⟨?_, length_eq_one_of_sum_le h.between (by rw [List.tail_cons]; omega),
      List.length_eq_zero_iff.mp (by omega)⟩
    intro j hj
    obtain rfl : i = j := Option.some.inj hj
    exact List.length_eq_zero_iff.mp (by omega)
  · rintro ⟨hhead, hone, rfl⟩
    have hlead : i.1 = [] := hhead i rfl
    rw [layOut, List.append_nil, List.flatMap_cons, hlead, List.nil_append]
    exact splitOnP_tight (h.words i (by simp)) (fun j hj => h.words j (List.mem_cons_of_mem i hj))
      (fun j hj => h.separators j (List.mem_cons_of_mem i hj)) hone

/-- A text of separators has only empty pieces. -/
theorem splitOnP_of_all {s : List α} (hs : ∀ c ∈ s, p c = true) :
    s.splitOnP p = List.replicate (s.length + 1) [] := by
  induction s with
  | nil => rfl
  | cons c s ih =>
      have hcut := List.splitOnP_append_cons ([] : List α) s (hs c (by simp))
      rw [List.nil_append] at hcut
      rw [hcut, ih fun d hd => hs d (List.mem_cons_of_mem c hd), List.splitOnP_nil]
      rfl

/-- Only a text of separators has none but empty pieces. -/
theorem all_of_splitOnP {s : List α} (h : ∀ t ∈ s.splitOnP p, t = []) : ∀ c ∈ s, p c = true := by
  intro c hc
  by_contra hp
  obtain ⟨t, ht, hct⟩ := exists_token hc (Bool.eq_false_iff.mpr hp)
  have hnil : t = [] := h t (List.mem_of_mem_filter ht)
  rw [hnil] at hct
  exact absurd hct List.not_mem_nil

end Tokens
