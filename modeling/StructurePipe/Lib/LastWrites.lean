import Mathlib.Data.List.Basic
import Mathlib.Tactic

/-!
# The last write to each key

A sequence of writes to a map is the list of the keys with the values written.  What a key holds in
the end is what was written to it last.

* `last_append` — the later part of a sequence decides, if it writes to the key at all;
* `last_perm` — writes to different keys can be done in any order;
* `last_rowWrites` — writes to the cells of one row decide about that row alone;
* `last_flatMap_rowWrites` — **if the rows are written one after the other, and all have keys of
  their own, a row holds what was written to it.**
-/

namespace LastWrites

variable {κ ν γ ι : Type*} [DecidableEq κ] [DecidableEq γ]

/-- What was last written to a key. -/
def last (k : κ) (writes : List (κ × ν)) : Option ν := writes.reverse.lookup k

@[simp] theorem last_nil (k : κ) : last k ([] : List (κ × ν)) = none := rfl

theorem last_append (k : κ) (writes later : List (κ × ν)) :
    last k (writes ++ later) = (last k later).or (last k writes) := by
  rw [last, List.reverse_append, List.lookup_append]
  rfl

theorem last_singleton (k k' : κ) (v : ν) :
    last k [(k', v)] = if k = k' then some v else none := by
  by_cases h : k = k'
  · simp [last, h]
  · simp [last, h, List.lookup_cons, beq_eq_false_iff_ne.mpr h]

theorem last_cons (k k' : κ) (v : ν) (writes : List (κ × ν)) :
    last k ((k', v) :: writes) = (last k writes).or (if k = k' then some v else none) := by
  rw [← last_singleton, ← last_append, List.singleton_append]

theorem mem_of_last {k : κ} {v : ν} {writes : List (κ × ν)} (h : last k writes = some v) :
    (k, v) ∈ writes := by
  obtain ⟨later, before, heq, _⟩ := List.lookup_eq_some_iff.mp h
  rw [← List.mem_reverse, heq]
  simp

theorem exists_last {k : κ} {v : ν} {writes : List (κ × ν)} (h : (k, v) ∈ writes) :
    ∃ w, last k writes = some w := by
  rw [← Option.isSome_iff_exists, last, List.lookup_isSome_iff]
  exact ⟨(k, v), List.mem_reverse.mpr h, beq_self_eq_true k⟩

/-- Of writes to different keys, none is overwritten. -/
theorem last_eq_some_iff {writes : List (κ × ν)} (h : (writes.map Prod.fst).Nodup) {k : κ} {v : ν} :
    last k writes = some v ↔ (k, v) ∈ writes := by
  refine ⟨mem_of_last, fun hmem => ?_⟩
  obtain ⟨w, hw⟩ := exists_last hmem
  have heq : (k, w) = (k, v) := List.inj_on_of_nodup_map h (mem_of_last hw) hmem rfl
  rw [hw, (Prod.mk.inj heq).2]

/-- **Writes to different keys can be done in any order.** -/
theorem last_perm {writes writes' : List (κ × ν)} (hperm : writes.Perm writes')
    (h : (writes.map Prod.fst).Nodup) (k : κ) : last k writes = last k writes' := by
  have h' : (writes'.map Prod.fst).Nodup := (hperm.map Prod.fst).nodup_iff.mp h
  refine Option.ext fun v => ?_
  rw [last_eq_some_iff h, last_eq_some_iff h', hperm.mem_iff]

/-! ### Rows -/

/-- Writes to the cells of the row `k`. -/
def rowWrites (k : κ) (cells : List (γ × ν)) : List ((κ × γ) × ν) :=
  cells.map fun cell => ((k, cell.1), cell.2)

omit [DecidableEq κ] [DecidableEq γ] in
theorem mem_rowWrites {k k' : κ} {c : γ} {v : ν} {cells : List (γ × ν)} :
    ((k, c), v) ∈ rowWrites k' cells ↔ k = k' ∧ (c, v) ∈ cells := by
  rw [rowWrites, List.mem_map]
  constructor
  · rintro ⟨⟨c', v'⟩, hcell, heq⟩
    simp only [Prod.mk.injEq] at heq
    obtain ⟨⟨rfl, rfl⟩, rfl⟩ := heq
    exact ⟨rfl, hcell⟩
  · rintro ⟨rfl, hcell⟩
    exact ⟨(c, v), hcell, rfl⟩

omit [DecidableEq κ] [DecidableEq γ] in
theorem rowWrites_append (k : κ) (cells later : List (γ × ν)) :
    rowWrites k (cells ++ later) = rowWrites k cells ++ rowWrites k later := List.map_append

theorem last_rowWrites (k k' : κ) (c : γ) (cells : List (γ × ν)) :
    last (k, c) (rowWrites k' cells) = if k = k' then last c cells else none := by
  induction cells with
  | nil => simp [rowWrites]
  | cons cell cells ih =>
      show last (k, c) (((k', cell.1), cell.2) :: rowWrites k' cells) = _
      rw [last_cons, last_cons, ih]
      by_cases hk : k = k'
      · simp [hk]
      · simp [hk]

/-- **Rows with keys of their own.** -/
theorem last_flatMap_rowWrites {key : ι → κ} {cells : ι → List (γ × ν)} {rows : List ι}
    (hkeys : rows.Pairwise fun r r' => key r ≠ key r') {r : ι} (hr : r ∈ rows) (c : γ) :
    last (key r, c) (rows.flatMap fun r => rowWrites (key r) (cells r)) = last c (cells r) := by
  have hnone : ∀ {later : List ι}, (∀ r' ∈ later, key r ≠ key r') →
      last (key r, c) (later.flatMap fun r => rowWrites (key r) (cells r)) = none := by
    intro later hlater
    induction later with
    | nil => rfl
    | cons r' later ih =>
        rw [List.flatMap_cons, last_append, last_rowWrites, if_neg (hlater r' List.mem_cons_self),
          ih fun r'' hr'' => hlater r'' (List.mem_cons_of_mem _ hr'')]
        rfl
  induction rows with
  | nil => exact absurd hr List.not_mem_nil
  | cons r' rows ih =>
      obtain ⟨hhead, htail⟩ := List.pairwise_cons.mp hkeys
      rw [List.flatMap_cons, last_append, last_rowWrites]
      rcases List.mem_cons.mp hr with rfl | hr
      · rw [hnone hhead, if_pos rfl]
        rfl
      · rw [if_neg (hhead r hr).symm, ih htail hr, Option.or_none]

end LastWrites
