import Mathlib.Data.List.Nodup
import Mathlib.Data.List.Count
import Mathlib.Tactic

/-!
# Representatives of the classes of an equivalence

A list of representatives has one element of each class that occurs in a list, taken from the list.
Which element that is and in what order they stand is left open.

* `Represents.countP_eq` — a class is represented once, if it occurs;
* `Represents.flatten` — **representatives can be chosen in stages:** those of the representatives of
  the parts are representatives of the whole;
* `countP_representatives` — over several lists a class is represented as often as there are lists in
  which it occurs.
-/

namespace Representatives

variable {α : Type*} {r : α → α → Bool}

structure Represents (r : α → α → Bool) (reps xs : List α) : Prop where
  nodup : reps.Nodup
  subset : ∀ y ∈ reps, y ∈ xs
  covers : ∀ x ∈ xs, ∃ y ∈ reps, r y x = true
  single : ∀ y ∈ reps, ∀ z ∈ reps, r y z = true → y = z

/-- A class that occurs has one representative. -/
theorem Represents.countP_eq (hequiv : Equivalence fun a b => r a b = true) {reps xs : List α}
    (h : Represents r reps xs) (a : α) : reps.countP (r a) = if xs.any (r a) then 1 else 0 := by
  by_cases hany : xs.any (r a) = true
  · rw [if_pos hany]
    obtain ⟨x, hx, hax⟩ := List.any_eq_true.mp hany
    obtain ⟨y, hy, hyx⟩ := h.covers x hx
    have hay : r a y = true := hequiv.trans hax (hequiv.symm hyx)
    have hsame : ∀ z ∈ reps, r a z = true → z = y := fun z hz haz =>
      h.single z hz y hy (hequiv.trans (hequiv.symm haz) hay)
    classical
    have hcount : reps.countP (r a) = reps.count y := by
      refine List.countP_congr fun z hz => ?_
      rw [beq_iff_eq]
      exact ⟨hsame z hz, fun heq => heq ▸ hay⟩
    rw [hcount, List.count_eq_one_of_mem h.nodup hy]
  · rw [if_neg hany, List.countP_eq_zero]
    intro y hy hay
    exact hany (List.any_eq_true.mpr ⟨y, h.subset y hy, hay⟩)

/-- **Representatives of representatives.** -/
theorem Represents.flatten (hequiv : Equivalence fun a b => r a b = true) {reps : List α}
    {parts : List (List α × List α)} (hparts : ∀ part ∈ parts, Represents r part.1 part.2)
    (h : Represents r reps (parts.map Prod.fst).flatten) :
    Represents r reps (parts.map Prod.snd).flatten where
  nodup := h.nodup
  subset := by
    intro y hy
    obtain ⟨_, hmem, hy'⟩ := List.mem_flatten.mp (h.subset y hy)
    obtain ⟨part, hpart, rfl⟩ := List.mem_map.mp hmem
    exact List.mem_flatten.mpr ⟨part.2, List.mem_map_of_mem hpart, (hparts part hpart).subset y hy'⟩
  covers := by
    intro x hx
    obtain ⟨_, hmem, hx'⟩ := List.mem_flatten.mp hx
    obtain ⟨part, hpart, rfl⟩ := List.mem_map.mp hmem
    obtain ⟨y, hy, hyx⟩ := (hparts part hpart).covers x hx'
    obtain ⟨z, hz, hzy⟩ := h.covers y (List.mem_flatten.mpr ⟨part.1, List.mem_map_of_mem hpart, hy⟩)
    exact ⟨z, hz, hequiv.trans hzy hyx⟩
  single := h.single

/-- **How often a class is represented** over several lists. -/
theorem countP_representatives (hequiv : Equivalence fun a b => r a b = true)
    {parts : List (List α × List α)} (hparts : ∀ part ∈ parts, Represents r part.1 part.2) (a : α) :
    (parts.map Prod.fst).flatten.countP (r a)
      = (parts.map Prod.snd).countP fun xs => xs.any (r a) := by
  induction parts with
  | nil => rfl
  | cons part parts ih =>
      obtain ⟨hpart, hrest⟩ := List.forall_mem_cons.mp hparts
      rw [List.map_cons, List.flatten_cons, List.countP_append, hpart.countP_eq hequiv, ih hrest,
        List.map_cons, List.countP_cons, Nat.add_comm]

end Representatives
