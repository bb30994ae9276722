import StructurePipe.Lib.OrderedMap

/-!
# Maps of running values

A map that holds under each key a running value of some kind, fed with one item at a time; a key
that was never fed has no entry.

* `gather` — feed an item to the running value of its key, a fresh one if there is none;
* `values` — the items of one key, in their order;
* `find_foldl_gather` — **what a key holds in the end is the fold of its own items;**
* `filter_flatMap_of_nodup` — of groups with different keys, a key selects one group.
-/

namespace GroupedFolds

open OrderedMap

variable {κ σ ν : Type*} [LinearOrder κ]

/-- Feed an item to the running value of a key. -/
def gather (add : σ → ν → σ) (init : σ) (m : List (κ × σ)) (item : κ × ν) : List (κ × σ) :=
  set item.1 (add ((find item.1 m).getD init) item.2) m

/-- The items of a key. -/
def values (k : κ) (items : List (κ × ν)) : List ν :=
  (items.filter fun item => item.1 = k).map Prod.snd

@[simp] theorem values_nil (k : κ) : values k ([] : List (κ × ν)) = [] := rfl

@[simp] theorem values_append (k : κ) (items later : List (κ × ν)) :
    values k (items ++ later) = values k items ++ values k later := by
  simp [values]

theorem values_cons (k : κ) (item : κ × ν) (items : List (κ × ν)) :
    values k (item :: items) = (if item.1 = k then [item.2] else []) ++ values k items := by
  by_cases h : item.1 = k
  · simp [values, h]
  · simp [values, h]

theorem values_flatMap {α : Type*} (k : κ) (f : α → List (κ × ν)) (xs : List α) :
    values k (xs.flatMap f) = xs.flatMap fun x => values k (f x) := by
  induction xs with
  | nil => rfl
  | cons x xs ih => rw [List.flatMap_cons, values_append, ih, List.flatMap_cons]

/-- **A key holds the fold of its items.** -/
theorem find_foldl_gather (add : σ → ν → σ) (init : σ) (k : κ) (items : List (κ × ν)) :
    find k (items.foldl (gather add init) [])
      = if values k items = [] then none else some ((values k items).foldl add init) := by
  induction items using List.reverseRecOn with
  | nil => rfl
  | append_singleton items item ih =>
      rw [List.foldl_concat, values_append, values_cons, gather]
      by_cases h : item.1 = k
      · subst h
        have hold : (find item.1 (items.foldl (gather add init) [])).getD init
            = (values item.1 items).foldl add init := by
          rw [ih]
          split
          · next hnil => simp [hnil]
          · rfl
        rw [find_set_self, hold]
        simp
      · rw [find_set_of_ne (Ne.symm h), ih]
        simp [h]

/-- **Groups with different keys**, whose items all have the key of their group. -/
theorem filter_flatMap_of_nodup {ι α τ : Type*} [DecidableEq τ] {groups : List ι} {name : ι → τ}
    {group : ι → List α} {key : α → τ} (hnodup : (groups.map name).Nodup)
    (hkey : ∀ i ∈ groups, ∀ a ∈ group i, key a = name i) {i : ι} (hi : i ∈ groups) :
    (groups.flatMap group).filter (fun a => key a = name i) = group i := by
  have hall : ∀ j ∈ groups, name j = name i →
      (group j).filter (fun a => key a = name i) = group j := by
    intro j hj hsame
    refine List.filter_eq_self.mpr fun a ha => ?_
    simp [hkey j hj a ha, hsame]
  have hnone : ∀ j ∈ groups, name j ≠ name i →
      (group j).filter (fun a => key a = name i) = [] := by
    intro j hj hne
    refine List.filter_eq_nil_iff.mpr fun a ha => ?_
    simp [hkey j hj a ha, hne]
  induction groups with
  | nil => exact absurd hi List.not_mem_nil
  | cons j groups ih =>
      rw [List.map_cons, List.nodup_cons] at hnodup
      rw [List.flatMap_cons, List.filter_append]
      have hlater : ∀ j' ∈ groups, name j' ≠ name j := fun j' hj' heq =>
        hnodup.1 (heq ▸ List.mem_map_of_mem hj')
      rcases List.mem_cons.mp hi with rfl | hi
      · have hrest : (groups.flatMap group).filter (fun a => key a = name i) = [] := by
          rw [List.filter_flatMap, List.flatMap_eq_nil_iff]
          exact fun j' hj' => hnone j' (List.mem_cons_of_mem i hj') (hlater j' hj')
        rw [hall i List.mem_cons_self rfl, hrest, List.append_nil]
      · rw [hnone j List.mem_cons_self (hlater i hi).symm, List.nil_append]
        exact ih hnodup.2 (fun k hk => hkey k (List.mem_cons_of_mem j hk)) hi
          (fun k hk => hall k (List.mem_cons_of_mem j hk))
          fun k hk => hnone k (List.mem_cons_of_mem j hk)

end GroupedFolds
