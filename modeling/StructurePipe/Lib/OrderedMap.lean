import Mathlib.Data.List.Basic
import Mathlib.Tactic

/-!
# Maps in key order

A finite map as the list of its entries in ascending order of the keys.  `find` and `set` need no
hypothesis about the order; `Ordered` is what a traversal needs.

* `find_set_self`, `find_set_of_ne` — a write changes one key;
* `Ordered.perm_flatMap_set` — **a traversal splits into what one key contributes and a rest that a write at
  the key leaves alone;**
* `Ordered.filter_flatMap` — what a traversal yields under one key is the value of the key;
* `eq_of_filter_eq` — lists in the order of a key are equal if they agree under every key.
-/

namespace OrderedMap

variable {κ ν α : Type*} [LinearOrder κ]

def find (k : κ) : List (κ × ν) → Option ν
  | [] => none
  | e :: m => if k = e.1 then some e.2 else find k m

def set (k : κ) (v : ν) : List (κ × ν) → List (κ × ν)
  | [] => [(k, v)]
  | e :: m => if k < e.1 then (k, v) :: e :: m else if k = e.1 then (k, v) :: m else e :: set k v m

@[simp] theorem find_nil (k : κ) : find k ([] : List (κ × ν)) = none := rfl

theorem find_cons (k : κ) (e : κ × ν) (m : List (κ × ν)) :
    find k (e :: m) = if k = e.1 then some e.2 else find k m := rfl

@[simp] theorem find_set_self (k : κ) (v : ν) (m : List (κ × ν)) : find k (set k v m) = some v := by
  induction m with
  | nil => simp [set, find]
  | cons e m ih =>
      rw [set]
      split
      · simp [find]
      · split
        · simp [find]
        · next hne => rw [find_cons, if_neg hne, ih]

theorem find_set_of_ne {j k : κ} (h : j ≠ k) (v : ν) (m : List (κ × ν)) :
    find j (set k v m) = find j m := by
  induction m with
  | nil => simp [set, find, h]
  | cons e m ih =>
      rw [set]
      split
      · rw [find_cons, if_neg h]
      · split
        · next heq => rw [find_cons, find_cons, if_neg h, if_neg (heq ▸ h)]
        · rw [find_cons, find_cons, ih]

/-! ### Traversals -/

/-- In strictly ascending order of the keys. -/
def Ordered (m : List (κ × ν)) : Prop := m.Pairwise fun a b => a.1 < b.1

theorem mem_set {e : κ × ν} {k : κ} {v : ν} {m : List (κ × ν)} (h : e ∈ set k v m) :
    e = (k, v) ∨ e ∈ m := by
  induction m with
  | nil => exact Or.inl (by simpa [set] using h)
  | cons x m ih =>
      rw [set] at h
      split at h
      · exact List.mem_cons.mp h
      · split at h
        · exact (List.mem_cons.mp h).imp id (List.mem_cons_of_mem x)
        · rcases List.mem_cons.mp h with rfl | h
          · exact Or.inr (by simp)
          · exact (ih h).imp id (List.mem_cons_of_mem x)

theorem Ordered.set {m : List (κ × ν)} (h : Ordered m) (k : κ) (v : ν) : Ordered (set k v m) := by
  induction m with
  | nil => exact List.pairwise_singleton _ _
  | cons x m ih =>
      obtain ⟨hx, hm⟩ := List.pairwise_cons.mp h
      rw [OrderedMap.set]
      split
      · next hlt =>
          refine List.pairwise_cons.mpr ⟨fun y hy => ?_, h⟩
          rcases List.mem_cons.mp hy with rfl | hy
          · exact hlt
          · exact lt_trans hlt (hx y hy)
      · split
        · next heq =>
            refine List.pairwise_cons.mpr ⟨fun y hy => ?_, hm⟩
            show k < y.1
            rw [heq]
            exact hx y hy
        · next hge hne =>
            refine List.pairwise_cons.mpr ⟨fun y hy => ?_, ih hm⟩
            rcases mem_set hy with rfl | hy
            · exact lt_of_le_of_ne (not_lt.mp hge) (Ne.symm hne)
            · exact hx y hy

theorem mem_of_find {k : κ} {v : ν} {m : List (κ × ν)} (h : find k m = some v) : (k, v) ∈ m := by
  induction m with
  | nil => simp at h
  | cons e m ih =>
      rw [find_cons] at h
      split at h
      · next heq =>
          obtain rfl := Option.some.inj h
          simp [heq]
      · exact List.mem_cons_of_mem e (ih h)

theorem find_eq_none {k : κ} {m : List (κ × ν)} (h : ∀ e ∈ m, k ≠ e.1) : find k m = none := by
  induction m with
  | nil => rfl
  | cons e m ih =>
      rw [find_cons, if_neg (h e (by simp)), ih fun e' he' => h e' (by simp [he'])]

theorem Ordered.nodup_keys {m : List (κ × ν)} (h : Ordered m) : (m.map Prod.fst).Nodup :=
  List.pairwise_map.mpr (h.imp fun hlt => hlt.ne)

/-- **Writing entries with different keys**, one after the other. -/
theorem find_foldl_set {entries : List (κ × ν)} (h : (entries.map Prod.fst).Nodup) (k : κ) (v : ν) :
    find k (entries.foldl (fun m e => set e.1 e.2 m) []) = some v ↔ (k, v) ∈ entries := by
  induction entries using List.reverseRecOn with
  | nil => simp
  | append_singleton entries e ih =>
      rw [List.map_append, List.nodup_append] at h
      obtain ⟨hentries, _, hdisjoint⟩ := h
      rw [List.foldl_concat, List.mem_append, List.mem_singleton]
      by_cases hk : k = e.1
      · subst hk
        have hnotin : (e.1, v) ∉ entries := fun hmem =>
          hdisjoint e.1 (List.mem_map.mpr ⟨_, hmem, rfl⟩) e.1 (by simp) rfl
        rw [find_set_self, Option.some_inj, or_iff_right hnotin]
        exact ⟨fun heq => heq ▸ rfl, fun heq => (congrArg Prod.snd heq).symm⟩
      · have hne : (k, v) ≠ e := fun heq => hk (congrArg Prod.fst heq)
        rw [find_set_of_ne hk, ih hentries, or_iff_left hne]

/-- **What a write changes in a traversal.** -/
theorem Ordered.perm_flatMap_set {m : List (κ × ν)} (h : Ordered m) (g : ν → List α) (k : κ) :
    ∃ rest, (m.flatMap fun e => g e.2).Perm (((find k m).map g).getD [] ++ rest) ∧
      ∀ v, ((OrderedMap.set k v m).flatMap fun e => g e.2).Perm (g v ++ rest) := by
  induction m with
  | nil => exact ⟨[], by simp, fun v => by simp [OrderedMap.set]⟩
  | cons e m ih =>
      obtain ⟨he, hm⟩ := List.pairwise_cons.mp h
      rcases lt_trichotomy k e.1 with hlt | heq | hgt
      · have hnone : find k (e :: m) = none := by
          refine find_eq_none fun e' he' => ?_
          rcases List.mem_cons.mp he' with rfl | he'
          · exact hlt.ne
          · exact (lt_trans hlt (he e' he')).ne
        refine ⟨(e :: m).flatMap fun e => g e.2, ?_, fun v => ?_⟩
        · rw [hnone]
          exact List.Perm.refl _
        · rw [OrderedMap.set, if_pos hlt, List.flatMap_cons]
      · refine ⟨m.flatMap fun e => g e.2, ?_, fun v => ?_⟩
        · rw [find_cons, if_pos heq]
          exact List.Perm.refl _
        · rw [OrderedMap.set, if_neg heq.not_lt, if_pos heq, List.flatMap_cons]
      · obtain ⟨rest, hold, hnew⟩ := ih hm
        refine ⟨g e.2 ++ rest, ?_, fun v => ?_⟩
        · rw [find_cons, if_neg hgt.ne', List.flatMap_cons]
          exact (hold.append_left (g e.2)).trans (List.perm_append_comm_assoc _ _ _)
        · rw [OrderedMap.set, if_neg hgt.not_gt, if_neg hgt.ne', List.flatMap_cons]
          exact ((hnew v).append_left (g e.2)).trans (List.perm_append_comm_assoc _ _ _)

/-- **What a traversal yields under one key** is what the value of that key yields. -/
theorem Ordered.filter_flatMap {m : List (κ × ν)} (h : Ordered m) (g : ν → List α) (key : α → κ)
    (hkey : ∀ e ∈ m, ∀ a ∈ g e.2, key a = e.1) (k : κ) :
    (m.flatMap fun e => g e.2).filter (fun a => key a = k) = ((find k m).map g).getD [] := by
  induction m with
  | nil => rfl
  | cons e m ih =>
      obtain ⟨he, hm⟩ := List.pairwise_cons.mp h
      have hrest := ih hm fun e' he' => hkey e' (by simp [he'])
      rw [List.flatMap_cons, List.filter_append, hrest, find_cons]
      by_cases heq : k = e.1
      · have hall : (g e.2).filter (fun a => decide (key a = k)) = g e.2 := by
          rw [List.filter_eq_self]
          intro a ha
          simp [hkey e (by simp) a ha, heq]
        have hnone : find k m = none := find_eq_none fun e' he' => by
          rw [heq]
          exact (he e' he').ne
        rw [if_pos heq, hall, hnone]
        simp
      · have hnil : (g e.2).filter (fun a => decide (key a = k)) = [] := by
          rw [List.filter_eq_nil_iff]
          intro a ha
          simp [hkey e (by simp) a ha, Ne.symm heq]
        rw [if_neg heq, hnil, List.nil_append]

/-- Two lists that agree under every key agree as multisets. -/
theorem perm_map_of_filter {β : Type*} [DecidableEq β] (key : α → κ) (f : α → β) {as bs : List α}
    (h : ∀ k, ((as.filter fun a => key a = k).map f).Perm ((bs.filter fun a => key a = k).map f)) :
    (as.map f).Perm (bs.map f) := by
  have hcount : ∀ (as : List α) (k : κ) (v : β), (as.map fun a => (key a, f a)).count (k, v)
      = ((as.filter fun a => key a = k).map f).count v := by
    intro as k v
    induction as with
    | nil => rfl
    | cons a as ih =>
        by_cases hk : key a = k
        · simp [List.count_cons, ih, hk]
        · simp [ih, hk]
  have hpairs : (as.map fun a => (key a, f a)).Perm (bs.map fun a => (key a, f a)) := by
    rw [List.perm_iff_count]
    rintro ⟨k, v⟩
    rw [hcount, hcount, (h k).count_eq]
  simpa [List.map_map, Function.comp_def] using hpairs.map Prod.snd

/-- **Two lists in ascending order of a key** that agree under every key are equal. -/
theorem eq_of_filter_eq {key : α → κ} {as bs : List α} (ha : as.Pairwise fun a b => key a ≤ key b)
    (hb : bs.Pairwise fun a b => key a ≤ key b)
    (h : ∀ k, as.filter (fun a => key a = k) = bs.filter fun a => key a = k) : as = bs := by
  have hmem : ∀ x, x ∈ as ↔ x ∈ bs := by
    intro x
    have hx : x ∈ as.filter (fun a => key a = key x) ↔ x ∈ bs.filter (fun a => key a = key x) := by
      rw [h]
    simpa [List.mem_filter] using hx
  induction as generalizing bs with
  | nil =>
      cases bs with
      | nil => rfl
      | cons b bs => exact absurd ((hmem b).mpr List.mem_cons_self) List.not_mem_nil
  | cons a as ih =>
      cases bs with
      | nil => exact absurd ((hmem a).mp List.mem_cons_self) List.not_mem_nil
      | cons b bs =>
          obtain ⟨hale, ha'⟩ := List.pairwise_cons.mp ha
          obtain ⟨hble, hb'⟩ := List.pairwise_cons.mp hb
          -- the first elements have the lowest key, which is the same
          have hle : key a ≤ key b := by
            rcases List.mem_cons.mp ((hmem b).mpr List.mem_cons_self) with heq | hmem'
            · exact heq ▸ le_rfl
            · exact hale b hmem'
          have hge : key b ≤ key a := by
            rcases List.mem_cons.mp ((hmem a).mp List.mem_cons_self) with heq | hmem'
            · exact heq ▸ le_rfl
            · exact hble a hmem'
          have hkey : key b = key a := le_antisymm hge hle
          have hfirst := h (key a)
          rw [List.filter_cons_of_pos (by simp), List.filter_cons_of_pos (by simpa using hkey)]
            at hfirst
          obtain ⟨rfl, _⟩ := List.cons.inj hfirst
          have hrest : ∀ k, as.filter (fun x => key x = k) = bs.filter fun x => key x = k := by
            intro k
            have hk := h k
            by_cases heq : key a = k
            · rw [List.filter_cons_of_pos (by simpa using heq),
                List.filter_cons_of_pos (by simpa using heq)] at hk
              exact (List.cons.inj hk).2
            · rwa [List.filter_cons_of_neg (by simpa using heq),
                List.filter_cons_of_neg (by simpa using heq)] at hk
          refine congrArg (a :: ·) (ih ha' hb' hrest fun x => ?_)
          have hx : x ∈ as.filter (fun y => key y = key x) ↔
              x ∈ bs.filter (fun y => key y = key x) := by rw [hrest]
          simpa [List.mem_filter] using hx

end OrderedMap
