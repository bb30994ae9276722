import StructurePipe.Blocks.KeepTopN
import StructurePipe.Blocks.KeepWithinWindow

/-!
# Selecting in stages

A pipe may select more than once: what one ranking block sends out comes into the next.  `batch` is a
block that takes in some structures and is then released, and `Selection.inTurn` one `batch` after the
other.

* `batch_eq` — what a block makes of a batch, in terms of the rule alone;
* `orderOf_window` — `KeepWithinXPercent` selects from the sorted arrivals what is below the cutoff;
* `foldl_select_perm` — each selection cuts the sorted arrivals somewhere, so that all of them commute;
* `selection_order` — **the order of the selections in a pipe does not matter;**
* `keepTopN_chain` — **blocks that keep the best are one.**
-/

namespace StructurePipe.Blocks

open StableMultimap StepRuns
open scoped List

variable {κ π : Type*} [LinearOrder κ] [DecidableEq π]

namespace RankingBarrier

/-- What is sent out of a block that takes in a batch of structures and is then released. -/
def batch (B : RankingBarrier κ π) (xs : List (Structure κ π)) : Option (List (Structure κ π)) :=
  (run B.step {} (xs.map BarrierOp.input ++ [.release])).map BarrierState.sent

/-- The structures that go straight through. -/
def passing (B : RankingBarrier κ π) (xs : List (Structure κ π)) : List (Structure κ π) :=
  xs.filter fun x => (B.localValue x).isNone

variable {B : RankingBarrier κ π}

omit [LinearOrder κ] [DecidableEq π] in
/-- A rule that can be followed to the end can be followed all the way. -/
theorem exists_orderOf {es later : List (Entry κ π)} {o : StructureOrder κ π}
    (h : B.orderOf (es ++ later) = some o) : ∃ o', B.orderOf es = some o' := by
  induction later using List.reverseRecOn generalizing o with
  | nil => exact ⟨o, by rwa [List.append_nil] at h⟩
  | append_singleton later e ih =>
      rw [← List.append_assoc, orderOf_concat] at h
      obtain ⟨o', ho', _⟩ := Option.bind_eq_some_iff.mp h
      exact ih ho'

theorem arrivals_concat (c : κ) (xs : List (Structure κ π)) (x : Structure κ π) :
    B.arrivals c (xs ++ [x]) = B.arrivals c xs ++ (B.arrival c x).toList := by
  rw [arrivals, List.filterMap_append]
  cases h : B.arrival c x <;> simp [h, arrivals]

/-- If the rule can be followed for each composition, a block that holds nothing takes in
everything. -/
theorem exists_run_inputs {s₀ : BarrierState κ π} (h₀ : s₀.myStructures = [])
    (xs : List (Structure κ π)) (h : ∀ c, ∃ o, B.orderOf (B.arrivals c xs) = some o) :
    ∃ s, run B.step s₀ (xs.map BarrierOp.input) = some s := by
  induction xs using List.reverseRecOn with
  | nil => exact ⟨s₀, rfl⟩
  | append_singleton xs x ih =>
      obtain ⟨s, hs⟩ := ih fun c => by
        obtain ⟨o, ho⟩ := h c
        rw [arrivals_concat] at ho
        exact exists_orderOf ho
      have horder := run_order h₀ hs (B.reduce x.composition)
      rw [received_inputs] at horder
      rw [List.map_append, run_append, hs, Option.bind_some, List.map_singleton, run_cons]
      cases hv : B.localValue x with
      | none => exact ⟨s.out x, by rw [B.step_input_of_none hv]; rfl⟩
      | some value =>
          obtain ⟨o, ho⟩ := h (B.reduce x.composition)
          rw [arrivals_concat, arrival_self hv, Option.toList_some, orderOf_concat, horder,
            Option.bind_some] at ho
          obtain ⟨r, hr, _⟩ := Option.map_eq_some_iff.mp ho
          exact ⟨_, by rw [B.step_input_of_value hv, hr]; rfl⟩

/-- The structures held are in the order of their compositions. -/
theorem Filed.pairwise_held {s : BarrierState κ π} (h : B.Filed s) :
    s.held.Pairwise fun x y => B.reduce x.composition ≤ B.reduce y.composition := by
  have hkey : ∀ e ∈ s.myStructures, ∀ x ∈ e.2.map Prod.snd, B.reduce x.composition = e.1 := by
    intro e he x hx
    obtain ⟨a, ha, rfl⟩ := List.mem_map.mp hx
    exact (h.entries e he a ha).1
  rw [BarrierState.held, List.pairwise_flatMap]
  constructor
  · intro e he
    refine List.pairwise_of_forall_mem_list fun x hx y hy => ?_
    rw [hkey e he x hx, hkey e he y hy]
  · refine h.ordered.imp_of_mem fun {e e'} he he' hlt x hx y hy => ?_
    rw [hkey e he x hx, hkey e' he' y hy]
    exact hlt.le

/-- **The arrivals of what is held** are the entries it is filed as. -/
theorem Filed.arrivals_held {s : BarrierState κ π} (h : B.Filed s) (c : κ) :
    B.arrivals c s.held = s.order c := by
  have hsame : B.arrivals c s.held
      = (s.held.filter fun x => B.reduce x.composition = c).filterMap (B.arrival c) := by
    rw [arrivals, List.filterMap_filter]
    refine List.filterMap_congr fun x _ => ?_
    by_cases hc : B.reduce x.composition = c
    · simp [hc]
    · simp [hc, arrival_of_ne hc]
  rw [hsame, h.held_filter, List.filterMap_map]
  have hentry : ∀ a ∈ s.order c, (B.arrival c ∘ Prod.snd) a = some a := by
    intro a ha
    obtain ⟨hc, hv⟩ := h.mem_order ha
    subst hc
    exact arrival_self hv
  rw [List.filterMap_congr hentry, List.filterMap_some]

/-- Structures in the order of their compositions, of each composition those selected. -/
structure Arranged (reduce : κ → κ) (selected : κ → StructureOrder κ π)
    (held : List (Structure κ π)) : Prop where
  pairwise : held.Pairwise fun x y => reduce x.composition ≤ reduce y.composition
  filter : ∀ c, held.filter (fun x => reduce x.composition = c) = (selected c).map Prod.snd

omit [DecidableEq π] in
/-- They are determined by what is selected. -/
theorem Arranged.eq {reduce : κ → κ} {selected : κ → StructureOrder κ π}
    {held held' : List (Structure κ π)} (h : Arranged reduce selected held)
    (h' : Arranged reduce selected held') : held = held' :=
  OrderedMap.eq_of_filter_eq h.pairwise h'.pairwise fun c => by rw [h.filter c, h'.filter c]

/-- Two blocks rank by the same value. -/
structure SameRanking (B B' : RankingBarrier κ π) : Prop where
  property : B'.myStructureProperty = B.myStructureProperty
  perAtom : B'.myUsePerAtom = B.myUsePerAtom
  reduce : B'.reduce = B.reduce

omit [LinearOrder κ] in
theorem SameRanking.localValue {B' : RankingBarrier κ π} (h : SameRanking B B') (x : Structure κ π) :
    B'.localValue x = B.localValue x := by
  rw [RankingBarrier.localValue, RankingBarrier.localValue, h.property, h.perAtom]

theorem SameRanking.arrivals {B' : RankingBarrier κ π} (h : SameRanking B B') (c : κ)
    (xs : List (Structure κ π)) : B'.arrivals c xs = B.arrivals c xs := by
  refine List.filterMap_congr fun x _ => ?_
  rw [arrival, arrival, h.reduce, h.localValue]

omit [LinearOrder κ] in
theorem SameRanking.passing {B' : RankingBarrier κ π} (h : SameRanking B B')
    (xs : List (Structure κ π)) : B'.passing xs = B.passing xs := by
  refine List.filter_congr fun x _ => ?_
  rw [h.localValue]

/-- **What a block makes of a batch**, in terms of its rule alone.  It sends out what goes straight
through and what it selects, which is all that arrives of each composition in a later block. -/
theorem exists_run_batch (hB : B.Conserves) {s₀ : BarrierState κ π} (h₀ : s₀.myStructures = [])
    {xs : List (Structure κ π)} {selected : κ → StructureOrder κ π}
    (h : ∀ c, B.orderOf (B.arrivals c xs) = some (selected c)) :
    ∃ s held, run B.step s₀ (xs.map BarrierOp.input ++ [.release]) = some s ∧
      s.myStructures = [] ∧ s.sent = s₀.sent ++ (B.passing xs ++ held) ∧
      Arranged B.reduce selected held ∧ B.passing (B.passing xs ++ held) = B.passing xs ∧
      ∀ c, B.arrivals c (B.passing xs ++ held) = selected c := by
  obtain ⟨s, hs⟩ := exists_run_inputs h₀ xs fun c => ⟨_, h c⟩
  obtain ⟨hfiled, _⟩ := conserves_run hB (Filed.of_empty h₀) hs
  have horder : ∀ c, s.order c = selected c := by
    intro c
    have hrun := run_order h₀ hs c
    rw [received_inputs, h c] at hrun
    exact (Option.some.inj hrun).symm
  have hsent : s.sent = s₀.sent ++ B.passing xs := sent_inputs hs
  have hvalue : ∀ x ∈ s.held, (B.localValue x).isNone = false := by
    intro x hx
    obtain ⟨value, hmem⟩ := (hfiled.mem_held x).mp hx
    rw [(hfiled.mem_order hmem).2]
    rfl
  refine ⟨s.release.2, s.held, ?_, rfl, ?_, ⟨hfiled.pairwise_held, fun c => ?_⟩, ?_, fun c => ?_⟩
  · rw [run_append, hs]
    rfl
  · show s.sent ++ s.held = _
    rw [hsent, List.append_assoc]
  · rw [hfiled.held_filter, horder]
  · have hnil : B.passing s.held = [] := by
      rw [passing, List.filter_eq_nil_iff]
      intro x hx
      rw [hvalue x hx]
      exact Bool.false_ne_true
    have happend : B.passing (B.passing xs ++ s.held)
        = B.passing (B.passing xs) ++ B.passing s.held := List.filter_append _ _
    rw [happend, hnil, List.append_nil]
    simp [passing]
  · have hpassing : B.arrivals c (B.passing xs) = [] := by
      rw [arrivals, List.filterMap_eq_nil_iff]
      intro x hx
      exact arrival_of_none (by simpa using (List.mem_filter.mp hx).2)
    have happend : B.arrivals c (B.passing xs ++ s.held)
        = B.arrivals c (B.passing xs) ++ B.arrivals c s.held := List.filterMap_append
    rw [happend, hpassing, List.nil_append, hfiled.arrivals_held, horder]

/-- What is sent out of a batch, and what the next block sees of it. -/
theorem exists_batch (hB : B.Conserves) {xs : List (Structure κ π)}
    {selected : κ → StructureOrder κ π}
    (h : ∀ c, B.orderOf (B.arrivals c xs) = some (selected c)) :
    ∃ held, B.batch xs = some (B.passing xs ++ held) ∧ Arranged B.reduce selected held ∧
      B.passing (B.passing xs ++ held) = B.passing xs ∧
      ∀ c, B.arrivals c (B.passing xs ++ held) = selected c := by
  have hempty : ({} : BarrierState κ π).myStructures = [] := rfl
  obtain ⟨s, held, hs, _, hsent, hnext⟩ := exists_run_batch hB hempty h
  refine ⟨held, ?_, hnext⟩
  rw [batch, hs, Option.map_some, hsent]
  rfl

theorem batch_eq (hB : B.Conserves) {xs : List (Structure κ π)} {selected : κ → StructureOrder κ π}
    (h : ∀ c, B.orderOf (B.arrivals c xs) = some (selected c)) :
    ∃ held, B.batch xs = some (B.passing xs ++ held) ∧ Arranged B.reduce selected held := by
  obtain ⟨held, hbatch, harranged, _⟩ := exists_batch hB h
  exact ⟨held, hbatch, harranged⟩

/-! ### Rounds -/

/-- What is sent out of a block that takes in one batch after the other, with a release after each. -/
def rounds (B : RankingBarrier κ π) (batches : List (List (Structure κ π))) :
    Option (List (Structure κ π)) :=
  (run B.step {} (batches.flatMap fun xs => xs.map BarrierOp.input ++ [.release])).map
    BarrierState.sent

/-- **Every round on its own**, as the next block sees it. -/
theorem exists_rounds (hB : B.Conserves) {batches : List (List (Structure κ π))}
    {selected : List (Structure κ π) → κ → StructureOrder κ π}
    (h : ∀ xs ∈ batches, ∀ c, B.orderOf (B.arrivals c xs) = some (selected xs c)) :
    ∃ sent, B.rounds batches = some sent ∧ B.passing sent = B.passing batches.flatten ∧
      ∀ c, B.arrivals c sent = batches.flatMap fun xs => selected xs c := by
  have hrun : ∃ s, run B.step {}
        (batches.flatMap fun xs => xs.map BarrierOp.input ++ [.release]) = some s ∧
      s.myStructures = [] ∧ B.passing s.sent = B.passing batches.flatten ∧
      ∀ c, B.arrivals c s.sent = batches.flatMap fun xs => selected xs c := by
    induction batches using List.reverseRecOn with
    | nil => exact ⟨{}, rfl, rfl, rfl, fun _ => rfl⟩
    | append_singleton batches xs ih =>
        obtain ⟨s, hs, hempty, hpassing, harrivals⟩ := ih fun xs hxs => h xs (by simp [hxs])
        obtain ⟨s', held, hs', hempty', hsent, _, hpassing', harrivals'⟩ :=
          exists_run_batch hB hempty (h xs (by simp))
        refine ⟨s', ?_, hempty', ?_, fun c => ?_⟩
        · rw [List.flatMap_append, run_append, hs, Option.bind_some, List.flatMap_singleton, hs']
        · have happend : B.passing s'.sent
              = B.passing s.sent ++ B.passing (B.passing xs ++ held) := by
            rw [hsent]
            exact List.filter_append _ _
          rw [happend, hpassing, hpassing', List.flatten_append, List.flatten_singleton]
          exact (List.filter_append _ _).symm
        · have happend : B.arrivals c s'.sent
              = B.arrivals c s.sent ++ B.arrivals c (B.passing xs ++ held) := by
            rw [hsent]
            exact List.filterMap_append
          rw [happend, harrivals, harrivals', List.flatMap_append, List.flatMap_singleton]
  obtain ⟨s, hs, _, hpassing, harrivals⟩ := hrun
  exact ⟨s.sent, by rw [rounds, hs]; rfl, hpassing, harrivals⟩

/-- The arrivals of all batches are those of one after the other. -/
theorem arrivals_flatten (c : κ) (batches : List (List (Structure κ π))) :
    B.arrivals c batches.flatten = batches.flatMap (B.arrivals c) := by
  induction batches with
  | nil => rfl
  | cons xs batches ih =>
      rw [List.flatten_cons, List.flatMap_cons, ← ih]
      exact List.filterMap_append

/-- **A block behind another one** that ranks by the same value sees, of each composition, what was
selected in each round. -/
theorem exists_rounds_bind {B' : RankingBarrier κ π} (hsame : SameRanking B B') (hB : B.Conserves)
    (hB' : B'.Conserves) {batches : List (List (Structure κ π))}
    {selected : List (Structure κ π) → κ → StructureOrder κ π} {selected' : κ → StructureOrder κ π}
    (h : ∀ xs ∈ batches, ∀ c, B.orderOf (B.arrivals c xs) = some (selected xs c))
    (h' : ∀ c, B'.orderOf (batches.flatMap fun xs => selected xs c) = some (selected' c)) :
    ∃ held, (B.rounds batches).bind B'.batch = some (B.passing batches.flatten ++ held) ∧
      Arranged B.reduce selected' held := by
  obtain ⟨sent, hrounds, hpassing, harrivals⟩ := exists_rounds hB h
  have horder : ∀ c, B'.orderOf (B'.arrivals c sent) = some (selected' c) := by
    intro c
    rw [hsame.arrivals, harrivals, h']
  obtain ⟨held, hbatch, harranged⟩ := batch_eq hB' horder
  rw [hsame.passing, hpassing] at hbatch
  rw [hsame.reduce] at harranged
  exact ⟨held, by rw [hrounds]; exact hbatch, harranged⟩

end RankingBarrier

open RankingBarrier

/-! ### What the window selects -/

namespace KeepWithinXPercent

variable {B : RankingBarrier κ π} {p : ℚ}

omit [LinearOrder κ] [DecidableEq π] in
/-- What is held is a part of the sorted arrivals, for any values. -/
theorem orderOf_sublist (hrule : B.keepIn = KeepWithinXPercent.keepIn p) {es : List (Entry κ π)}
    {order : StructureOrder κ π} (h : B.orderOf es = some order) :
    order.Sublist (es.insertionSort keyLE) := by
  induction es using List.reverseRecOn generalizing order with
  | nil =>
      obtain rfl := Option.some.inj h
      exact List.Sublist.refl _
  | append_singleton es e ih =>
      rw [orderOf_concat, hrule] at h
      obtain ⟨o, ho, hmap⟩ := Option.bind_eq_some_iff.mp h
      obtain ⟨⟨order', drops⟩, hkeep, rfl⟩ := Option.map_eq_some_iff.mp hmap
      have hsorted : Sorted (es.insertionSort keyLE) := List.pairwise_insertionSort keyLE es
      have hinsert := insert_sublist_insert hsorted (ih ho) e
      rw [insertionSort_concat]
      cases o with
      | nil =>
          obtain ⟨rfl, -⟩ := Prod.mk.inj (Option.some.inj hkeep)
          exact hinsert
      | cons lowest rest =>
          rw [KeepWithinXPercent.keepIn] at hkeep
          split at hkeep
          · obtain ⟨⟨l, ds⟩, hback, heq⟩ := Option.map_eq_some_iff.mp hkeep
            obtain ⟨rfl, rfl⟩ := Prod.mk.inj heq
            -- what is evicted comes from the end
            obtain ⟨hsplit, _⟩ := evictBack_spec hback
            have hpart : l.reverse.Sublist (StableMultimap.insert e (lowest :: rest)) := by
              have hreverse := congrArg List.reverse hsplit
              rw [List.reverse_reverse, List.reverse_append] at hreverse
              exact hreverse ▸ List.sublist_append_left _ _
            exact hpart.trans hinsert
          · split at hkeep
            · obtain ⟨rfl, -⟩ := Prod.mk.inj (Option.some.inj hkeep)
              exact hinsert
            · obtain ⟨rfl, -⟩ := Prod.mk.inj (Option.some.inj hkeep)
              have hself : (lowest :: rest).Sublist (StableMultimap.insert e (lowest :: rest)) :=
                List.sublist_orderedInsert e _
              exact hself.trans hinsert

omit [LinearOrder κ] [DecidableEq π] in
/-- The cutoff of sorted entries is that of their lowest value. -/
theorem getCutoff_insertionSort (p : ℚ) {es : List (Entry κ π)} {m : Entry κ π} (hm : m ∈ es)
    (hle : ∀ e ∈ es, m.1 ≤ e.1) : getCutoff p (es.insertionSort keyLE) = m.1 * (1 - p) := by
  have hmem : ∀ e, e ∈ es.insertionSort keyLE ↔ e ∈ es := fun e => List.mem_insertionSort keyLE
  have hsorted : Sorted (es.insertionSort keyLE) := List.pairwise_insertionSort keyLE es
  cases hsort : es.insertionSort keyLE with
  | nil => exact absurd ((hmem m).mpr hm) (by simp [hsort])
  | cons lowest rest =>
      have hge : lowest.1 ≤ m.1 := by
        rw [hsort] at hsorted
        have hm' : m ∈ lowest :: rest := hsort ▸ (hmem m).mpr hm
        rcases List.mem_cons.mp hm' with rfl | hm'
        · exact le_rfl
        · exact (List.pairwise_cons.mp hsorted).1 m hm'
      have hlowest : m.1 ≤ lowest.1 := hle lowest ((hmem lowest).mp (by simp [hsort]))
      rw [getCutoff, le_antisymm hge hlowest]

/-- What is below the cutoff of the lowest value. -/
def windowOf (p : ℚ) (order : StructureOrder κ π) : StructureOrder κ π :=
  order.filter fun e => e.1 < getCutoff p order

/-- No value is the cutoff. -/
def OffCutoff (p : ℚ) (es : List (Entry κ π)) : Prop :=
  ∀ e ∈ es, e.1 ≠ getCutoff p (es.insertionSort keyLE)

omit [LinearOrder κ] [DecidableEq π] in
/-- **The window selects from the sorted arrivals** what is below the cutoff. -/
theorem orderOf_window (hrule : B.keepIn = KeepWithinXPercent.keepIn p) (hp : 0 ≤ p) (hp1 : p ≤ 1)
    {es : List (Entry κ π)} (hes : ∀ e ∈ es, e.1 ≤ 0) (hoff : OffCutoff p es) :
    B.orderOf es = some (windowOf p (es.insertionSort keyLE)) := by
  rcases eq_or_ne es [] with rfl | hne
  · rfl
  · obtain ⟨order, m, drops, horder, hkept⟩ := exists_kept hrule hp hp1 hne hes
    have hcut : getCutoff p (es.insertionSort keyLE) = m.1 * (1 - p) :=
      getCutoff_insertionSort p hkept.mem hkept.le
    have hbelow : ∀ x ∈ order, x.1 < m.1 * (1 - p) := fun x hx =>
      lt_of_le_of_ne (hkept.within x hx) (hcut ▸ hoff x (hkept.subset x hx))
    have hselect : order.filter (fun e => e.1 < m.1 * (1 - p)) = order := by
      rw [List.filter_eq_self]
      exact fun x hx => by simpa using hbelow x hx
    have hdrops : drops.filter (fun e => e.1 < m.1 * (1 - p)) = [] := by
      rw [List.filter_eq_nil_iff]
      exact fun d hd => by simpa using hkept.outside d hd
    have hsub : order.Sublist (windowOf p (es.insertionSort keyLE)) := by
      rw [windowOf, hcut, ← hselect]
      exact (orderOf_sublist hrule horder).filter _
    have hlength : order.length = (windowOf p (es.insertionSort keyLE)).length := by
      have hperm : es.insertionSort keyLE ~ order ++ drops :=
        (List.perm_insertionSort keyLE es).trans hkept.perm.symm
      rw [windowOf, hcut, (hperm.filter _).length_eq, List.filter_append, hselect, hdrops,
        List.append_nil]
    rw [horder, hsub.eq_of_length hlength]

end KeepWithinXPercent

open KeepWithinXPercent (windowOf OffCutoff orderOf_window)

/-! ### Selections in turn -/

/-- A block that selects: the best ones, or what is within a window. -/
inductive Selection where
  | top (n : ℕ)
  | within (p : ℚ)
deriving DecidableEq, Repr

namespace Selection

section Selecting

variable {κ π : Type*}

/-- What it selects from sorted entries. -/
def select : Selection → StructureOrder κ π → StructureOrder κ π
  | top n, order => order.take n
  | within p, order => windowOf p order

/-- The entries it selects from by that rule alone: a window needs a fraction between zero and one,
values that are not positive, and none at the cutoff. -/
def Fits (es : List (Entry κ π)) : Selection → Prop
  | top _ => True
  | within p => (0 ≤ p ∧ p ≤ 1) ∧ (∀ e ∈ es, e.1 ≤ 0) ∧ OffCutoff p es

/-- The lowest value of the first ones is the lowest of all. -/
theorem getCutoff_take (p : ℚ) (order : StructureOrder κ π) {n : ℕ} (hn : n ≠ 0) :
    KeepWithinXPercent.getCutoff p (order.take n) = KeepWithinXPercent.getCutoff p order := by
  cases n with
  | zero => exact absurd rfl hn
  | succ n => cases order <;> rfl

/-- Cutting the entries first and selecting from them can be done in either order. -/
theorem select_take (S : Selection) {order : StructureOrder κ π} (h : Sorted order) (n : ℕ) :
    S.select (order.take n) = (S.select order).take n := by
  cases S with
  | top k =>
      show (order.take n).take k = (order.take k).take n
      rw [List.take_take, List.take_take, min_comm]
  | within p =>
      rcases eq_or_ne n 0 with rfl | hn
      · rfl
      · show windowOf p (order.take n) = (windowOf p order).take n
        rw [windowOf, windowOf, getCutoff_take p order hn, h.take_filter_lt]

/-- It selects the first ones. -/
theorem exists_select_eq_take (S : Selection) {order : StructureOrder κ π} (h : Sorted order) :
    ∃ k, S.select order = order.take k := by
  cases S with
  | top n => exact ⟨n, rfl⟩
  | within p => exact h.exists_filter_lt_eq_take _

/-- What is selected is sorted. -/
theorem sorted_select (S : Selection) {order : StructureOrder κ π} (h : Sorted order) :
    Sorted (S.select order) := by
  obtain ⟨k, hk⟩ := S.exists_select_eq_take h
  rw [hk]
  exact h.sublist (List.take_sublist k order)

/-- **Two selections commute:** each of them cuts the entries somewhere. -/
theorem select_comm (S S' : Selection) {order : StructureOrder κ π} (h : Sorted order) :
    S.select (S'.select order) = S'.select (S.select order) := by
  obtain ⟨k, hk⟩ := S.exists_select_eq_take h
  obtain ⟨k', hk'⟩ := S'.exists_select_eq_take h
  rw [hk', S.select_take h, hk, S'.select_take h, hk', List.take_take, List.take_take, min_comm]

/-- So do any number of them. -/
theorem foldl_select_perm {sels sels' : List Selection} (hperm : sels.Perm sels')
    {order : StructureOrder κ π} (h : Sorted order) :
    sels.foldl (fun o S => S.select o) order = sels'.foldl (fun o S => S.select o) order := by
  induction hperm generalizing order with
  | nil => rfl
  | cons S _ ih => exact ih (S.sorted_select h)
  | swap S S' sels =>
      rw [List.foldl_cons, List.foldl_cons, List.foldl_cons, List.foldl_cons, select_comm S S' h]
  | trans _ _ ih ih' => exact (ih h).trans (ih' h)

/-- A selection that can be made can still be made after another one. -/
theorem Fits.select {S : Selection} (S' : Selection) {order : StructureOrder κ π}
    (h : Sorted order) (hfits : S.Fits order) : S.Fits (S'.select order) := by
  obtain ⟨k, hk⟩ := S'.exists_select_eq_take h
  rw [hk]
  cases S with
  | top n => trivial
  | within p =>
      obtain ⟨hp, hneg, hoff⟩ := hfits
      refine ⟨hp, fun e he => hneg e (List.mem_of_mem_take he), fun e he => ?_⟩
      have hk0 : k ≠ 0 := by
        rintro rfl
        exact absurd he (by simp)
      have htake : Sorted (order.take k) := h.sublist (List.take_sublist k order)
      have hcut := hoff e (List.mem_of_mem_take he)
      rw [h.insertionSort_eq] at hcut
      rwa [htake.insertionSort_eq, getCutoff_take p order hk0]

/-- Whether it can be made does not depend on the order of the entries. -/
theorem Fits.insertionSort {S : Selection} {es : List (Entry κ π)} (hfits : S.Fits es) :
    S.Fits (es.insertionSort keyLE) := by
  cases S with
  | top n => trivial
  | within p =>
      obtain ⟨hp, hneg, hoff⟩ := hfits
      refine ⟨hp, fun e he => hneg e ((List.mem_insertionSort keyLE).mp he), fun e he => ?_⟩
      rw [insertionSort_idem]
      exact hoff e ((List.mem_insertionSort keyLE).mp he)

variable (property : π) (usePerAtom : Bool) (reduce : κ → κ)

/-- The block itself. -/
def block : Selection → RankingBarrier κ π
  | top n => keepTopN n property usePerAtom reduce
  | within p => keepWithinXPercent p property usePerAtom reduce

theorem sameRanking (S S' : Selection) :
    SameRanking (S.block property usePerAtom reduce) (S'.block property usePerAtom reduce) := by
  cases S <;> cases S' <;> exact ⟨rfl, rfl, rfl⟩

theorem conserves (S : Selection) : (S.block property usePerAtom reduce).Conserves := by
  cases S with
  | top n => exact KeepTopN.conserves n property usePerAtom reduce
  | within p => exact KeepWithinXPercent.conserves p property usePerAtom reduce

/-- **The block makes its selection.** -/
theorem Fits.orderOf {S : Selection} {es : List (Entry κ π)} (hfits : S.Fits es) :
    (S.block property usePerAtom reduce).orderOf es
      = some (S.select (es.insertionSort keyLE)) := by
  cases S with
  | top n => exact orderOf_keepTopN n property usePerAtom reduce es
  | within p =>
      obtain ⟨⟨hp, hp1⟩, hneg, hoff⟩ := hfits
      exact orderOf_window rfl hp hp1 hneg hoff

end Selecting

variable (property : π) (usePerAtom : Bool) (reduce : κ → κ)

/-- What comes out of a pipe of such blocks, of which each takes in what the one before it sends
out. -/
def inTurn (sels : List Selection) (xs : List (Structure κ π)) : Option (List (Structure κ π)) :=
  sels.foldlM (fun ys S => (S.block property usePerAtom reduce).batch ys) xs

/-- The structures that no selection is made from. -/
def passing (xs : List (Structure κ π)) : List (Structure κ π) :=
  (block property usePerAtom reduce (.top 0)).passing xs

/-- The values of a composition, with the structures they belong to, as they come. -/
def arrivals (c : κ) (xs : List (Structure κ π)) : List (Entry κ π) :=
  (block property usePerAtom reduce (.top 0)).arrivals c xs

variable {property usePerAtom reduce}

/-- One selection: it leaves what it selects of each composition to the next one. -/
theorem exists_batch (S : Selection) {xs : List (Structure κ π)}
    (hfits : ∀ c, S.Fits (arrivals property usePerAtom reduce c xs)) :
    ∃ ys held, (S.block property usePerAtom reduce).batch xs = some ys ∧
      ys = passing property usePerAtom reduce xs ++ held ∧
      Arranged reduce (fun c => S.select
        ((arrivals property usePerAtom reduce c xs).insertionSort keyLE)) held ∧
      passing property usePerAtom reduce ys = passing property usePerAtom reduce xs ∧
      ∀ c, arrivals property usePerAtom reduce c ys = S.select
        ((arrivals property usePerAtom reduce c xs).insertionSort keyLE) := by
  have hsame := sameRanking property usePerAtom reduce (.top 0) S
  have horder : ∀ c, (S.block property usePerAtom reduce).orderOf
      ((S.block property usePerAtom reduce).arrivals c xs)
      = some (S.select ((arrivals property usePerAtom reduce c xs).insertionSort keyLE)) := by
    intro c
    rw [hsame.arrivals]
    exact (hfits c).orderOf property usePerAtom reduce
  obtain ⟨held, hbatch, harranged, hpassing, harrivals⟩ :=
    RankingBarrier.exists_batch (S.conserves property usePerAtom reduce) horder
  rw [hsame.passing] at hbatch hpassing harrivals
  rw [hsame.passing] at hpassing
  rw [hsame.reduce] at harranged
  refine ⟨_, held, hbatch, rfl, harranged, hpassing, fun c => ?_⟩
  rw [← harrivals c, hsame.arrivals]
  rfl

/-- **Any number of selections, the first one being `S`.** -/
theorem exists_inTurn (S : Selection) (sels : List Selection) {xs : List (Structure κ π)}
    (hfits : ∀ S' ∈ S :: sels, ∀ c, S'.Fits (arrivals property usePerAtom reduce c xs)) :
    ∃ held, inTurn property usePerAtom reduce (S :: sels) xs
        = some (passing property usePerAtom reduce xs ++ held) ∧
      Arranged reduce (fun c => (S :: sels).foldl (fun o S' => S'.select o)
        ((arrivals property usePerAtom reduce c xs).insertionSort keyLE)) held := by
  induction sels generalizing S xs with
  | nil =>
      obtain ⟨ys, held, hbatch, rfl, harranged, _⟩ := exists_batch S fun c => hfits S (by simp) c
      refine ⟨held, ?_, harranged⟩
      rw [inTurn, List.foldlM_cons, hbatch]
      rfl
  | cons S' sels ih =>
      obtain ⟨ys, _, hbatch, _, _, hpassing, harrivals⟩ :=
        exists_batch S fun c => hfits S (by simp) c
      have hsorted : ∀ c, Sorted ((arrivals property usePerAtom reduce c xs).insertionSort keyLE) :=
        fun c => List.pairwise_insertionSort keyLE _
      obtain ⟨held, hturn, harranged⟩ := ih S' fun T hT c => by
        rw [harrivals]
        exact (hfits T (by simp [List.mem_cons.mp hT]) c).insertionSort.select S (hsorted c)
      refine ⟨held, ?_, ?_⟩
      · rw [inTurn, List.foldlM_cons, hbatch, ← hpassing]
        exact hturn
      · have hagain : ∀ c, (arrivals property usePerAtom reduce c ys).insertionSort keyLE
            = S.select ((arrivals property usePerAtom reduce c xs).insertionSort keyLE) := fun c => by
          rw [harrivals, (S.sorted_select (hsorted c)).insertionSort_eq]
        simp only [hagain] at harranged
        exact harranged

end Selection

section Stages

open Selection

variable (property : π) (usePerAtom : Bool) (reduce : κ → κ)

/-- **The order of the selections does not matter.**  A pipe has any number of blocks that keep the
best structures or those within a window, in any order, all by the same value.  For fractions between
zero and one, values that are not positive and none of them at a cutoff, the same blocks in any other
order send out the same structures in the same order. -/
theorem selection_order {sels sels' : List Selection} (hperm : sels.Perm sels')
    (xs : List (Structure κ π))
    (hfits : ∀ S ∈ sels, ∀ c, S.Fits (arrivals property usePerAtom reduce c xs)) :
    ∃ sent, inTurn property usePerAtom reduce sels xs = some sent ∧
      inTurn property usePerAtom reduce sels' xs = some sent := by
  cases sels with
  | nil =>
      obtain rfl := hperm.nil_eq
      exact ⟨xs, rfl, rfl⟩
  | cons S sels =>
      cases sels' with
      | nil => exact absurd hperm.symm.nil_eq (by simp)
      | cons S' sels' =>
          obtain ⟨held, hturn, harranged⟩ := exists_inTurn S sels hfits
          obtain ⟨held', hturn', harranged'⟩ := exists_inTurn S' sels' fun T hT =>
            hfits T (hperm.mem_iff.mpr hT)
          have hselected : ∀ c, (S' :: sels').foldl (fun o T => T.select o)
                ((arrivals property usePerAtom reduce c xs).insertionSort keyLE)
              = (S :: sels).foldl (fun o T => T.select o)
                ((arrivals property usePerAtom reduce c xs).insertionSort keyLE) := fun c =>
            (foldl_select_perm hperm (List.pairwise_insertionSort keyLE _)).symm
          simp only [hselected] at harranged'
          have hheld : held' = held := harranged'.eq harranged
          exact ⟨_, hturn, hheld ▸ hturn'⟩

/-- Three structures of one composition, the lowest last: of the two best the window drops one. -/
theorem selection_order_at :
    ∃ sent, inTurn () false (id : Unit → Unit) [.top 2, .within (1 / 10), .top 3]
        [⟨(), 1, [((), -5)]⟩, ⟨(), 2, [((), -9)]⟩, ⟨(), 3, [((), -20)]⟩] = some sent ∧
      inTurn () false (id : Unit → Unit) [.within (1 / 10), .top 3, .top 2]
        [⟨(), 1, [((), -5)]⟩, ⟨(), 2, [((), -9)]⟩, ⟨(), 3, [((), -20)]⟩] = some sent := by
  have hperm : [Selection.top 2, .within (1 / 10), .top 3].Perm [.within (1 / 10), .top 3, .top 2] :=
    (List.Perm.swap _ _ _).trans ((List.Perm.swap _ _ _).cons _)
  refine selection_order () false id hperm
    [⟨(), 1, [((), -5)]⟩, ⟨(), 2, [((), -9)]⟩, ⟨(), 3, [((), -20)]⟩] ?_
  intro S hS c
  have harrivals : arrivals () false (id : Unit → Unit) c
        [⟨(), 1, [((), -5)]⟩, ⟨(), 2, [((), -9)]⟩, ⟨(), 3, [((), -20)]⟩]
      = [(-5, ⟨(), 1, [((), -5)]⟩), (-9, ⟨(), 2, [((), -9)]⟩), (-20, ⟨(), 3, [((), -20)]⟩)] := by
    cases c
    decide
  rw [harrivals]
  have hmem : S = .top 2 ∨ S = .within (1 / 10) ∨ S = .top 3 := by simpa using hS
  rcases hmem with rfl | rfl | rfl
  · trivial
  · have hsort : List.insertionSort keyLE ([(-5, ⟨(), 1, [((), -5)]⟩), (-9, ⟨(), 2, [((), -9)]⟩),
          (-20, ⟨(), 3, [((), -20)]⟩)] : List (Entry Unit Unit))
        = [(-20, ⟨(), 3, [((), -20)]⟩), (-9, ⟨(), 2, [((), -9)]⟩), (-5, ⟨(), 1, [((), -5)]⟩)] := by
      decide
    refine ⟨by norm_num, fun e he => ?_, fun e he => ?_⟩
    · have hvalue : e.1 = -5 ∨ e.1 = -9 ∨ e.1 = -20 := by
        simpa using List.mem_map_of_mem (f := Prod.fst) he
      rcases hvalue with h | h | h <;> norm_num [h]
    · have hvalue : e.1 = -5 ∨ e.1 = -9 ∨ e.1 = -20 := by
        simpa using List.mem_map_of_mem (f := Prod.fst) he
      rw [hsort]
      rcases hvalue with h | h | h <;> norm_num [h, KeepWithinXPercent.getCutoff]
  · trivial

omit [LinearOrder κ] [DecidableEq π] in
theorem foldl_select_top (n : ℕ) (ns : List ℕ) (order : StructureOrder κ π) :
    (ns.map Selection.top).foldl (fun o T => T.select o) (order.take n)
      = order.take (ns.foldl min n) := by
  induction ns generalizing n with
  | nil => rfl
  | cons m ns ih =>
      rw [List.map_cons, List.foldl_cons, List.foldl_cons, ← ih, min_comm, ← List.take_take]
      rfl

end Stages

end StructurePipe.Blocks
