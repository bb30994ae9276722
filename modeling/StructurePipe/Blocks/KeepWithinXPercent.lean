import StructurePipe.Blocks.RankingBarrier

/-!
# Keeping what is close to the best

`KeepWithinXPercent` keeps the structures of a composition whose value is within a fraction of the
lowest one.  The window is applied in two places: an arrival is kept if it is strictly below the
cutoff, and a new lowest value evicts from the end what lies strictly above the new cutoff.

The eviction loop reads the last entry without asking whether there is one; on an empty container that
is undefined behaviour, and `none` here.

* `keepIn_new_lowest`, `keepIn_other` — what one arrival does;
* `Lowest.keepIn` — **the lowest value stays, as long as it is not above its own cutoff;**
* `Window.keepIn` — everything below the cutoff is held and nothing above it;
* `never_loses_best_iff` — exactly when the best structure is never lost;
* `order_independent_iff` — exactly when the order of arrival does not matter.
-/

namespace StructurePipe.Blocks

open StableMultimap StepRuns
open scoped List

variable {κ π : Type*}

namespace KeepWithinXPercent

/-- `std::numeric_limits<double>::max()`. -/
def DBL_MAX : ℚ := (2 ^ 53 - 1) * 2 ^ 971

def getCutoff (myKeepPercent : ℚ) : StructureOrder κ π → ℚ
  | [] => DBL_MAX
  | lowest :: _ => lowest.1 * (1 - myKeepPercent)

/-- The loop of `newLowest`, on the entries from the last to the first: what is left and what was
dropped. -/
def evictBack (cutoff : ℚ) : List (Entry κ π) → Option (List (Entry κ π) × List (Entry κ π))
  | [] => none
  | last :: rest =>
      if cutoff < last.1 then
        (evictBack cutoff rest).map fun (order, drops) => (order, last :: drops)
      else some (last :: rest, [])

def evict (cutoff : ℚ) (order : StructureOrder κ π) :
    Option (StructureOrder κ π × List (Entry κ π)) :=
  (evictBack cutoff order.reverse).map fun (order, drops) => (order.reverse, drops)

def newLowest (myKeepPercent : ℚ) (order : StructureOrder κ π) (e : Entry κ π) :
    Option (StructureOrder κ π × List (Entry κ π)) :=
  let order := StableMultimap.insert e order
  evict (getCutoff myKeepPercent order) order

/-- The rule of `keep`. -/
def keepIn (myKeepPercent : ℚ) (order : StructureOrder κ π) (e : Entry κ π) :
    Option (StructureOrder κ π × List (Entry κ π)) :=
  match order with
  | [] => some (StableMultimap.insert e [], [])
  | lowest :: _ =>
      if e.1 < lowest.1 then newLowest myKeepPercent order e
      else if e.1 < getCutoff myKeepPercent order then some (StableMultimap.insert e order, [])
      else some (order, [e])

end KeepWithinXPercent

/-- The block.  By default it ranks by the enthalpy per atom. -/
def keepWithinXPercent (myKeepPercent : ℚ) (property : π) (usePerAtom : Bool) (reduce : κ → κ) :
    RankingBarrier κ π where
  myStructureProperty := property
  myUsePerAtom := usePerAtom
  reduce := reduce
  keepIn := KeepWithinXPercent.keepIn myKeepPercent

namespace KeepWithinXPercent

/-! ### The eviction loop -/

/-- The loop drops from one end, and stops at an entry that it keeps. -/
theorem evictBack_spec {cutoff : ℚ} {l l' drops : List (Entry κ π)}
    (h : evictBack cutoff l = some (l', drops)) : l = drops ++ l' ∧ l' ≠ [] := by
  induction l generalizing drops with
  | nil => simp [evictBack] at h
  | cons e l ih =>
      rw [evictBack] at h
      split at h
      · obtain ⟨⟨o, ds⟩, hrec, heq⟩ := Option.map_eq_some_iff.mp h
        obtain ⟨rfl, rfl⟩ := Prod.mk.inj heq
        obtain ⟨hsplit, hne⟩ := ih hrec
        exact ⟨by rw [hsplit, List.cons_append], hne⟩
      · obtain ⟨rfl, rfl⟩ := Prod.mk.inj (Option.some.inj h)
        exact ⟨rfl, List.cons_ne_nil e l⟩

/-- If every entry is above the cutoff the loop runs past the beginning. -/
theorem evictBack_eq_none {cutoff : ℚ} {l : List (Entry κ π)} (h : ∀ e ∈ l, cutoff < e.1) :
    evictBack cutoff l = none := by
  induction l with
  | nil => rfl
  | cons e l ih =>
      rw [evictBack, if_pos (h e (by simp)), ih fun e' he' => h e' (by simp [he'])]
      rfl

/-- If some entry is not, the loop stops there, and in descending order it has dropped exactly the
entries above the cutoff. -/
theorem evictBack_eq_some {cutoff : ℚ} {l : List (Entry κ π)}
    (hdesc : l.Pairwise fun a b => b.1 ≤ a.1) (h : ∃ e ∈ l, e.1 ≤ cutoff) :
    ∃ drops, evictBack cutoff l = some (l.filter (fun e => e.1 ≤ cutoff), drops) := by
  induction l with
  | nil => simp at h
  | cons e l ih =>
      obtain ⟨he, hl⟩ := List.pairwise_cons.mp hdesc
      rw [evictBack]
      split
      · next hlt =>
          obtain ⟨e', hmem, hle⟩ := h
          have hmem' : e' ∈ l := by
            rcases List.mem_cons.mp hmem with rfl | hmem
            · exact absurd hlt (not_lt.mpr hle)
            · exact hmem
          obtain ⟨drops, hrec⟩ := ih hl ⟨e', hmem', hle⟩
          refine ⟨e :: drops, ?_⟩
          rw [hrec, List.filter_cons_of_neg (by simpa using hlt)]
          rfl
      · next hge =>
          have hall : (e :: l).filter (fun e => decide (e.1 ≤ cutoff)) = e :: l := by
            rw [List.filter_eq_self]
            intro e' he'
            rcases List.mem_cons.mp he' with rfl | he'
            · simpa using hge
            · simpa using (he e' he').trans (not_lt.mp hge)
          exact ⟨[], by rw [hall]⟩

theorem evict_eq_none {cutoff : ℚ} {order : StructureOrder κ π} (h : ∀ e ∈ order, cutoff < e.1) :
    evict cutoff order = none := by
  rw [evict, evictBack_eq_none fun e he => h e (List.mem_reverse.mp he)]
  rfl

theorem evict_eq_some {cutoff : ℚ} {order : StructureOrder κ π} (hsorted : Sorted order)
    (h : ∃ e ∈ order, e.1 ≤ cutoff) :
    ∃ drops, evict cutoff order = some (order.filter (fun e => e.1 ≤ cutoff), drops) := by
  have hdesc : order.reverse.Pairwise fun a b => b.1 ≤ a.1 := List.pairwise_reverse.mpr hsorted
  obtain ⟨e, he, hle⟩ := h
  obtain ⟨drops, hdrops⟩ := evictBack_eq_some hdesc ⟨e, List.mem_reverse.mpr he, hle⟩
  refine ⟨drops, ?_⟩
  rw [evict, hdrops, List.filter_reverse]
  simp

/-! ### One arrival -/

/-- A new lowest value that is above its own cutoff empties the container. -/
theorem keepIn_eq_none {p : ℚ} {order : StructureOrder κ π} {e : Entry κ π} (hne : order ≠ [])
    (hlow : ∀ x ∈ order, e.1 < x.1) (hcut : e.1 * (1 - p) < e.1) : keepIn p order e = none := by
  obtain ⟨lowest, rest, rfl⟩ := List.exists_cons_of_ne_nil hne
  rw [keepIn, if_pos (hlow lowest (by simp)), newLowest, insert_of_lt hlow]
  refine evict_eq_none fun x hx => ?_
  rcases List.mem_cons.mp hx with rfl | hx
  · exact hcut
  · exact lt_trans hcut (hlow x hx)

/-- A new lowest value that is not: it stays, with what is not above the new cutoff. -/
theorem keepIn_new_lowest {p : ℚ} {order : StructureOrder κ π} {e : Entry κ π} (hne : order ≠ [])
    (hsorted : Sorted order) (hlow : ∀ x ∈ order, e.1 < x.1) (hcut : e.1 ≤ e.1 * (1 - p)) :
    ∃ drops, keepIn p order e
      = some (e :: order.filter (fun x => x.1 ≤ e.1 * (1 - p)), drops) := by
  obtain ⟨lowest, rest, rfl⟩ := List.exists_cons_of_ne_nil hne
  have hsorted' : Sorted (e :: lowest :: rest) :=
    List.pairwise_cons.mpr ⟨fun x hx => (hlow x hx).le, hsorted⟩
  obtain ⟨drops, hdrops⟩ : ∃ drops, evict (e.1 * (1 - p)) (e :: lowest :: rest)
      = some ((e :: lowest :: rest).filter (fun x => x.1 ≤ e.1 * (1 - p)), drops) :=
    evict_eq_some hsorted' ⟨e, by simp, hcut⟩
  refine ⟨drops, ?_⟩
  rw [List.filter_cons_of_pos (by simpa using hcut)] at hdrops
  rw [keepIn, if_pos (hlow lowest (by simp)), newLowest, insert_of_lt hlow]
  exact hdrops

/-- Any other value is kept if it is below the cutoff. -/
theorem keepIn_other {p : ℚ} {lowest : Entry κ π} {rest : List (Entry κ π)} {e : Entry κ π}
    (hge : lowest.1 ≤ e.1) :
    keepIn p (lowest :: rest) e = some (if e.1 < lowest.1 * (1 - p) then
      (StableMultimap.insert e (lowest :: rest), []) else (lowest :: rest, [e])) := by
  rw [keepIn, if_neg (not_lt.mpr hge), getCutoff]
  split <;> rfl

theorem evict_perm {cutoff : ℚ} {order order' : StructureOrder κ π} {drops : List (Entry κ π)}
    (h : evict cutoff order = some (order', drops)) : order' ++ drops ~ order := by
  obtain ⟨⟨l, ds⟩, hback, heq⟩ := Option.map_eq_some_iff.mp h
  obtain ⟨rfl, rfl⟩ := Prod.mk.inj heq
  calc l.reverse ++ ds ~ l ++ ds := (List.reverse_perm l).append_right ds
    _ ~ ds ++ l := List.perm_append_comm
    _ = order.reverse := (evictBack_spec hback).1.symm
    _ ~ order := List.reverse_perm order

theorem keepIn_perm {p : ℚ} {order order' : StructureOrder κ π} {e : Entry κ π}
    {drops : List (Entry κ π)} (h : keepIn p order e = some (order', drops)) :
    order' ++ drops ~ e :: order := by
  cases order with
  | nil =>
      obtain ⟨rfl, rfl⟩ := Prod.mk.inj (Option.some.inj h)
      exact List.Perm.refl _
  | cons lowest rest =>
      rw [keepIn] at h
      split at h
      · exact (evict_perm h).trans (perm_insert e _)
      · split at h
        · obtain ⟨rfl, rfl⟩ := Prod.mk.inj (Option.some.inj h)
          rw [List.append_nil]
          exact perm_insert e _
        · obtain ⟨rfl, rfl⟩ := Prod.mk.inj (Option.some.inj h)
          exact List.perm_append_comm

theorem conserves (p : ℚ) (property : π) (usePerAtom : Bool) (reduce : κ → κ) :
    (keepWithinXPercent p property usePerAtom reduce).Conserves :=
  fun _ _ _ _ h => keepIn_perm h

/-! ### The lowest value -/

/-- What is held of a composition that has received the entries `es`: some of them, in ascending
order, the first being one with the lowest value. -/
structure Lowest (es : List (Entry κ π)) (order : StructureOrder κ π) : Prop where
  sorted : Sorted order
  subset : ∀ x ∈ order, x ∈ es
  lowest : ∃ m ∈ order.head?, ∀ x ∈ es, m.1 ≤ x.1

theorem Lowest.single (e : Entry κ π) : Lowest [e] [e] :=
  ⟨List.pairwise_singleton _ _, fun _ h => h, e, rfl, by simp⟩

/-- **The lowest value stays**, as long as a new one is not above its own cutoff. -/
theorem Lowest.keepIn {p : ℚ} {es : List (Entry κ π)} {order : StructureOrder κ π}
    (h : Lowest es order) (e : Entry κ π)
    (hsafe : (∀ x ∈ es, e.1 < x.1) → e.1 ≤ e.1 * (1 - p)) :
    ∃ order' drops, KeepWithinXPercent.keepIn p order e = some (order', drops) ∧
      Lowest (es ++ [e]) order' := by
  obtain ⟨m, hm, hlow⟩ := h.lowest
  obtain ⟨rest, rfl⟩ := List.head?_eq_some_iff.mp hm
  have hmem : m ∈ es := h.subset m (by simp)
  rcases lt_or_ge e.1 m.1 with hlt | hge
  · have hnew : ∀ x ∈ m :: rest, e.1 < x.1 := fun x hx => hlt.trans_le (hlow x (h.subset x hx))
    obtain ⟨drops, hdrops⟩ := keepIn_new_lowest (p := p) (List.cons_ne_nil m rest) h.sorted hnew
      (hsafe fun x hx => hlt.trans_le (hlow x hx))
    refine ⟨_, drops, hdrops, ?_, ?_, e, rfl, ?_⟩
    · exact List.pairwise_cons.mpr ⟨fun x hx => (hnew x (List.mem_filter.mp hx).1).le,
        h.sorted.filter _⟩
    · intro x hx
      rcases List.mem_cons.mp hx with rfl | hx
      · simp
      · exact List.mem_append_left _ (h.subset x (List.mem_filter.mp hx).1)
    · exact List.forall_mem_append.mpr
        ⟨fun x hx => hlt.le.trans (hlow x hx), List.forall_mem_singleton.mpr le_rfl⟩
  · have hlow' : ∀ x ∈ es ++ [e], m.1 ≤ x.1 :=
      List.forall_mem_append.mpr ⟨hlow, List.forall_mem_singleton.mpr hge⟩
    rw [keepIn_other hge]
    split
    · refine ⟨_, _, rfl, h.sorted.insert e, ?_, m, ?_, hlow'⟩
      · intro x hx
        rcases mem_insert.mp hx with rfl | hx
        · simp
        · exact List.mem_append_left _ (h.subset x hx)
      · rw [insert_cons, if_neg (not_lt.mpr hge)]
        rfl
    · exact ⟨_, _, rfl, h.sorted, fun x hx => List.mem_append_left _ (h.subset x hx), m, rfl, hlow'⟩

/-- Nothing has been received and nothing is held, or the lowest value is. -/
def Tracks (es : List (Entry κ π)) (order : StructureOrder κ π) : Prop :=
  (es = [] ∧ order = []) ∨ Lowest es order

theorem Tracks.keepIn {p : ℚ} {es : List (Entry κ π)} {order : StructureOrder κ π}
    (h : Tracks es order) (e : Entry κ π)
    (hsafe : es ≠ [] → (∀ x ∈ es, e.1 < x.1) → e.1 ≤ e.1 * (1 - p)) :
    ∃ order' drops, KeepWithinXPercent.keepIn p order e = some (order', drops) ∧
      Tracks (es ++ [e]) order' := by
  rcases h with ⟨rfl, rfl⟩ | h
  · exact ⟨[e], [], rfl, Or.inr (Lowest.single e)⟩
  · have hne : es ≠ [] := by
      obtain ⟨m, hm, _⟩ := h.lowest
      exact List.ne_nil_of_mem (h.subset m (List.mem_of_head? hm))
    obtain ⟨order', drops, hkeep, hlowest⟩ := h.keepIn e (hsafe hne)
    exact ⟨order', drops, hkeep, Or.inr hlowest⟩

theorem le_mul_iff {p v : ℚ} (hp : 0 ≤ p) : v ≤ v * (1 - p) ↔ p = 0 ∨ v ≤ 0 := by
  have hexpand : v * (1 - p) = v - v * p := by ring
  rw [hexpand, le_sub_self_iff]
  constructor
  · intro h
    rcases hp.eq_or_lt with rfl | hpos
    · exact Or.inl rfl
    · exact Or.inr (nonpos_of_mul_nonpos_left h hpos)
  · rintro (rfl | hv)
    · simp
    · exact mul_nonpos_of_nonpos_of_nonneg hv hp

section Safety

variable [LinearOrder κ] [DecidableEq π]

/-- The best structure is never lost: after each of the calls no composition that has received a
structure since the last release has an empty container, and the container holds one with the lowest
value. -/
def NeverLosesBest (B : RankingBarrier κ π) (ops : List (BarrierOp κ π)) : Prop :=
  ∀ calls, calls <+: ops → ∃ s, run B.step {} calls = some s ∧
    ∀ c, B.received c calls ≠ [] → ∃ x ∈ s.order c, x ∈ B.received c calls ∧
      ∀ y ∈ B.received c calls, x.1 ≤ y.1

/-- No new lowest value of a composition that has received a structure since the last release is
positive, or the fraction is zero. -/
def NewLowestNotPositive (B : RankingBarrier κ π) (p : ℚ) (ops : List (BarrierOp κ π)) : Prop :=
  ∀ calls x value, calls ++ [.input x] <+: ops → B.localValue x = some value →
    B.received (B.reduce x.composition) calls ≠ [] →
    (∀ y ∈ B.received (B.reduce x.composition) calls, value < y.1) → p = 0 ∨ value ≤ 0

/-- **No run gets stuck** as long as no new lowest value is positive, and every composition holds its
lowest value throughout. -/
theorem exists_run_tracks {B : RankingBarrier κ π} {p : ℚ}
    (hrule : B.keepIn = KeepWithinXPercent.keepIn p) (hp : 0 ≤ p) {ops : List (BarrierOp κ π)}
    (hsafe : NewLowestNotPositive B p ops) (calls : List (BarrierOp κ π)) (hcalls : calls <+: ops) :
    ∃ s, run B.step {} calls = some s ∧ ∀ c, Tracks (B.received c calls) (s.order c) := by
  induction calls using List.reverseRecOn with
  | nil => exact ⟨{}, rfl, fun c => Or.inl ⟨rfl, rfl⟩⟩
  | append_singleton calls op ih =>
      obtain ⟨s, hrun, htracks⟩ := ih ((List.prefix_append _ _).trans hcalls)
      have hrun' : ∀ s', B.step s op = some s' → run B.step {} (calls ++ [op]) = some s' := by
        intro s' hs'
        rw [run_append, hrun, Option.bind_some, run_cons, hs']
        rfl
      cases op with
      | release =>
          refine ⟨_, hrun' _ rfl, fun c => Or.inl ⟨?_, rfl⟩⟩
          rw [RankingBarrier.received_concat]
          rfl
      | input x =>
          cases hvalue : B.localValue x with
          | none =>
              refine ⟨s.out x, hrun' _ (B.step_input_of_none hvalue), fun c => ?_⟩
              rw [RankingBarrier.received_concat, RankingBarrier.receive,
                RankingBarrier.arrival_of_none hvalue, Option.toList_none, List.append_nil]
              exact htracks c
          | some value =>
              obtain ⟨order', drops, hkeep, htracks'⟩ :=
                (htracks (B.reduce x.composition)).keepIn (value, x) fun hne hnew =>
                  (le_mul_iff hp).mpr (hsafe calls x value hcalls hvalue hne hnew)
              refine ⟨s.store (B.reduce x.composition) order' drops, hrun' _ ?_, fun c => ?_⟩
              · rw [B.step_input_of_value hvalue, hrule, hkeep]
                rfl
              · rw [RankingBarrier.received_concat, RankingBarrier.receive]
                by_cases hc : B.reduce x.composition = c
                · subst hc
                  rw [RankingBarrier.arrival_self hvalue, BarrierState.order_store_self]
                  exact htracks'
                · rw [RankingBarrier.arrival_of_ne hc, Option.toList_none, List.append_nil,
                    BarrierState.order_store_of_ne _ (Ne.symm hc)]
                  exact htracks c

/-- **When the best structure is never lost.**  For a fraction `p ≥ 0` and any sequence of calls with
values of any sign: no container runs empty and each holds its lowest value, if and only if no new
lowest value is positive or the fraction is zero. -/
theorem never_loses_best_iff (p : ℚ) (property : π) (usePerAtom : Bool) (reduce : κ → κ)
    (hp : 0 ≤ p) (ops : List (BarrierOp κ π)) :
    NeverLosesBest (keepWithinXPercent p property usePerAtom reduce) ops
      ↔ NewLowestNotPositive (keepWithinXPercent p property usePerAtom reduce) p ops := by
  have hconserve := conserves p property usePerAtom reduce
  have hrule : (keepWithinXPercent p property usePerAtom reduce).keepIn
      = KeepWithinXPercent.keepIn p := rfl
  generalize keepWithinXPercent p property usePerAtom reduce = B at hconserve hrule
  constructor
  · intro hbest calls x value hprefix hvalue hne hnew
    obtain ⟨s, hrun, hheld⟩ := hbest calls ((List.prefix_append _ _).trans hprefix)
    obtain ⟨s', hrun', _⟩ := hbest _ hprefix
    obtain ⟨m, hm, _⟩ := hheld _ hne
    rw [run_append, hrun, Option.bind_some, run_cons] at hrun'
    obtain ⟨s'', hstep, _⟩ := Option.bind_eq_some_iff.mp hrun'
    by_contra hcon
    have hcut : value * (1 - p) < value := not_le.mp fun hle => hcon ((le_mul_iff hp).mp hle)
    have horder := RankingBarrier.run_order rfl hrun (B.reduce x.composition)
    have hlow : ∀ y ∈ s.order (B.reduce x.composition), value < y.1 :=
      fun y hy => hnew y (RankingBarrier.mem_of_orderOf hconserve horder hy)
    have hnone := keepIn_eq_none (List.ne_nil_of_mem hm) (e := (value, x)) hlow hcut
    rw [B.step_input_of_value hvalue, hrule, hnone] at hstep
    exact absurd hstep (by simp)
  · intro hsafe calls hprefix
    obtain ⟨s, hrun, htracks⟩ := exists_run_tracks hrule hp hsafe calls hprefix
    refine ⟨s, hrun, fun c hne => ?_⟩
    have hlowest := (htracks c).resolve_left fun hnil => hne hnil.1
    obtain ⟨m, hm, hlow⟩ := hlowest.lowest
    have hmem := List.mem_of_head? hm
    exact ⟨m, hmem, hlowest.subset m hmem, hlow⟩

/-- Two structures with negative values, the better one last. -/
theorem never_loses_best_iff_at :
    NeverLosesBest (keepWithinXPercent (1 / 10) () false (id : ℕ → ℕ))
      [.input ⟨1, 1, [((), -9)]⟩, .input ⟨1, 2, [((), -10)]⟩] := by
  refine (never_loses_best_iff (1 / 10) () false id (by norm_num) _).mpr ?_
  intro calls x value hprefix hvalue _ _
  right
  have hmem : BarrierOp.input x ∈ [BarrierOp.input (⟨1, 1, [((), -9)]⟩ : Structure ℕ Unit),
      .input ⟨1, 2, [((), -10)]⟩] := hprefix.subset (by simp)
  simp only [List.mem_cons, BarrierOp.input.injEq, List.not_mem_nil, or_false] at hmem
  rcases hmem with rfl | rfl
  · have hv : (-9 : ℚ) = value := Option.some.inj hvalue
    rw [← hv]
    norm_num
  · have hv : (-10 : ℚ) = value := Option.some.inj hvalue
    rw [← hv]
    norm_num

/-- **A better positive value empties the container.**  With a window of ten percent, the value `1`
after `2` has the cutoff `9 / 10`; the loop evicts both and reads the last entry of an empty
container. -/
theorem new_lowest_runs_empty :
    run (keepWithinXPercent (1 / 10) () false (id : ℕ → ℕ)).step {}
        [.input ⟨1, 1, [((), 2)]⟩, .input ⟨1, 2, [((), 1)]⟩] = none ∧
      ¬ NeverLosesBest (keepWithinXPercent (1 / 10) () false (id : ℕ → ℕ))
        [.input ⟨1, 1, [((), 2)]⟩, .input ⟨1, 2, [((), 1)]⟩] := by
  have hnone : run (keepWithinXPercent (1 / 10) () false (id : ℕ → ℕ)).step {}
      [.input ⟨1, 1, [((), 2)]⟩, .input ⟨1, 2, [((), 1)]⟩] = none := by
    decide +kernel
  refine ⟨hnone, fun hbest => ?_⟩
  obtain ⟨s, hrun, _⟩ := hbest _ List.prefix_rfl
  rw [hnone] at hrun
  exact absurd hrun (by simp)

end Safety

/-! ### The window -/

/-- What is held of a composition that has received the entries `es`, of which `m` has the lowest
value: everything below the cutoff, and nothing above it. -/
structure Window (p : ℚ) (es : List (Entry κ π)) (m : Entry κ π) (order : StructureOrder κ π) :
    Prop extends Lowest es order where
  mem : m ∈ es
  le : ∀ x ∈ es, m.1 ≤ x.1
  below : ∀ x ∈ es, x.1 < m.1 * (1 - p) → x ∈ order
  within : ∀ x ∈ order, x.1 ≤ m.1 * (1 - p)

theorem Window.single {p : ℚ} (hp : 0 ≤ p) {e : Entry κ π} (he : e.1 ≤ 0) :
    Window p [e] e [e] where
  toLowest := Lowest.single e
  mem := by simp
  le := by simp
  below := fun _ h _ => h
  within := by
    intro x hx
    rw [List.mem_singleton.mp hx]
    exact (le_mul_iff hp).mpr (Or.inr he)

/-- The first entry held has the lowest value. -/
theorem Window.head {p : ℚ} {es : List (Entry κ π)} {m : Entry κ π} {order : StructureOrder κ π}
    (h : Window p es m order) : ∃ lowest rest, order = lowest :: rest ∧ lowest.1 = m.1 := by
  obtain ⟨lowest, hlowest, hle⟩ := h.lowest
  obtain ⟨rest, rfl⟩ := List.head?_eq_some_iff.mp hlowest
  exact ⟨lowest, rest, rfl, le_antisymm (hle m h.mem) (h.le lowest (h.subset lowest (by simp)))⟩

/-- A new lowest value moves the cutoff down. -/
theorem Window.of_lower {p : ℚ} (hp1 : p ≤ 1) {es : List (Entry κ π)} {m : Entry κ π}
    {order : StructureOrder κ π} (h : Window p es m order) {e : Entry κ π} (hlt : e.1 < m.1)
    (hcut : e.1 ≤ e.1 * (1 - p))
    (hlowest : Lowest (es ++ [e]) (e :: order.filter fun x => x.1 ≤ e.1 * (1 - p))) :
    Window p (es ++ [e]) e (e :: order.filter fun x => x.1 ≤ e.1 * (1 - p)) where
  toLowest := hlowest
  mem := by simp
  le := List.forall_mem_append.mpr
    ⟨fun x hx => hlt.le.trans (h.le x hx), List.forall_mem_singleton.mpr le_rfl⟩
  below := by
    have hmono : e.1 * (1 - p) ≤ m.1 * (1 - p) :=
      mul_le_mul_of_nonneg_right hlt.le (sub_nonneg.mpr hp1)
    refine List.forall_mem_append.mpr ⟨fun x hx hxcut => ?_, List.forall_mem_singleton.mpr ?_⟩
    · exact List.mem_cons_of_mem e (List.mem_filter.mpr
        ⟨h.below x hx (hxcut.trans_le hmono), by simpa using hxcut.le⟩)
    · exact fun _ => List.mem_cons_self
  within := by
    intro x hx
    rcases List.mem_cons.mp hx with rfl | hx
    · exact hcut
    · simpa using (List.mem_filter.mp hx).2

/-- A value below the cutoff is taken in. -/
theorem Window.of_below {p : ℚ} {es : List (Entry κ π)} {m : Entry κ π}
    {order : StructureOrder κ π} (h : Window p es m order) {e : Entry κ π} (hge : m.1 ≤ e.1)
    (hlt : e.1 < m.1 * (1 - p)) (hlowest : Lowest (es ++ [e]) (StableMultimap.insert e order)) :
    Window p (es ++ [e]) m (StableMultimap.insert e order) where
  toLowest := hlowest
  mem := List.mem_append_left _ h.mem
  le := List.forall_mem_append.mpr ⟨h.le, List.forall_mem_singleton.mpr hge⟩
  below := List.forall_mem_append.mpr
    ⟨fun x hx hxcut => mem_insert.mpr (Or.inr (h.below x hx hxcut)),
      List.forall_mem_singleton.mpr fun _ => mem_insert.mpr (Or.inl rfl)⟩
  within := by
    intro x hx
    rcases mem_insert.mp hx with rfl | hx
    · exact hlt.le
    · exact h.within x hx

/-- A value that is not below it is turned away. -/
theorem Window.of_not_below {p : ℚ} {es : List (Entry κ π)} {m : Entry κ π}
    {order : StructureOrder κ π} (h : Window p es m order) {e : Entry κ π} (hge : m.1 ≤ e.1)
    (hcut : ¬ e.1 < m.1 * (1 - p)) (hlowest : Lowest (es ++ [e]) order) :
    Window p (es ++ [e]) m order where
  toLowest := hlowest
  mem := List.mem_append_left _ h.mem
  le := List.forall_mem_append.mpr ⟨h.le, List.forall_mem_singleton.mpr hge⟩
  below := List.forall_mem_append.mpr
    ⟨h.below, List.forall_mem_singleton.mpr fun hlt => absurd hlt hcut⟩
  within := h.within

/-- **One arrival keeps the window**, for values that are not positive and a fraction up to one. -/
theorem Window.keepIn {p : ℚ} (hp : 0 ≤ p) (hp1 : p ≤ 1) {es : List (Entry κ π)} {m : Entry κ π}
    {order : StructureOrder κ π} (h : Window p es m order) {e : Entry κ π} (he : e.1 ≤ 0) :
    ∃ order' drops, KeepWithinXPercent.keepIn p order e = some (order', drops) ∧
      Window p (es ++ [e]) (if e.1 < m.1 then e else m) order' := by
  obtain ⟨lowest, rest, rfl, hm⟩ := h.head
  have hcut : e.1 ≤ e.1 * (1 - p) := (le_mul_iff hp).mpr (Or.inr he)
  obtain ⟨order', drops, hkeep, hlowest⟩ := h.toLowest.keepIn e fun _ => hcut
  refine ⟨order', drops, hkeep, ?_⟩
  rcases lt_or_ge e.1 m.1 with hlt | hge
  · have hnew : ∀ x ∈ lowest :: rest, e.1 < x.1 :=
      fun x hx => hlt.trans_le (h.le x (h.subset x hx))
    obtain ⟨drops', hkeep'⟩ := keepIn_new_lowest (p := p) (List.cons_ne_nil lowest rest) h.sorted
      hnew hcut
    obtain ⟨rfl, rfl⟩ := Prod.mk.inj (Option.some.inj (hkeep'.symm.trans hkeep))
    rw [if_pos hlt]
    exact h.of_lower hp1 hlt hcut hlowest
  · rw [if_neg (not_lt.mpr hge)]
    rw [keepIn_other (hm.le.trans hge), hm] at hkeep
    split at hkeep
    · next hbelow =>
        obtain ⟨rfl, rfl⟩ := Prod.mk.inj (Option.some.inj hkeep)
        exact h.of_below hge hbelow hlowest
    · next hcutoff =>
        obtain ⟨rfl, rfl⟩ := Prod.mk.inj (Option.some.inj hkeep)
        exact h.of_not_below hge hcutoff hlowest

section OrderOfArrival

variable {B : RankingBarrier κ π} {p : ℚ}

/-- The window of all arrivals. -/
theorem exists_window (hrule : B.keepIn = KeepWithinXPercent.keepIn p) (hp : 0 ≤ p) (hp1 : p ≤ 1)
    {es : List (Entry κ π)} (hne : es ≠ []) (hes : ∀ e ∈ es, e.1 ≤ 0) :
    ∃ order m, B.orderOf es = some order ∧ Window p es m order := by
  induction es using List.reverseRecOn with
  | nil => exact absurd rfl hne
  | append_singleton es e ih =>
      have he : e.1 ≤ 0 := hes e (by simp)
      rcases eq_or_ne es [] with rfl | hne'
      · refine ⟨[e], e, ?_, Window.single hp he⟩
        rw [RankingBarrier.orderOf_concat, hrule]
        rfl
      · obtain ⟨order, m, horder, hwindow⟩ := ih hne' fun x hx => hes x (by simp [hx])
        obtain ⟨order', drops, hkeep, hwindow'⟩ := hwindow.keepIn hp hp1 he
        refine ⟨order', _, ?_, hwindow'⟩
        rw [RankingBarrier.orderOf_concat, horder, Option.bind_some, hrule, hkeep]
        rfl

/-- If the lowest value comes first, nothing on the cutoff is ever held. -/
theorem below_of_lowest_first (hrule : B.keepIn = KeepWithinXPercent.keepIn p) (hp : 0 ≤ p)
    (hp1 : p ≤ 1) {e : Entry κ π} {es : List (Entry κ π)} (hes : ∀ x ∈ e :: es, x.1 ≤ 0)
    (hlow : ∀ x ∈ es, e.1 ≤ x.1) {order : StructureOrder κ π}
    (h : B.orderOf (e :: es) = some order) : ∀ x ∈ order, x = e ∨ x.1 < e.1 * (1 - p) := by
  induction es using List.reverseRecOn generalizing order with
  | nil =>
      rw [show [e] = [] ++ [e] from rfl, RankingBarrier.orderOf_concat, hrule] at h
      obtain rfl := Option.some.inj h
      intro x hx
      exact Or.inl (List.mem_singleton.mp hx)
  | append_singleton es a ih =>
      have hsub : ∀ x ∈ e :: es, x ∈ e :: (es ++ [a]) := by
        intro x hx
        rcases List.mem_cons.mp hx with rfl | hx <;> simp_all
      obtain ⟨order₁, m, horder₁, hwindow⟩ := exists_window hrule hp hp1 (List.cons_ne_nil e es)
        fun x hx => hes x (hsub x hx)
      have hm : m.1 = e.1 := by
        refine le_antisymm (hwindow.le e (by simp)) ?_
        rcases List.mem_cons.mp hwindow.mem with rfl | hmem
        · exact le_rfl
        · exact hlow m (List.mem_append_left _ hmem)
      have hold := ih (fun x hx => hes x (hsub x hx))
        (fun x hx => hlow x (List.mem_append_left _ hx)) horder₁
      obtain ⟨lowest, rest, rfl, hlowest⟩ := hwindow.head
      have hge : lowest.1 ≤ a.1 := by
        rw [hlowest, hm]
        exact hlow a (by simp)
      rw [show e :: (es ++ [a]) = (e :: es) ++ [a] from rfl, RankingBarrier.orderOf_concat, horder₁,
        Option.bind_some, hrule, keepIn_other hge] at h
      intro x hx
      split at h
      · next hlt =>
          obtain rfl := Option.some.inj h
          rcases mem_insert.mp hx with rfl | hx
          · right
            rwa [← hm, ← hlowest]
          · exact hold x hx
      · obtain rfl := Option.some.inj h
        exact hold x hx

/-- If the lowest value comes last, everything up to the cutoff is held. -/
theorem held_of_lowest_last (hrule : B.keepIn = KeepWithinXPercent.keepIn p) (hp : 0 ≤ p)
    (hp1 : p < 1) {e : Entry κ π} {es : List (Entry κ π)} (hes : ∀ x ∈ es ++ [e], x.1 ≤ 0)
    (hlow : ∀ x ∈ es, e.1 < x.1) {order : StructureOrder κ π}
    (h : B.orderOf (es ++ [e]) = some order) {x : Entry κ π} (hx : x ∈ es)
    (hcut : x.1 ≤ e.1 * (1 - p)) : x ∈ order := by
  obtain ⟨order₁, m, horder₁, hwindow⟩ := exists_window hrule hp hp1.le (List.ne_nil_of_mem hx)
    fun x hx => hes x (List.mem_append_left _ hx)
  have hlow₁ : ∀ y ∈ order₁, e.1 < y.1 := fun y hy => hlow y (hwindow.subset y hy)
  obtain ⟨lowest, rest, rfl, _⟩ := hwindow.head
  obtain ⟨drops, hkeep⟩ := keepIn_new_lowest (p := p) (List.cons_ne_nil lowest rest)
    hwindow.sorted hlow₁ ((le_mul_iff hp).mpr (Or.inr (hes e (by simp))))
  rw [RankingBarrier.orderOf_concat, horder₁, Option.bind_some, hrule, hkeep] at h
  obtain rfl := Option.some.inj h
  have hmono : e.1 * (1 - p) < m.1 * (1 - p) :=
    mul_lt_mul_of_pos_right (hlow m hwindow.mem) (sub_pos.mpr hp1)
  exact List.mem_cons_of_mem e (List.mem_filter.mpr
    ⟨hwindow.below x hx (hcut.trans_lt hmono), by simpa using hcut⟩)

/-- **On the cutoff of the lowest value, the order decides:** what lies there is turned away if the
lowest value comes first and held if it comes last. -/
theorem cutoff_differs (hrule : B.keepIn = KeepWithinXPercent.keepIn p) (hp : 0 ≤ p) (hp1 : p < 1)
    {e : Entry κ π} {es : List (Entry κ π)} (hes : ∀ x ∈ e :: es, x.1 ≤ 0)
    (hlow : ∀ x ∈ es, e.1 < x.1) {x : Entry κ π} (hx : x ∈ es) (hcut : x.1 = e.1 * (1 - p))
    {o₁ o₂ : StructureOrder κ π} (h₁ : B.orderOf (e :: es) = some o₁)
    (h₂ : B.orderOf (es ++ [e]) = some o₂) : x ∉ o₁ ∧ x ∈ o₂ := by
  have hes' : ∀ y ∈ es ++ [e], y.1 ≤ 0 := fun y hy => hes y (by simpa [or_comm] using hy)
  refine ⟨fun hx₁ => ?_, held_of_lowest_last hrule hp hp1 hes' hlow h₂ hx hcut.le⟩
  rcases below_of_lowest_first hrule hp hp1.le hes (fun y hy => (hlow y hy).le) h₁ x hx₁ with
    rfl | hbelow
  · exact lt_irrefl _ (hlow x hx)
  · exact hbelow.ne hcut

/-- What one order of arrival holds, another one holds too, if nothing lies on the cutoff. -/
theorem held_subset (hrule : B.keepIn = KeepWithinXPercent.keepIn p) (hconserve : B.Conserves)
    (hp : 0 ≤ p) (hp1 : p ≤ 1) {ys zs : List (Entry κ π)} (hyz : ys ~ zs)
    (hys : ∀ e ∈ ys, e.1 ≤ 0)
    (hoff : ∀ x ∈ ys, ∀ m ∈ ys, (∀ y ∈ ys, m.1 ≤ y.1) → x.1 ≠ m.1 * (1 - p))
    {o₁ o₂ : StructureOrder κ π} (h₁ : B.orderOf ys = some o₁) (h₂ : B.orderOf zs = some o₂)
    {x : Entry κ π} (hx : x ∈ o₁) : x ∈ o₂ := by
  have hmem : x ∈ ys := RankingBarrier.mem_of_orderOf hconserve h₁ hx
  obtain ⟨o₁', m₁, ho₁, hw₁⟩ := exists_window hrule hp hp1 (List.ne_nil_of_mem hmem) hys
  obtain ⟨o₂', m₂, ho₂, hw₂⟩ := exists_window hrule hp hp1
    (List.ne_nil_of_mem (hyz.mem_iff.mp hmem)) fun e he => hys e (hyz.mem_iff.mpr he)
  obtain rfl : o₁' = o₁ := Option.some.inj (ho₁.symm.trans h₁)
  obtain rfl : o₂' = o₂ := Option.some.inj (ho₂.symm.trans h₂)
  have hm : m₁.1 = m₂.1 := le_antisymm (hw₁.le m₂ (hyz.mem_iff.mpr hw₂.mem))
    (hw₂.le m₁ (hyz.mem_iff.mp hw₁.mem))
  refine hw₂.below x (hyz.mem_iff.mp hmem) ?_
  rw [← hm]
  exact lt_of_le_of_ne (hw₁.within x hx) (hoff x hmem m₁ hw₁.mem hw₁.le)

variable [LinearOrder κ] [DecidableEq π]

/-- A structure with its value. -/
def entry (B : RankingBarrier κ π) (x : Structure κ π) : Entry κ π := ((B.localValue x).getD 0, x)

/-- Structures of one reduced composition with negative values. -/
def Negative (B : RankingBarrier κ π) (c : κ) (xs : List (Structure κ π)) : Prop :=
  ∀ x ∈ xs, B.reduce x.composition = c ∧ ∃ v < 0, B.localValue x = some v

theorem Negative.arrivals_eq {c : κ} {xs : List (Structure κ π)} (h : Negative B c xs) :
    B.arrivals c xs = xs.map (entry B) := by
  induction xs with
  | nil => rfl
  | cons x xs ih =>
      obtain ⟨hc, v, _, hv⟩ := h x (by simp)
      have harrival : B.arrival c x = some (entry B x) := by
        simp [RankingBarrier.arrival, entry, hc, hv]
      rw [RankingBarrier.arrivals, List.filterMap_cons_some harrival, List.map_cons,
        ← ih fun y hy => h y (by simp [hy]), RankingBarrier.arrivals]

omit [LinearOrder κ] in
theorem Negative.entry_eq {c : κ} {xs : List (Structure κ π)} (h : Negative B c xs)
    {x : Structure κ π} (hx : x ∈ xs) : B.localValue x = some (entry B x).1 ∧ (entry B x).1 < 0 := by
  obtain ⟨_, v, hneg, hv⟩ := h x hx
  rw [entry, hv]
  exact ⟨rfl, hneg⟩

omit [LinearOrder κ] in
theorem Negative.entry_lt {c : κ} {xs : List (Structure κ π)} (h : Negative B c xs) :
    ∀ e ∈ xs.map (entry B), e.1 < 0 := by
  intro e he
  obtain ⟨x, hx, rfl⟩ := List.mem_map.mp he
  exact (h.entry_eq hx).2

omit [LinearOrder κ] in
/-- The lowest of pairwise distinct values is below all others. -/
theorem Negative.entry_lt_of_lowest {c : κ} {m : Structure κ π} {rest : List (Structure κ π)}
    (h : Negative B c (m :: rest)) (hdistinct : ((m :: rest).map B.localValue).Nodup)
    (hlow : ∀ y ∈ rest, (entry B m).1 ≤ (entry B y).1) :
    ∀ e ∈ rest.map (entry B), (entry B m).1 < e.1 := by
  intro e he
  obtain ⟨y, hy, rfl⟩ := List.mem_map.mp he
  refine lt_of_le_of_ne (hlow y hy) fun heq => ?_
  refine (List.nodup_cons.mp hdistinct).1 (List.mem_map.mpr ⟨y, hy, ?_⟩)
  rw [(h.entry_eq (List.mem_cons_of_mem m hy)).1, (h.entry_eq List.mem_cons_self).1, heq]

/-- Such structures never get a block stuck, and what is held follows from the rule. -/
theorem Negative.exists_run (hrule : B.keepIn = KeepWithinXPercent.keepIn p)
    (hconserve : B.Conserves) (hp : 0 ≤ p) {c : κ} {xs : List (Structure κ π)}
    (h : Negative B c xs) :
    ∃ s, run B.step {} (xs.map BarrierOp.input) = some s ∧
      B.orderOf (xs.map (entry B)) = some (s.order c) ∧
      ∀ x, x ∈ s.held ↔ entry B x ∈ s.order c := by
  have hsafe : NewLowestNotPositive B p (xs.map BarrierOp.input) := by
    intro calls x value hprefix hvalue _ _
    have hmem : BarrierOp.input x ∈ xs.map BarrierOp.input := hprefix.subset (by simp)
    obtain ⟨y, hy, heq⟩ := List.mem_map.mp hmem
    obtain rfl := BarrierOp.input.inj heq
    obtain ⟨_, v, hneg, hv⟩ := h y hy
    rw [hvalue] at hv
    exact Or.inr (Option.some.inj hv ▸ hneg.le)
  obtain ⟨s, hrun, _⟩ := exists_run_tracks hrule hp hsafe _ List.prefix_rfl
  have horder := RankingBarrier.run_order rfl hrun c
  rw [RankingBarrier.received_inputs, h.arrivals_eq] at horder
  obtain ⟨hfiled, hperm⟩ :=
    RankingBarrier.conserves_run hconserve (RankingBarrier.Filed.of_empty rfl) hrun
  refine ⟨s, hrun, horder, fun x => ?_⟩
  rw [hfiled.mem_held]
  constructor
  · intro hheld
    have hmem : x ∈ xs := by
      have := hperm.mem_iff.mp (List.mem_append_right _ ((hfiled.mem_held x).mpr hheld))
      simpa [BarrierState.held] using this
    obtain ⟨value, hvalue⟩ := hheld
    rw [(h x hmem).1] at hvalue
    rwa [entry, (hfiled.mem_order hvalue).2]
  · intro hheld
    exact ⟨_, (hfiled.mem_order hheld).1 ▸ hheld⟩

/-- **A structure on the cutoff of the lowest value**: it is turned away if the lowest value comes
first, and held if it comes last. -/
theorem Negative.exists_orders_differ (hrule : B.keepIn = KeepWithinXPercent.keepIn p)
    (hconserve : B.Conserves) (hp : 0 < p) (hp1 : p < 1) {c : κ} {m : Structure κ π}
    {rest : List (Structure κ π)} (h : Negative B c (m :: rest))
    (hdistinct : ((m :: rest).map B.localValue).Nodup)
    (hlow : ∀ y ∈ rest, (entry B m).1 ≤ (entry B y).1) {x : Structure κ π} (hx : x ∈ m :: rest)
    (hcut : (entry B x).1 = (entry B m).1 * (1 - p)) :
    ∃ s t, run B.step {} ((m :: rest).map BarrierOp.input) = some s ∧
      run B.step {} ((rest ++ [m]).map BarrierOp.input) = some t ∧ x ∉ s.held ∧ x ∈ t.held := by
  have hlast : Negative B c (rest ++ [m]) := fun y hy => h y (by simpa [or_comm] using hy)
  -- the cutoff of a negative value lies above it, so `x` is not `m`
  have hlt : (entry B m).1 < (entry B x).1 := by
    have hmp : (entry B m).1 * p < 0 :=
      mul_neg_of_neg_of_pos (h.entry_eq List.mem_cons_self).2 hp
    rw [hcut, mul_sub, mul_one]
    linarith
  have hrest : x ∈ rest := by
    refine (List.mem_cons.mp hx).resolve_left ?_
    rintro rfl
    exact lt_irrefl _ hlt
  obtain ⟨s, hs, horder, hheld⟩ := h.exists_run hrule hconserve hp.le
  obtain ⟨t, ht, horder', hheld'⟩ := hlast.exists_run hrule hconserve hp.le
  rw [List.map_append, List.map_singleton] at horder'
  obtain ⟨hout, hin⟩ := cutoff_differs hrule hp.le hp1 (fun e he => (h.entry_lt e he).le)
    (h.entry_lt_of_lowest hdistinct hlow) (List.mem_map_of_mem hrest) hcut horder horder'
  exact ⟨s, t, hs, ht, fun hmem => hout ((hheld x).mp hmem), (hheld' x).mpr hin⟩

omit [LinearOrder κ] in
/-- If no structure lies on the cutoff of the lowest value, no entry does. -/
theorem Negative.off_cutoff {c : κ} {xs : List (Structure κ π)} (h : Negative B c xs)
    (hoff : ∀ x ∈ xs, ∀ m ∈ xs, ∀ v w, B.localValue x = some v → B.localValue m = some w →
      (∀ y ∈ xs, ∀ u, B.localValue y = some u → w ≤ u) → v ≠ w * (1 - p)) :
    ∀ x ∈ xs.map (entry B), ∀ m ∈ xs.map (entry B), (∀ y ∈ xs.map (entry B), m.1 ≤ y.1) →
      x.1 ≠ m.1 * (1 - p) := by
  intro x hx m hm hlow
  obtain ⟨x', hx', rfl⟩ := List.mem_map.mp hx
  obtain ⟨m', hm', rfl⟩ := List.mem_map.mp hm
  refine hoff x' hx' m' hm' _ _ (h.entry_eq hx').1 (h.entry_eq hm').1 fun y hy u hu => ?_
  rw [Option.some.inj (hu.symm.trans (h.entry_eq hy).1)]
  exact hlow _ (List.mem_map_of_mem hy)

/-- **When the order of arrival does not matter.**  Take structures of one reduced composition with
negative, pairwise distinct values, and a fraction strictly between zero and one.  Any two orders of
arrival hold the same structures if and only if none of them lies exactly on the cutoff of the lowest
value. -/
theorem order_independent_iff (p : ℚ) (property : π) (usePerAtom : Bool) (reduce : κ → κ)
    (hp : 0 < p) (hp1 : p < 1) (c : κ) (xs : List (Structure κ π)) :
    let B := keepWithinXPercent p property usePerAtom reduce
    (∀ x ∈ xs, reduce x.composition = c ∧ ∃ v < 0, B.localValue x = some v) →
    (xs.map B.localValue).Nodup →
    ((∀ ys zs, ys ~ xs → zs ~ xs → ∃ s t, run B.step {} (ys.map BarrierOp.input) = some s ∧
        run B.step {} (zs.map BarrierOp.input) = some t ∧ ∀ x, x ∈ s.held ↔ x ∈ t.held) ↔
      ∀ x ∈ xs, ∀ m ∈ xs, ∀ v w, B.localValue x = some v → B.localValue m = some w →
        (∀ y ∈ xs, ∀ u, B.localValue y = some u → w ≤ u) → v ≠ w * (1 - p)) := by
  intro B hnegative hdistinct
  have hrule : B.keepIn = KeepWithinXPercent.keepIn p := rfl
  have hconserve : B.Conserves := conserves p property usePerAtom reduce
  have hneg : Negative B c xs := hnegative
  constructor
  · intro hsame x hx m hm v w hv hw hlow heq
    obtain rfl : (entry B x).1 = v := Option.some.inj ((hneg.entry_eq hx).1.symm.trans hv)
    obtain rfl : (entry B m).1 = w := Option.some.inj ((hneg.entry_eq hm).1.symm.trans hw)
    obtain ⟨a, b, rfl⟩ := List.append_of_mem hm
    have hfirst : m :: (a ++ b) ~ a ++ m :: b := List.perm_middle.symm
    have hlast : (a ++ b) ++ [m] ~ a ++ m :: b :=
      (List.perm_append_singleton m (a ++ b)).trans hfirst
    have hneg' : Negative B c (m :: (a ++ b)) := fun y hy => hneg y (hfirst.mem_iff.mp hy)
    have hlow' : ∀ y ∈ a ++ b, (entry B m).1 ≤ (entry B y).1 := by
      intro y hy
      have hy' := hfirst.mem_iff.mp (List.mem_cons_of_mem m hy)
      exact hlow y hy' _ (hneg.entry_eq hy').1
    obtain ⟨s, t, hs, ht, hout, hin⟩ := hneg'.exists_orders_differ hrule hconserve hp hp1
      ((hfirst.map B.localValue).nodup_iff.mpr hdistinct) hlow' (hfirst.mem_iff.mpr hx) heq
    obtain ⟨s', t', hs', ht', hst⟩ := hsame _ _ hfirst hlast
    obtain rfl : s = s' := Option.some.inj (hs.symm.trans hs')
    obtain rfl : t = t' := Option.some.inj (ht.symm.trans ht')
    exact hout ((hst x).mpr hin)
  · intro hoff ys zs hys hzs
    have hneg' : ∀ {ys}, ys ~ xs → Negative B c ys := fun hys x hx => hneg x (hys.mem_iff.mp hx)
    have hoff' : ∀ {ys}, ys ~ xs → ∀ x ∈ ys.map (entry B), ∀ m ∈ ys.map (entry B),
        (∀ y ∈ ys.map (entry B), m.1 ≤ y.1) → x.1 ≠ m.1 * (1 - p) := by
      intro ys hys
      refine (hneg' hys).off_cutoff fun x hx m hm v w hv hw hlow => ?_
      exact hoff x (hys.mem_iff.mp hx) m (hys.mem_iff.mp hm) v w hv hw
        fun y hy => hlow y (hys.mem_iff.mpr hy)
    obtain ⟨s, hrun, horder, hheld⟩ := (hneg' hys).exists_run hrule hconserve hp.le
    obtain ⟨t, hrun', horder', hheld'⟩ := (hneg' hzs).exists_run hrule hconserve hp.le
    refine ⟨s, t, hrun, hrun', fun x => ?_⟩
    rw [hheld, hheld']
    have hyz : ys.map (entry B) ~ zs.map (entry B) := (hys.trans hzs.symm).map _
    exact ⟨held_subset hrule hconserve hp.le hp1.le hyz (fun e he => ((hneg' hys).entry_lt e he).le)
        (hoff' hys) horder horder',
      held_subset hrule hconserve hp.le hp1.le hyz.symm
        (fun e he => ((hneg' hzs).entry_lt e he).le) (hoff' hzs) horder' horder⟩

/-- Two structures well inside and well outside the window. -/
theorem order_independent_iff_at :
    let B := keepWithinXPercent (1 / 10) () false (id : ℕ → ℕ)
    let xs : List (Structure ℕ Unit) := [⟨1, 1, [((), -5)]⟩, ⟨1, 2, [((), -10)]⟩]
    ∀ ys zs, ys ~ xs → zs ~ xs → ∃ s t, run B.step {} (ys.map BarrierOp.input) = some s ∧
      run B.step {} (zs.map BarrierOp.input) = some t ∧ ∀ x, x ∈ s.held ↔ x ∈ t.held := by
  intro B xs
  refine (order_independent_iff (1 / 10) () false id (by norm_num) (by norm_num) 1 xs ?_ ?_).mpr ?_
  · intro x hx
    rcases List.mem_pair.mp hx with rfl | rfl
    · exact ⟨rfl, -5, by norm_num, rfl⟩
    · exact ⟨rfl, -10, by norm_num, rfl⟩
  · decide +kernel
  · intro x hx m hm v w hv hw hlow
    have hw10 : w ≤ -10 := hlow ⟨1, 2, [((), -10)]⟩ (by simp [xs]) _ rfl
    have hwm : w = -10 := by
      rcases List.mem_pair.mp hm with rfl | rfl
      · have : (-5 : ℚ) = w := Option.some.inj hw
        linarith
      · exact (Option.some.inj hw).symm
    rw [hwm]
    rcases List.mem_pair.mp hx with rfl | rfl
    · have : (-5 : ℚ) = v := Option.some.inj hv
      rw [← this]
      norm_num
    · have : (-10 : ℚ) = v := Option.some.inj hv
      rw [← this]
      norm_num

/-- **A structure exactly on the cutoff.**  With a window of ten percent, `-9` lies on the cutoff of
`-10`.  It stays when it arrives first and is turned away when it arrives last. -/
theorem cutoff_depends_on_order :
    let B := keepWithinXPercent (1 / 10) () false (id : ℕ → ℕ)
    let x : Structure ℕ Unit := ⟨1, 1, [((), -9)]⟩
    let m : Structure ℕ Unit := ⟨1, 2, [((), -10)]⟩
    [x, m] ~ [m, x] ∧ [x, m].map B.localValue = [some (-9), some (-10)] ∧
      (run B.step {} ([x, m].map BarrierOp.input)).map BarrierState.held = some [m, x] ∧
      (run B.step {} ([m, x].map BarrierOp.input)).map BarrierState.held = some [m] := by
  decide +kernel

end OrderOfArrival

end KeepWithinXPercent

end StructurePipe.Blocks
