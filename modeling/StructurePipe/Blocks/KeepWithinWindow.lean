import StructurePipe.Blocks.KeepWithinXPercent

/-!
# The window law

Between two releases `KeepWithinXPercent` drops structures for good while the cutoff is still moving.
For values that are not positive each new lowest value moves the cutoff down, so nothing is dropped
that a later window would contain.

* `Kept.keepIn` — what one arrival does to the window and to what has been dropped;
* `exists_kept` — **the window of all arrivals**, with everything dropped outside of it;
* `window_law` — **the same for a run of the block since the last release**, every composition on its
  own.
-/

namespace StructurePipe.Blocks

open StableMultimap StepRuns
open scoped List

variable {κ π : Type*}

namespace KeepWithinXPercent

/-! ### What is dropped -/

theorem evictBack_drops {cutoff : ℚ} {l l' drops : List (Entry κ π)}
    (h : evictBack cutoff l = some (l', drops)) : ∀ d ∈ drops, cutoff < d.1 := by
  induction l generalizing drops with
  | nil => simp [evictBack] at h
  | cons e l ih =>
      rw [evictBack] at h
      split at h
      · next hlt =>
          obtain ⟨⟨o, ds⟩, hrec, heq⟩ := Option.map_eq_some_iff.mp h
          obtain ⟨rfl, rfl⟩ := Prod.mk.inj heq
          exact List.forall_mem_cons.mpr ⟨hlt, ih hrec⟩
      · obtain ⟨-, rfl⟩ := Prod.mk.inj (Option.some.inj h)
        simp

/-- Whatever an arrival drops is not below the cutoff after it. -/
theorem keepIn_drops {p : ℚ} {lowest : Entry κ π} {rest order' drops : List (Entry κ π)}
    {e : Entry κ π} (hlow : ∀ x ∈ lowest :: rest, lowest.1 ≤ x.1)
    (h : keepIn p (lowest :: rest) e = some (order', drops)) :
    ∀ d ∈ drops, (if e.1 < lowest.1 then e else lowest).1 * (1 - p) ≤ d.1 := by
  rcases lt_or_ge e.1 lowest.1 with hlt | hge
  · rw [keepIn, if_pos hlt, newLowest, insert_of_lt fun x hx => hlt.trans_le (hlow x hx)] at h
    obtain ⟨⟨l, ds⟩, hback, heq⟩ := Option.map_eq_some_iff.mp h
    obtain ⟨-, rfl⟩ := Prod.mk.inj heq
    intro d hd
    rw [if_pos hlt]
    exact (evictBack_drops hback d hd).le
  · rw [keepIn_other hge] at h
    rw [if_neg (not_lt.mpr hge)]
    split at h
    · obtain ⟨-, rfl⟩ := Prod.mk.inj (Option.some.inj h)
      simp
    · next hcut =>
        obtain ⟨-, rfl⟩ := Prod.mk.inj (Option.some.inj h)
        exact List.forall_mem_singleton.mpr (not_lt.mp hcut)

/-- What is held and what has been dropped of a composition that has received the entries `es`, of
which `m` has the lowest value: the window, nothing below the cutoff dropped, and the first of the
entries with the lowest value in front. -/
structure Kept (p : ℚ) (es : List (Entry κ π)) (m : Entry κ π) (order : StructureOrder κ π)
    (drops : List (Entry κ π)) : Prop extends Window p es m order where
  perm : order ++ drops ~ es
  outside : ∀ d ∈ drops, m.1 * (1 - p) ≤ d.1
  first : order.head? = es.find? fun x => x.1 = m.1

theorem Kept.single {p : ℚ} (hp : 0 ≤ p) {e : Entry κ π} (he : e.1 ≤ 0) : Kept p [e] e [e] [] where
  toWindow := Window.single hp he
  perm := List.Perm.refl _
  outside := by simp
  first := by simp

theorem Kept.perm_keepIn {p : ℚ} {es : List (Entry κ π)} {m : Entry κ π}
    {order : StructureOrder κ π} {drops : List (Entry κ π)} (h : Kept p es m order drops)
    {e : Entry κ π} {order' : StructureOrder κ π} {drops' : List (Entry κ π)}
    (hkeep : KeepWithinXPercent.keepIn p order e = some (order', drops')) :
    order' ++ (drops ++ drops') ~ es ++ [e] :=
  calc order' ++ (drops ++ drops')
      ~ order' ++ (drops' ++ drops) := List.perm_append_comm.append_left _
    _ = (order' ++ drops') ++ drops := (List.append_assoc _ _ _).symm
    _ ~ (e :: order) ++ drops := (keepIn_perm hkeep).append_right drops
    _ ~ e :: es := h.perm.cons e
    _ ~ es ++ [e] := (List.perm_append_singleton e es).symm

/-- An entry that is not lower leaves the first one in front. -/
theorem head_keepIn_other {p : ℚ} {lowest : Entry κ π} {rest order' drops : List (Entry κ π)}
    {e : Entry κ π} (hge : lowest.1 ≤ e.1)
    (h : keepIn p (lowest :: rest) e = some (order', drops)) : order'.head? = some lowest := by
  rw [keepIn_other hge] at h
  split at h
  · obtain ⟨rfl, -⟩ := Prod.mk.inj (Option.some.inj h)
    rw [insert_cons, if_neg (not_lt.mpr hge)]
    rfl
  · obtain ⟨rfl, -⟩ := Prod.mk.inj (Option.some.inj h)
    rfl

/-- **One arrival**, for values that are not positive and a fraction up to one. -/
theorem Kept.keepIn {p : ℚ} (hp : 0 ≤ p) (hp1 : p ≤ 1) {es : List (Entry κ π)} {m : Entry κ π}
    {order : StructureOrder κ π} {drops : List (Entry κ π)} (h : Kept p es m order drops)
    {e : Entry κ π} (he : e.1 ≤ 0) :
    ∃ order' drops', KeepWithinXPercent.keepIn p order e = some (order', drops') ∧
      Kept p (es ++ [e]) (if e.1 < m.1 then e else m) order' (drops ++ drops') := by
  obtain ⟨lowest, rest, rfl, hm⟩ := h.head
  obtain ⟨order', drops', hkeep, hwindow⟩ := h.toWindow.keepIn hp hp1 he
  have hlow : ∀ x ∈ lowest :: rest, lowest.1 ≤ x.1 := fun x hx => hm ▸ h.le x (h.subset x hx)
  have hnewDrops := keepIn_drops hlow hkeep
  refine ⟨order', drops', hkeep, hwindow, h.perm_keepIn hkeep, ?_, ?_⟩
  · refine List.forall_mem_append.mpr ⟨fun d hd => ?_, fun d hd => ?_⟩
    · have hmono : (if e.1 < m.1 then e else m).1 * (1 - p) ≤ m.1 * (1 - p) := by
        refine mul_le_mul_of_nonneg_right ?_ (sub_nonneg.mpr hp1)
        split
        · next hlt => exact hlt.le
        · exact le_rfl
      exact hmono.trans (h.outside d hd)
    · have hsame : (if e.1 < m.1 then e else m).1 = (if e.1 < lowest.1 then e else lowest).1 := by
        rw [hm]
        split
        · rfl
        · exact hm.symm
      rw [hsame]
      exact hnewDrops d hd
  · rcases lt_or_ge e.1 m.1 with hlt | hge
    · have hnone : es.find? (fun x => x.1 = e.1) = none := by
        refine List.find?_eq_none.mpr fun x hx => ?_
        have := h.le x hx
        simpa using (hlt.trans_le this).ne'
      have hnew : ∀ x ∈ lowest :: rest, e.1 < x.1 := fun x hx => (hm ▸ hlt).trans_le (hlow x hx)
      obtain ⟨ds, hkeep'⟩ := keepIn_new_lowest (p := p) (List.cons_ne_nil lowest rest) h.sorted hnew
        ((le_mul_iff hp).mpr (Or.inr he))
      obtain ⟨rfl, -⟩ := Prod.mk.inj (Option.some.inj (hkeep.symm.trans hkeep'))
      rw [if_pos hlt, List.find?_append, hnone]
      simp
    · rw [if_neg (not_lt.mpr hge), head_keepIn_other (hm.le.trans hge) hkeep, List.find?_append,
        ← h.first]
      rfl

/-- **The window of all arrivals**, and what has been dropped outside of it. -/
theorem exists_kept {B : RankingBarrier κ π} {p : ℚ} (hrule : B.keepIn = KeepWithinXPercent.keepIn p)
    (hp : 0 ≤ p) (hp1 : p ≤ 1) {es : List (Entry κ π)} (hne : es ≠ []) (hes : ∀ e ∈ es, e.1 ≤ 0) :
    ∃ order m drops, B.orderOf es = some order ∧ Kept p es m order drops := by
  induction es using List.reverseRecOn with
  | nil => exact absurd rfl hne
  | append_singleton es e ih =>
      have he : e.1 ≤ 0 := hes e (by simp)
      rcases eq_or_ne es [] with rfl | hne'
      · refine ⟨[e], e, [], ?_, Kept.single hp he⟩
        rw [RankingBarrier.orderOf_concat, hrule]
        rfl
      · obtain ⟨order, m, drops, horder, hkept⟩ := ih hne' fun x hx => hes x (by simp [hx])
        obtain ⟨order', drops', hkeep, hkept'⟩ := hkept.keepIn hp hp1 he
        refine ⟨order', _, _, ?_, hkept'⟩
        rw [RankingBarrier.orderOf_concat, horder, Option.bind_some, hrule, hkeep]
        rfl

section Runs

variable [LinearOrder κ] [DecidableEq π] {B : RankingBarrier κ π}

/-! ### The arrivals of one composition -/

/-- A structure of the reduced composition `c` with the value `v`. -/
def Ranked (B : RankingBarrier κ π) (c : κ) (v : ℚ) (x : Structure κ π) : Prop :=
  B.reduce x.composition = c ∧ B.localValue x = some v

instance (c : κ) (v : ℚ) (x : Structure κ π) : Decidable (Ranked B c v x) :=
  inferInstanceAs (Decidable (_ ∧ _))

theorem arrival_eq_some_iff {c : κ} {x : Structure κ π} {e : Entry κ π} :
    B.arrival c x = some e ↔ e.2 = x ∧ Ranked B c e.1 x := by
  rw [RankingBarrier.arrival]
  split
  · next hc =>
      rw [Option.map_eq_some_iff]
      constructor
      · rintro ⟨v, hv, rfl⟩
        exact ⟨rfl, hc, hv⟩
      · rintro ⟨rfl, -, hv⟩
        exact ⟨e.1, hv, rfl⟩
  · next hc => exact iff_of_false (by simp) fun h => hc h.2.1

theorem mem_arrivals {c : κ} {xs : List (Structure κ π)} {e : Entry κ π} :
    e ∈ B.arrivals c xs ↔ e.2 ∈ xs ∧ Ranked B c e.1 e.2 := by
  rw [RankingBarrier.arrivals, List.mem_filterMap]
  constructor
  · rintro ⟨x, hx, harrival⟩
    obtain ⟨rfl, hranked⟩ := arrival_eq_some_iff.mp harrival
    exact ⟨hx, hranked⟩
  · rintro ⟨hx, hranked⟩
    exact ⟨e.2, hx, arrival_eq_some_iff.mpr ⟨rfl, hranked⟩⟩

/-- The first arrival with a value is the first structure with it. -/
theorem find_arrivals (c : κ) (v : ℚ) (xs : List (Structure κ π)) :
    ((B.arrivals c xs).find? fun e => e.1 = v).map Prod.snd = xs.find? fun x => Ranked B c v x := by
  induction xs with
  | nil => rfl
  | cons x xs ih =>
      cases harrival : B.arrival c x with
      | none =>
          have hnot : ¬ Ranked B c v x := fun h => by
            have hsome := (arrival_eq_some_iff (e := (v, x))).mpr ⟨rfl, h⟩
            rw [harrival] at hsome
            exact absurd hsome (by simp)
          rw [RankingBarrier.arrivals, List.filterMap_cons_none harrival,
            List.find?_cons_of_neg (by simpa using hnot), ← ih, RankingBarrier.arrivals]
      | some e =>
          obtain ⟨rfl, hranked⟩ := arrival_eq_some_iff.mp harrival
          rw [RankingBarrier.arrivals, List.filterMap_cons_some harrival]
          by_cases hv : e.1 = v
          · rw [List.find?_cons_of_pos (by simpa using hv),
              List.find?_cons_of_pos (by simpa using hv ▸ hranked)]
            rfl
          · have hnot : ¬ Ranked B c v e.2 := fun h =>
              hv (Option.some.inj (hranked.2.symm.trans h.2))
            rw [List.find?_cons_of_neg (by simpa using hv),
              List.find?_cons_of_neg (by simpa using hnot), ← ih, RankingBarrier.arrivals]

/-- The structures behind the arrivals of a composition. -/
theorem map_arrivals (c : κ) (xs : List (Structure κ π)) :
    (B.arrivals c xs).map Prod.snd
      = (xs.filter fun x => (B.localValue x).isSome).filter fun x => B.reduce x.composition = c := by
  induction xs with
  | nil => rfl
  | cons x xs ih =>
      cases hv : B.localValue x with
      | none =>
          rw [RankingBarrier.arrivals,
            List.filterMap_cons_none (RankingBarrier.arrival_of_none hv),
            List.filter_cons_of_neg (by simp [hv]), ← ih, RankingBarrier.arrivals]
      | some v =>
          rw [List.filter_cons_of_pos (by simp [hv])]
          by_cases hc : B.reduce x.composition = c
          · have harrival : B.arrival c x = some (v, x) := arrival_eq_some_iff.mpr ⟨rfl, hc, hv⟩
            rw [RankingBarrier.arrivals, List.filterMap_cons_some harrival, List.map_cons,
              List.filter_cons_of_pos (by simpa using hc), ← ih, RankingBarrier.arrivals]
          · rw [RankingBarrier.arrivals,
              List.filterMap_cons_none (RankingBarrier.arrival_of_ne hc),
              List.filter_cons_of_neg (by simpa using hc), ← ih, RankingBarrier.arrivals]

/-! ### Runs since the last release -/

/-- Nothing is held before the first call, nor right after a release. -/
theorem myStructures_of_released {s : BarrierState κ π} {before : List (BarrierOp κ π)}
    (hbefore : before = [] ∨ ∃ calls, before = calls ++ [.release])
    (h : run B.step {} before = some s) : s.myStructures = [] := by
  rcases hbefore with rfl | ⟨calls, rfl⟩
  · obtain rfl := Option.some.inj h
    rfl
  · rw [run_append] at h
    obtain ⟨t, -, hrelease⟩ := Option.bind_eq_some_iff.mp h
    obtain rfl := Option.some.inj hrelease
    rfl

/-- **Held, dropped or sent at once**, of the structures that came in since the last release. -/
theorem held_or_dropped (hconserve : B.Conserves) {s₀ s : BarrierState κ π}
    (h₀ : s₀.myStructures = []) {xs : List (Structure κ π)}
    (h : run B.step s₀ (xs.map .input) = some s) :
    ∃ drops, s.dropped = s₀.dropped ++ drops ∧
      s.held ++ drops ~ xs.filter fun x => (B.localValue x).isSome := by
  obtain ⟨drops, hdrops⟩ := RankingBarrier.dropped_prefix h
  refine ⟨drops, hdrops.symm, ?_⟩
  obtain ⟨-, hperm⟩ := RankingBarrier.conserves_run hconserve (RankingBarrier.Filed.of_empty h₀) h
  have hheld : s₀.held = [] := by rw [BarrierState.held, h₀, List.flatMap_nil]
  rw [RankingBarrier.inputs_map_input, RankingBarrier.sent_inputs h, ← hdrops, hheld] at hperm
  have hsplit := List.filter_append_perm (fun x => (B.localValue x).isSome) xs
  rw [List.perm_iff_count] at hperm hsplit ⊢
  intro x
  have h₁ := hperm x
  have h₂ := hsplit x
  simp only [Option.not_isSome] at h₂
  simp only [List.count_append, List.count_nil] at h₁ h₂ ⊢
  omega

/-- What was dropped of one composition, with the values it had. -/
theorem exists_dropped_entry {s : BarrierState κ π} (hfiled : B.Filed s)
    {xs drops : List (Structure κ π)}
    (hperm : s.held ++ drops ~ xs.filter fun x => (B.localValue x).isSome) {c : κ}
    {edrops : List (Entry κ π)} (hkept : s.order c ++ edrops ~ B.arrivals c xs)
    {x : Structure κ π} (hx : x ∈ drops) {v : ℚ} (hranked : Ranked B c v x) : (v, x) ∈ edrops := by
  have hfilter := hperm.filter fun x => B.reduce x.composition = c
  have hmap := hkept.map Prod.snd
  rw [List.filter_append, hfiled.held_filter, ← map_arrivals] at hfilter
  rw [List.map_append] at hmap
  have hsame := (List.perm_append_left_iff _).mp (hfilter.trans hmap.symm)
  have hmem : x ∈ drops.filter fun x => B.reduce x.composition = c :=
    List.mem_filter.mpr ⟨hx, by simpa using hranked.1⟩
  obtain ⟨e, he, rfl⟩ := List.mem_map.mp (hsame.mem_iff.mp hmem)
  have harrived := (mem_arrivals.mp (hkept.mem_iff.mp (List.mem_append_right _ he))).2
  have hv : e.1 = v := Option.some.inj (harrived.2.symm.trans hranked.2)
  rwa [← hv]

/-- **The law for one composition**, `e` being an arrival with the lowest value. -/
theorem Kept.law {p : ℚ} {s : BarrierState κ π} (hfiled : B.Filed s) {xs drops : List (Structure κ π)}
    (hperm : s.held ++ drops ~ xs.filter fun x => (B.localValue x).isSome) {c : κ} {e : Entry κ π}
    {edrops : List (Entry κ π)} (h : Kept p (B.arrivals c xs) e (s.order c) edrops) :
    (∀ x ∈ s.held, ∀ v, Ranked B c v x → v ≤ e.1 * (1 - p)) ∧
    (∀ x ∈ drops, ∀ v, Ranked B c v x → e.1 * (1 - p) ≤ v) ∧
    (∀ x ∈ xs, ∀ v, Ranked B c v x → v < e.1 * (1 - p) → x ∈ s.held) ∧
    ∃ x, xs.find? (fun x => Ranked B c e.1 x) = some x ∧
      (s.held.filter fun x => B.reduce x.composition = c).head? = some x := by
  have hheld : ∀ {x v}, Ranked B c v x → (x ∈ s.held ↔ (v, x) ∈ s.order c) := by
    intro x v hx
    rw [hfiled.mem_held, hx.1]
    constructor
    · rintro ⟨w, hw⟩
      have hwv : w = v := Option.some.inj ((hfiled.mem_order hw).2.symm.trans hx.2)
      rwa [← hwv]
    · exact fun h => ⟨v, h⟩
  refine ⟨fun x hx v hv => ?_, fun x hx v hv => ?_, fun x hx v hv hlt => ?_, ?_⟩
  · exact h.within (v, x) ((hheld hv).mp hx)
  · exact h.outside _ (exists_dropped_entry hfiled hperm h.perm hx hv)
  · exact (hheld hv).mpr (h.below (v, x) (mem_arrivals.mpr ⟨hx, hv⟩) hlt)
  · obtain ⟨hmem, hranked⟩ := mem_arrivals.mp h.mem
    obtain ⟨x, hx⟩ : ∃ x, xs.find? (fun x => Ranked B c e.1 x) = some x := by
      rw [← Option.isSome_iff_exists, List.find?_isSome]
      exact ⟨e.2, hmem, by simpa using hranked⟩
    refine ⟨x, hx, ?_⟩
    rw [hfiled.held_filter, List.head?_map, h.first, find_arrivals, hx]

end Runs

/-- **The window law.**  For a fraction between zero and one and values that are not positive, the
block never gets stuck.  Take the structures `xs` that came in since the last release.  Those without
the property have been sent, each of the others is held or has been dropped, and for every reduced
composition with lowest value `m`: what is held is not above the cutoff, what was dropped not below
it, everything below the cutoff is held, and the first structure with the lowest value is held, in
front. -/
theorem window_law [LinearOrder κ] [DecidableEq π] (p : ℚ) (property : π) (usePerAtom : Bool)
    (reduce : κ → κ) (hp : 0 ≤ p) (hp1 : p ≤ 1) (before : List (BarrierOp κ π))
    (hbefore : before = [] ∨ ∃ calls, before = calls ++ [.release]) (xs : List (Structure κ π)) :
    let B := keepWithinXPercent p property usePerAtom reduce
    (∀ x, .input x ∈ before ++ xs.map .input → ∀ v, B.localValue x = some v → v ≤ 0) →
    ∃ s₀ s drops, run B.step {} before = some s₀ ∧ run B.step s₀ (xs.map .input) = some s ∧
      s.sent = s₀.sent ++ xs.filter (fun x => (B.localValue x).isNone) ∧
      s.dropped = s₀.dropped ++ drops ∧
      s.held ++ drops ~ xs.filter (fun x => (B.localValue x).isSome) ∧
      ∀ c m, IsLeast {v | ∃ x ∈ xs, Ranked B c v x} m →
        (∀ x ∈ s.held, ∀ v, Ranked B c v x → v ≤ m * (1 - p)) ∧
        (∀ x ∈ drops, ∀ v, Ranked B c v x → m * (1 - p) ≤ v) ∧
        (∀ x ∈ xs, ∀ v, Ranked B c v x → v < m * (1 - p) → x ∈ s.held) ∧
        ∃ x, xs.find? (fun x => Ranked B c m x) = some x ∧
          (s.held.filter fun x => B.reduce x.composition = c).head? = some x := by
  intro B hvalues
  have hrule : B.keepIn = KeepWithinXPercent.keepIn p := rfl
  have hconserve : B.Conserves := conserves p property usePerAtom reduce
  have hsafe : NewLowestNotPositive B p (before ++ xs.map .input) := by
    intro calls x value hcalls hvalue _ _
    exact Or.inr (hvalues x (hcalls.subset (by simp)) value hvalue)
  obtain ⟨s, hrun, -⟩ := exists_run_tracks hrule hp hsafe _ List.prefix_rfl
  rw [run_append] at hrun
  obtain ⟨s₀, hrun₀, hrun⟩ := Option.bind_eq_some_iff.mp hrun
  have h₀ := myStructures_of_released hbefore hrun₀
  obtain ⟨drops, hdrops, hperm⟩ := held_or_dropped hconserve h₀ hrun
  obtain ⟨hfiled, -⟩ := RankingBarrier.conserves_run hconserve (RankingBarrier.Filed.of_empty h₀) hrun
  refine ⟨s₀, s, drops, hrun₀, hrun, RankingBarrier.sent_inputs hrun, hdrops, hperm, fun c m hm => ?_⟩
  obtain ⟨⟨lowest, hlowest, hranked⟩, hleast⟩ := hm
  have harrived : (m, lowest) ∈ B.arrivals c xs := mem_arrivals.mpr ⟨hlowest, hranked⟩
  have harrivals : ∀ e ∈ B.arrivals c xs, e.1 ≤ 0 := by
    intro e he
    obtain ⟨hmem, hv⟩ := mem_arrivals.mp he
    exact hvalues e.2 (List.mem_append_right _ (List.mem_map_of_mem hmem)) e.1 hv.2
  obtain ⟨order, e, edrops, horder, hkept⟩ :=
    exists_kept hrule hp hp1 (List.ne_nil_of_mem harrived) harrivals
  have hsame := RankingBarrier.run_order h₀ hrun c
  rw [RankingBarrier.received_inputs, horder] at hsame
  obtain rfl := Option.some.inj hsame
  have hem : e.1 = m := by
    obtain ⟨hmem, hv⟩ := mem_arrivals.mp hkept.mem
    exact le_antisymm (hkept.le _ harrived) (hleast ⟨e.2, hmem, hv⟩)
  rw [← hem]
  exact hkept.law hfiled hperm

/-- A release, then two structures of which the second is outside the window of the first. -/
theorem window_law_at :
    let B := keepWithinXPercent (1 / 10) () false (id : ℕ → ℕ)
    let xs : List (Structure ℕ Unit) := [⟨1, 1, [((), -10)]⟩, ⟨1, 2, [((), -5)]⟩]
    ∃ s₀ s drops, run B.step {} [.release] = some s₀ ∧
      run B.step s₀ (xs.map .input) = some s ∧ s.dropped = s₀.dropped ++ drops ∧
      s.held ++ drops ~ xs.filter (fun x => (B.localValue x).isSome) := by
  intro B xs
  obtain ⟨s₀, s, drops, hrun₀, hrun, -, hdrops, hperm, -⟩ :=
    window_law (1 / 10) () false (id : ℕ → ℕ) (by norm_num) (by norm_num) [.release]
      (Or.inr ⟨[], rfl⟩) xs (by
        intro x hx v hv
        have hmem : x = ⟨1, 1, [((), -10)]⟩ ∨ x = ⟨1, 2, [((), -5)]⟩ := by simpa [xs] using hx
        rcases hmem with rfl | rfl
        · have hv10 : (-10 : ℚ) = v := Option.some.inj hv
          rw [← hv10]
          norm_num
        · have hv5 : (-5 : ℚ) = v := Option.some.inj hv
          rw [← hv5]
          norm_num)
  exact ⟨s₀, s, drops, hrun₀, hrun, hdrops, hperm⟩

end KeepWithinXPercent

end StructurePipe.Blocks
