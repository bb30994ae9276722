import StructurePipe.Blocks.BarrierContract

/-!
# Releasing stable compositions without having been asked

`hasData` is a question, but it leaves the convex hull behind that `release` goes by; and `release`
takes a missing hull for the answer that there are fewer than two endpoints.  Whoever releases
without having asked, after a structure came in, gets all structures.

* `release_spec` — what a release sends out and drops, in terms of the hull that is kept;
* `HullCurrent.apply` — whatever is called, the hull that is kept is that of the store;
* `asked_release_iff` — **when a release does the same whether it was asked for or not.**
-/

namespace StructurePipe.Blocks

namespace KeepStableCompositions

variable {α : Type*} (H : ConvexHull α)

/-- A call of the engine: one of those every barrier has, or the end of the pipeline. -/
inductive EngineCall (α : Type*) where
  | barrier (call : BarrierCall α)
  | pipelineFinishing
deriving DecidableEq, Repr

def apply [LinearOrder α] (s : KeepStableCompositions α) : EngineCall α → KeepStableCompositions α
  | .barrier (.input x) => s.input x
  | .barrier .release => (release H s).2
  | .barrier .hasData => (hasData H s).2
  | .pipelineFinishing => s.pipelineFinishing

/-! ### What a release sends out and drops -/

/-- What a release sends out, and what it drops. -/
def released (s : KeepStableCompositions α) : List α × List α :=
  match s.myConvexHullStructures with
  | none => (s.myStructureStore, [])
  | some hull =>
      if H.numStable hull = 0 then ([], [])
      else (s.myStructureStore.filter (H.isStable hull),
        s.myStructureStore.filter fun x => !H.isStable hull x)

theorem release_spec (s : KeepStableCompositions α) :
    (release H s).2.sent = s.sent ++ (released H s).1 ∧
      (release H s).2.dropped = s.dropped ++ (released H s).2 := by
  cases hhull : s.myConvexHullStructures with
  | none =>
      rw [release_of_none H hhull, released, hhull]
      exact ⟨rfl, rfl⟩
  | some hull =>
      rw [released, hhull]
      by_cases hstable : H.numStable hull = 0
      · rw [release_of_unstable H hhull hstable]
        simp [hstable]
      · rw [release_of_some H hhull hstable]
        simp only [hstable, if_false]
        exact ⟨rfl, rfl⟩

theorem released_of_none {s : KeepStableCompositions α} (h : s.myConvexHullStructures = none) :
    released H s = (s.myStructureStore, []) := by
  rw [released, h]

theorem released_of_nil {s : KeepStableCompositions α} (h : s.myStructureStore = []) :
    released H s = ([], []) := by
  rw [released, h]
  cases s.myConvexHullStructures with
  | none => rfl
  | some hull => simp

/-- A hull over the store itself sends out what is stable in it. -/
theorem released_fst_of_current {s : KeepStableCompositions α}
    (h : s.myConvexHullStructures = some s.myStructureStore) :
    (released H s).1 = s.myStructureStore.filter (H.isStable s.myStructureStore) := by
  rw [released, h]
  show (if H.numStable s.myStructureStore = 0 then _ else _ : List α × List α).1 = _
  split
  · next hstable =>
      rw [ConvexHull.numStable, List.countP_eq_zero] at hstable
      exact (List.filter_eq_nil_iff.mpr hstable).symm
  · rfl

/-- It drops nothing if everything is stable in it. -/
theorem released_of_stable {s : KeepStableCompositions α} (hnil : s.myStructureStore ≠ [])
    (h : s.myConvexHullStructures = some s.myStructureStore)
    (hall : ∀ x ∈ s.myStructureStore, H.isStable s.myStructureStore x = true) :
    released H s = (s.myStructureStore, []) := by
  have hfilter : s.myStructureStore.filter (H.isStable s.myStructureStore) = s.myStructureStore :=
    List.filter_eq_self.mpr hall
  have hdrops : (s.myStructureStore.filter fun x => !H.isStable s.myStructureStore x) = [] := by
    rw [List.filter_eq_nil_iff]
    intro x hx
    simp [hall x hx]
  have hstable : H.numStable s.myStructureStore ≠ 0 := by
    rw [ConvexHull.numStable, List.countP_eq_length_filter, hfilter, Ne, List.length_eq_zero_iff]
    exact hnil
  rw [released, h]
  show (if H.numStable s.myStructureStore = 0 then _ else _ : List α × List α) = _
  rw [if_neg hstable]
  exact Prod.ext hfilter hdrops

/-- A question neither sends out nor drops. -/
theorem hasData_rest (s : KeepStableCompositions α) :
    (hasData H s).2.sent = s.sent ∧ (hasData H s).2.dropped = s.dropped ∧
      (hasData H s).2.myStructureStore = s.myStructureStore := by
  rw [hasData]
  split
  · exact ⟨rfl, rfl, rfl⟩
  · split <;> exact ⟨rfl, rfl, rfl⟩

/-! ### Asking and not asking -/

/-- A release sends out and drops the same whether `hasData` is called before it or not. -/
def SameIfAsked (s : KeepStableCompositions α) : Prop :=
  (release H s).2.sent = (release H (hasData H s).2).2.sent ∧
    (release H s).2.dropped = (release H (hasData H s).2).2.dropped

/-- With two endpoints or more, a release sends out only what is stable in the hull over the store. -/
def SendsStable (s : KeepStableCompositions α) : Prop :=
  2 ≤ H.numEndpoints s.myStructureStore → ∀ out, (release H s).2.sent = s.sent ++ out →
    ∀ x ∈ out, H.isStable s.myStructureStore x = true

theorem sameIfAsked_iff (s : KeepStableCompositions α) :
    SameIfAsked H s ↔ released H s = released H (hasData H s).2 := by
  obtain ⟨hsent, hdropped⟩ := release_spec H s
  obtain ⟨hsent', hdropped'⟩ := release_spec H (hasData H s).2
  obtain ⟨hasked, hasked', _⟩ := hasData_rest H s
  rw [SameIfAsked, hsent, hdropped, hsent', hdropped', hasked, hasked', List.append_cancel_left_eq,
    List.append_cancel_left_eq, Prod.ext_iff]

theorem sendsStable_iff (s : KeepStableCompositions α) :
    SendsStable H s ↔ (2 ≤ H.numEndpoints s.myStructureStore →
      ∀ x ∈ (released H s).1, H.isStable s.myStructureStore x = true) := by
  refine imp_congr_right fun _ => ?_
  rw [(release_spec H s).1]
  simp only [List.append_cancel_left_eq, forall_eq']

/-- The hull is there, or it takes fewer than two endpoints, or everything is stable in it. -/
def NeedsNoQuestion (s : KeepStableCompositions α) : Prop :=
  s.myConvexHullStructures.isSome ∨ H.numEndpoints s.myStructureStore < 2 ∨
    ∀ x ∈ s.myStructureStore, H.isStable s.myStructureStore x = true

/-- With the hull of the store, another question changes nothing. -/
theorem HullCurrent.hasData_of_some {s : KeepStableCompositions α} (h : HullCurrent H s)
    (hsome : s.myConvexHullStructures.isSome) : (KeepStableCompositions.hasData H s).2 = s := by
  by_cases hnil : s.myStructureStore = []
  · rw [hasData_of_nil H hnil]
  · rcases h with hnil' | hnone | ⟨hmany, hcurrent⟩
    · exact absurd hnil' hnil
    · exact absurd hsome (by simp [hnone])
    · rw [hasData_of_hull H hnil hmany, setHull, ← hcurrent]

/-- **In one state.** -/
theorem HullCurrent.asked_iff {s : KeepStableCompositions α} (h : HullCurrent H s) :
    SameIfAsked H s ∧ SendsStable H s ↔ NeedsNoQuestion H s := by
  rw [sameIfAsked_iff, sendsStable_iff]
  by_cases hnil : s.myStructureStore = []
  · have hasked : (KeepStableCompositions.hasData H s).2.myStructureStore = [] := by
      rw [(hasData_rest H s).2.2, hnil]
    rw [released_of_nil H hnil, released_of_nil H hasked]
    exact iff_of_true (by simp) (Or.inr (Or.inr (by simp [hnil])))
  · cases hhull : s.myConvexHullStructures with
    | some hull =>
        have hsome : s.myConvexHullStructures.isSome := by rw [hhull]; rfl
        have hcurrent : s.myConvexHullStructures = some s.myStructureStore := by
          rcases h with hnil' | hnone | ⟨_, hcurrent⟩
          · exact absurd hnil' hnil
          · exact absurd hsome (by simp [hnone])
          · exact hcurrent
        rw [h.hasData_of_some H hsome, released_fst_of_current H hcurrent]
        exact iff_of_true ⟨rfl, fun _ x hx => (List.mem_filter.mp hx).2⟩ (Or.inl hsome)
    | none =>
        have hnone : ¬ s.myConvexHullStructures.isSome := by simp [hhull]
        rw [NeedsNoQuestion, or_iff_right hnone, released_of_none H hhull]
        rcases Nat.lt_or_ge (H.numEndpoints s.myStructureStore) 2 with hfew | hmany
        · rw [hasData_of_few H hnil hfew, released_of_none H hhull]
          exact iff_of_true ⟨rfl, fun hmany => absurd hmany (by omega)⟩ (Or.inl hfew)
        · rw [or_iff_right (by omega)]
          constructor
          · intro hasked
            exact hasked.2 hmany
          · intro hall
            refine ⟨?_, fun _ => hall⟩
            rw [hasData_of_hull H hnil hmany]
            exact (@released_of_stable α H (s.setHull (some s.myStructureStore)) hnil rfl hall).symm

section Calls

variable [LinearOrder α]

theorem HullCurrent.apply {s : KeepStableCompositions α} (h : HullCurrent H s)
    (call : EngineCall α) : HullCurrent H (KeepStableCompositions.apply H s call) := by
  cases call with
  | pipelineFinishing => exact Or.inl rfl
  | barrier call =>
      cases call with
      | input x => exact Or.inr (Or.inl rfl)
      | release => exact h.current_release
      | hasData => exact h.hasData

/-- Whatever is called, the hull that is kept is that of the store. -/
theorem hullCurrent_calls (calls : List (EngineCall α)) : HullCurrent H (calls.foldl (apply H) {}) := by
  induction calls using List.reverseRecOn with
  | nil => exact Or.inl rfl
  | append_singleton calls call ih =>
      rw [List.foldl_concat]
      exact ih.apply H call

/-- **When it makes no difference whether the engine asks.**  After any calls, a release sends out and
drops the same whether `hasData` is called before it or not, and sends out no structure that is not
stable in a hull with two endpoints or more, if and only if the hull is there already (the question
was asked after the last structure came in), or there are fewer than two endpoints, or everything in
the store is stable. -/
theorem asked_release_iff (calls : List (EngineCall α)) :
    SameIfAsked H (calls.foldl (apply H) {}) ∧ SendsStable H (calls.foldl (apply H) {}) ↔
      NeedsNoQuestion H (calls.foldl (apply H) {}) :=
  (hullCurrent_calls H calls).asked_iff H

end Calls

/-- **Without the question everything is sent out.**  Two structures with two endpoints, the first
stable: after the question it is sent out and the other dropped. -/
theorem unasked_release_differs :
    let H : ConvexHull ℕ := ⟨fun _ => 2, fun _ x => x == 1⟩
    let s := [EngineCall.barrier (.input 1), .barrier (.input 2)].foldl (apply H) {}
    (release H s).2.sent = [1, 2] ∧ (release H s).2.dropped = [] ∧
      (release H (hasData H s).2).2.sent = [1] ∧ (release H (hasData H s).2).2.dropped = [2] ∧
      ¬ (SameIfAsked H s ∧ SendsStable H s) := by
  intro H s
  refine ⟨by decide, by decide, by decide, by decide, fun h => ?_⟩
  exact absurd h.1.1 (by decide)

end KeepStableCompositions

end StructurePipe.Blocks
