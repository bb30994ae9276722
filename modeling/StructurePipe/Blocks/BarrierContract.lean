import StructurePipe.Blocks.KeepStableCompositions
import StructurePipe.Blocks.KeepTopN
import StructurePipe.Blocks.KeepWithinXPercent
import StructurePipe.Blocks.RemoveDuplicates

/-!
# The barriers and their contract

All four barriers answer `hasData` by looking at their outermost container.  For a block that ranks
structures by composition that is the map of compositions, and an entry of it is made before the rule
decides what to keep; so the answer is right if and only if no entry is empty.

* `RankingBarrier.contract_iff` — the contract of a ranking block in terms of what it holds;
* `keepTopN_contract_iff` — a block that keeps no structure at all has entries that are all empty;
* `barriers_keep_contract` — **when the four barriers keep the contract, after any calls.**
-/

namespace StructurePipe.Blocks

open StepRuns

namespace RankingBarrier

variable {κ π : Type*}

/-- The calls as a ranking block takes them: a question changes nothing. -/
def toOp : BarrierCall (Structure κ π) → Option (BarrierOp κ π)
  | .input x => some (.input x)
  | .release => some .release
  | .hasData => none

/-- A structure held is in an entry that is not empty. -/
theorem held_ne_nil_iff (s : BarrierState κ π) :
    s.held ≠ [] ↔ ∃ e ∈ s.myStructures, e.2 ≠ [] := by
  rw [BarrierState.held, Ne, List.flatMap_eq_nil_iff]
  simp

variable (B : RankingBarrier κ π) [LinearOrder κ] [DecidableEq π]

/-- The block as the engine sees it. -/
def barrier : Barrier (BarrierState κ π) (Structure κ π) where
  input := B.input
  release := BarrierState.release
  hasData s := (s.hasData, s)
  sent := BarrierState.sent

theorem run_barrier (s : BarrierState κ π) (calls : List (BarrierCall (Structure κ π))) :
    run B.barrier.step s calls = run B.step s (calls.filterMap toOp) := by
  induction calls generalizing s with
  | nil => rfl
  | cons c calls ih =>
      cases c with
      | input x =>
          show ((B.input s x).bind fun s' => run B.barrier.step s' calls) = _
          simp only [ih]
          rfl
      | release => exact ih _
      | hasData => exact ih s

/-- **The contract of a ranking block:** there is an entry if and only if something is held. -/
theorem contract_iff (s : BarrierState κ π) :
    B.barrier.Contract s ↔ (s.myStructures ≠ [] ↔ s.held ≠ []) := by
  have hasData_iff : s.hasData = true ↔ s.myStructures ≠ [] := by
    simp [BarrierState.hasData]
  rw [← hasData_iff]
  exact Barrier.contract_iff_of_held BarrierState.held (fun _ => rfl)
    (fun s => ⟨rfl, s.release_fst⟩) (fun _ => rfl) s

variable {B}

/-- What the rule establishes holds of every entry. -/
theorem entries_run {P : StructureOrder κ π → Prop}
    (hrule : ∀ o e o' drops, (o = [] ∨ P o) → B.keepIn o e = some (o', drops) → P o')
    {ops : List (BarrierOp κ π)} {s : BarrierState κ π} (h : run B.step {} ops = some s) :
    ∀ e ∈ s.myStructures, P e.2 := by
  refine run_invariant (fun s => ∀ e ∈ s.myStructures, P e.2) (fun _ => True) ?_ (by simp)
    (fun _ _ => trivial) h
  intro s op s' hs _ hop
  cases op with
  | input x =>
      rcases input_cases hop with ⟨_, rfl⟩ | ⟨value, o, drops, _, hkeep, rfl⟩
      · exact hs
      · have horder : s.order (B.reduce x.composition) = [] ∨
            P (s.order (B.reduce x.composition)) := by
          rw [BarrierState.order]
          cases hfind : OrderedMap.find (B.reduce x.composition) s.myStructures with
          | none => exact Or.inl rfl
          | some o => exact Or.inr (hs _ (OrderedMap.mem_of_find hfind))
        intro e he
        rcases OrderedMap.mem_set he with rfl | he
        · exact hrule _ _ _ _ horder hkeep
        · exact hs e he
  | release =>
      obtain rfl := Option.some.inj hop
      simp [BarrierState.release]

/-- If no entry is empty the contract holds. -/
theorem contract_of_entries {s : BarrierState κ π} (h : ∀ e ∈ s.myStructures, e.2 ≠ []) :
    B.barrier.Contract s := by
  rw [contract_iff, held_ne_nil_iff]
  constructor
  · intro hne
    obtain ⟨e, he⟩ := List.exists_mem_of_ne_nil _ hne
    exact ⟨e, he, h e he⟩
  · rintro ⟨e, he, _⟩
    exact List.ne_nil_of_mem he

/-- There is an entry as soon as a structure with the property has come in. -/
theorem myStructures_eq_nil_iff {calls : List (BarrierCall (Structure κ π))} {s : BarrierState κ π}
    (h : run B.barrier.step {} calls = some s) :
    s.myStructures = [] ↔ ∀ x ∈ BarrierCall.sinceRelease calls, B.localValue x = none := by
  refine run_simulates (fun (s : BarrierState κ π) xs =>
    s.myStructures = [] ↔ ∀ x ∈ xs, B.localValue x = none) BarrierCall.since ?_ (by simp) h
  intro s c s' xs hs hc
  cases c with
  | input x =>
      rw [BarrierCall.since, List.forall_mem_append, ← hs, List.forall_mem_singleton]
      rcases input_cases hc with ⟨hv, rfl⟩ | ⟨value, o, drops, hv, _, rfl⟩
      · simp [hv, BarrierState.out]
      · have hne : OrderedMap.set (B.reduce x.composition) o s.myStructures ≠ [] := by
          cases s.myStructures with
          | nil => simp [OrderedMap.set]
          | cons e m =>
              rw [OrderedMap.set]
              split
              · simp
              · split <;> simp
        simp [hv, BarrierState.store, hne]
  | release =>
      obtain rfl := Option.some.inj hc
      exact ⟨fun _ => by simp [BarrierCall.since], fun _ => rfl⟩
  | hasData =>
      obtain rfl := Option.some.inj hc
      exact hs

end RankingBarrier

/-! ### The four blocks -/

namespace KeepTopN

variable {κ π : Type*}

/-- The rule holds back at least one structure, unless it is to keep none. -/
theorem keepIn_fst_ne_nil {n : ℕ} (hn : 1 ≤ n) (order : StructureOrder κ π) (e : Entry κ π) :
    (keepIn n order e).1 ≠ [] := by
  have hlength := StableMultimap.length_insert e order
  simp only [keepIn]
  split
  · next hlt =>
      show (StableMultimap.insert e order).dropLast ≠ []
      rw [← List.length_pos_iff, List.length_dropLast]
      omega
  · exact StableMultimap.insert_ne_nil e order

/-- **When a block that keeps the best structures keeps the contract.** -/
theorem keepTopN_contract_iff [LinearOrder κ] [DecidableEq π] (n : ℕ) (property : π)
    (usePerAtom : Bool) (reduce : κ → κ) (calls : List (BarrierCall (Structure κ π))) :
    let B := keepTopN n property usePerAtom reduce
    ∃ s, run B.barrier.step {} calls = some s ∧
      (B.barrier.Contract s ↔
        1 ≤ n ∨ ∀ x ∈ BarrierCall.sinceRelease calls, B.localValue x = none) := by
  intro B
  obtain ⟨s, hrun⟩ := RankingBarrier.run_isSome (B := B) (fun o e => ⟨_, rfl⟩) {}
    (calls.filterMap RankingBarrier.toOp)
  rw [← B.run_barrier] at hrun
  refine ⟨s, hrun, ?_⟩
  rw [← RankingBarrier.myStructures_eq_nil_iff hrun]
  rw [B.run_barrier] at hrun
  by_cases hn : 1 ≤ n
  · refine iff_of_true (RankingBarrier.contract_of_entries ?_) (Or.inl hn)
    refine RankingBarrier.entries_run (P := fun o => o ≠ []) ?_ hrun
    intro o e o' drops _ hkeep
    have hfst : (keepIn n o e).1 = o' := congrArg Prod.fst (Option.some.inj hkeep)
    exact hfst ▸ keepIn_fst_ne_nil hn o e
  · obtain rfl : n = 0 := by omega
    have hempty : ∀ e ∈ s.myStructures, e.2 = [] := by
      refine RankingBarrier.entries_run (P := fun o => o = []) ?_ hrun
      intro o e o' drops ho hkeep
      have ho' : o = [] := ho.elim id id
      have hfst : (keepIn 0 o e).1 = o' := congrArg Prod.fst (Option.some.inj hkeep)
      rw [← hfst, ho']
      rfl
    have hheld : s.held = [] := by
      by_contra hne
      obtain ⟨e, he, hne⟩ := (RankingBarrier.held_ne_nil_iff s).mp hne
      exact hne (hempty e he)
    rw [RankingBarrier.contract_iff, hheld]
    simp

end KeepTopN

namespace KeepWithinXPercent

variable {κ π : Type*}

/-- Whenever the rule does not fail, something is held. -/
theorem keepIn_ne_nil {p : ℚ} {order order' : StructureOrder κ π} {e : Entry κ π}
    {drops : List (Entry κ π)} (h : keepIn p order e = some (order', drops)) : order' ≠ [] := by
  cases order with
  | nil =>
      obtain ⟨rfl, rfl⟩ := Prod.mk.inj (Option.some.inj h)
      exact StableMultimap.insert_ne_nil e []
  | cons lowest rest =>
      rw [keepIn] at h
      split at h
      · obtain ⟨⟨o, ds⟩, hback, heq⟩ := Option.map_eq_some_iff.mp h
        obtain ⟨rfl, rfl⟩ := Prod.mk.inj heq
        rw [Ne, List.reverse_eq_nil_iff]
        exact (evictBack_spec hback).2
      · split at h
        · obtain ⟨rfl, rfl⟩ := Prod.mk.inj (Option.some.inj h)
          exact StableMultimap.insert_ne_nil e _
        · obtain ⟨rfl, rfl⟩ := Prod.mk.inj (Option.some.inj h)
          simp

theorem mem_inputs_of_toOp {x : Structure κ π} {calls : List (BarrierCall (Structure κ π))}
    (h : BarrierOp.input x ∈ calls.filterMap RankingBarrier.toOp) : x ∈ BarrierCall.inputs calls := by
  obtain ⟨c, hc, hop⟩ := List.mem_filterMap.mp h
  cases c with
  | input y =>
      obtain rfl : y = x := by simpa [RankingBarrier.toOp] using hop
      exact List.mem_filterMap.mpr ⟨_, hc, rfl⟩
  | release => simp [RankingBarrier.toOp] at hop
  | hasData => simp [RankingBarrier.toOp] at hop

/-- **A block that keeps what is close to the best keeps the contract** as long as the values are
negative. -/
theorem keepWithinXPercent_contract [LinearOrder κ] [DecidableEq π] (p : ℚ) (property : π)
    (usePerAtom : Bool) (reduce : κ → κ) (hp : 0 ≤ p)
    (calls : List (BarrierCall (Structure κ π)))
    (hneg : ∀ x ∈ BarrierCall.inputs calls, ∀ v,
      (keepWithinXPercent p property usePerAtom reduce).localValue x = some v → v < 0) :
    ∃ s, run (keepWithinXPercent p property usePerAtom reduce).barrier.step {} calls = some s ∧
      (keepWithinXPercent p property usePerAtom reduce).barrier.Contract s := by
  have hsafe : NewLowestNotPositive (keepWithinXPercent p property usePerAtom reduce) p
      (calls.filterMap RankingBarrier.toOp) := by
    intro before x value hprefix hvalue _ _
    have hmem : BarrierOp.input x ∈ calls.filterMap RankingBarrier.toOp :=
      hprefix.subset (by simp)
    exact Or.inr (hneg x (mem_inputs_of_toOp hmem) value hvalue).le
  obtain ⟨s, hrun, _⟩ := exists_run_tracks rfl hp hsafe _ List.prefix_rfl
  refine ⟨s, by rw [RankingBarrier.run_barrier, hrun], RankingBarrier.contract_of_entries ?_⟩
  exact RankingBarrier.entries_run (P := fun o => o ≠ [])
    (fun _ _ _ _ _ hkeep => keepIn_ne_nil hkeep) hrun

end KeepWithinXPercent

namespace RemoveDuplicates

variable {α : Type*} [DecidableEq α]

/-- **A block that removes duplicates keeps the contract** in every state. -/
theorem removeDuplicates_contract (S : UniqueStructureSet α) (s : RemoveDuplicates α) :
    (barrier S).Contract s := by
  refine (Barrier.contract_iff_of_held myStructureSet (fun _ => rfl) (fun _ => ⟨rfl, rfl⟩)
    (fun _ => rfl) s).mpr ?_
  show (!s.myStructureSet.isEmpty) = true ↔ _
  simp

end RemoveDuplicates

namespace KeepStableCompositions

variable {α : Type*} (H : ConvexHull α)

/-- The hull that is kept belongs to what is in the store, if there is anything. -/
def HullCurrent (s : KeepStableCompositions α) : Prop :=
  s.myStructureStore = [] ∨ s.myConvexHullStructures = none ∨
    (2 ≤ H.numEndpoints s.myStructureStore ∧ s.myConvexHullStructures = some s.myStructureStore)

/-- Nothing is held, or there is a hull in which nothing is stable. -/
def Idle (s : KeepStableCompositions α) : Prop :=
  s.myStructureStore = [] ∨ (2 ≤ H.numEndpoints s.myStructureStore ∧
    H.numStable s.myStructureStore = 0 ∧ s.myConvexHullStructures = some s.myStructureStore)

/-- A hull in which nothing is stable: a release does nothing. -/
theorem release_of_unstable {s : KeepStableCompositions α} {hull : List α}
    (h : s.myConvexHullStructures = some hull) (hstable : H.numStable hull = 0) :
    release H s = (0, s) := by
  rw [release, h]
  exact if_pos hstable

/-- What a release can do: nothing, or send out and drop all that is held. -/
theorem release_cases (s : KeepStableCompositions α) :
    (∃ hull, s.myConvexHullStructures = some hull ∧ H.numStable hull = 0 ∧
      release H s = (0, s)) ∨
    ∃ out drops, release H s = (out.length, s.sendOff out drops) := by
  cases hhull : s.myConvexHullStructures with
  | none => exact Or.inr ⟨_, _, release_of_none H hhull⟩
  | some hull =>
      by_cases hstable : H.numStable hull = 0
      · exact Or.inl ⟨hull, rfl, hstable, release_of_unstable H hhull hstable⟩
      · refine Or.inr ⟨s.myStructureStore.filter (H.isStable hull),
          s.myStructureStore.filter fun x => !H.isStable hull x, ?_⟩
        rw [release_of_some H hhull hstable, List.countP_eq_length_filter]

theorem releases [LinearOrder α] (s : KeepStableCompositions α) : ∃ out, (barrier H).Releases s out := by
  rcases release_cases H s with ⟨_, _, _, hrelease⟩ | ⟨out, drops, hrelease⟩
  · refine ⟨[], ?_, ?_⟩
    · show (release H s).2.sent = _
      rw [hrelease, List.append_nil]
      rfl
    · show (release H s).1 = _
      rw [hrelease]
      rfl
  · refine ⟨out, ?_, ?_⟩
    · show (release H s).2.sent = _
      rw [hrelease]
      rfl
    · show (release H s).1 = _
      rw [hrelease]

theorem hasData_of_idle {s : KeepStableCompositions α} (h : Idle H s) :
    hasData H s = (false, s) := by
  rcases h with hnil | ⟨hmany, hstable, hhull⟩
  · exact hasData_of_nil H hnil
  · by_cases hnil : s.myStructureStore = []
    · exact hasData_of_nil H hnil
    · rw [hasData_of_hull H hnil hmany, hstable, setHull, ← hhull]
      rfl

theorem Idle.release {s : KeepStableCompositions α} (h : Idle H s) :
    Idle H (KeepStableCompositions.release H s).2 := by
  rcases release_cases H s with ⟨_, _, _, hrelease⟩ | ⟨out, drops, hrelease⟩
  · rw [hrelease]
    exact h
  · rw [hrelease]
    exact Or.inl rfl

/-- After a release the block is idle. -/
theorem HullCurrent.idle_release {s : KeepStableCompositions α} (h : HullCurrent H s) :
    Idle H (KeepStableCompositions.release H s).2 := by
  rcases release_cases H s with ⟨hull, hhull, hstable, hrelease⟩ | ⟨out, drops, hrelease⟩
  · rw [hrelease]
    rcases h with hnil | hnone | ⟨hmany, hcurrent⟩
    · exact Or.inl hnil
    · exact absurd (hhull.symm.trans hnone) (by simp)
    · obtain rfl : hull = s.myStructureStore := Option.some.inj (hhull.symm.trans hcurrent)
      exact Or.inr ⟨hmany, hstable, hhull⟩
  · rw [hrelease]
    exact Or.inl rfl

theorem HullCurrent.current_release {s : KeepStableCompositions α} (h : HullCurrent H s) :
    HullCurrent H (release H s).2 := by
  rcases h.idle_release with hnil | ⟨hmany, _, hhull⟩
  · exact Or.inl hnil
  · exact Or.inr (Or.inr ⟨hmany, hhull⟩)

theorem HullCurrent.hasData {s : KeepStableCompositions α} (h : HullCurrent H s) :
    HullCurrent H (KeepStableCompositions.hasData H s).2 := by
  by_cases hnil : s.myStructureStore = []
  · rw [hasData_of_nil H hnil]
    exact h
  · rcases Nat.lt_or_ge (H.numEndpoints s.myStructureStore) 2 with hfew | hmany
    · rw [hasData_of_few H hnil hfew]
      exact h
    · rw [hasData_of_hull H hnil hmany]
      exact Or.inr (Or.inr ⟨hmany, rfl⟩)

theorem release_of_nil {s : KeepStableCompositions α} (h : s.myStructureStore = []) :
    (release H s).1 = 0 := by
  cases hhull : s.myConvexHullStructures with
  | none =>
      rw [release_of_none H hhull, h]
      rfl
  | some hull =>
      by_cases hstable : H.numStable hull = 0
      · rw [release_of_unstable H hhull hstable]
      · rw [release_of_some H hhull hstable, h]
        rfl

/-- The answer tells whether the release that follows sends anything. -/
theorem HullCurrent.hasData_iff_release {s : KeepStableCompositions α} (h : HullCurrent H s) :
    (KeepStableCompositions.hasData H s).1 = true ↔
      0 < (release H (KeepStableCompositions.hasData H s).2).1 := by
  by_cases hnil : s.myStructureStore = []
  · rw [hasData_of_nil H hnil, release_of_nil H hnil]
    simp
  · rcases Nat.lt_or_ge (H.numEndpoints s.myStructureStore) 2 with hfew | hmany
    · have hnone : s.myConvexHullStructures = none := by
        rcases h with hnil' | hnone | ⟨hmany, _⟩
        · exact absurd hnil' hnil
        · exact hnone
        · omega
      rw [hasData_of_few H hnil hfew, release_of_none H hnone]
      simpa [List.length_pos_iff] using hnil
    · rw [hasData_of_hull H hnil hmany]
      by_cases hstable : H.numStable s.myStructureStore = 0
      · rw [release_of_unstable H rfl hstable]
        simp [hstable]
      · rw [release_of_some H rfl hstable]
        show (H.numStable s.myStructureStore != 0) = true ↔ 0 < H.numStable s.myStructureStore
        rw [bne_iff_ne, Nat.pos_iff_ne_zero]

/-- **The contract of the block**, as long as the hull it keeps is that of its store. -/
theorem HullCurrent.contract [LinearOrder α] {s : KeepStableCompositions α} (h : HullCurrent H s) :
    (barrier H).Contract s := by
  refine ⟨?_, ?_, releases H s, ?_⟩
  · show (KeepStableCompositions.hasData H s).2.sent = s.sent
    rw [KeepStableCompositions.hasData]
    split
    · rfl
    · split <;> rfl
  · obtain ⟨out, hout⟩ := releases H (KeepStableCompositions.hasData H s).2
    refine ⟨out, hout, ?_⟩
    have hcount : (release H (KeepStableCompositions.hasData H s).2).1 = out.length := hout.2
    show (KeepStableCompositions.hasData H s).1 = true ↔ out ≠ []
    rw [← List.length_pos_iff, ← hcount]
    exact h.hasData_iff_release
  · exact Barrier.exhausted_of (Idle H) (fun s hs => by
      show (KeepStableCompositions.hasData H s).1 = false
      rw [hasData_of_idle H hs]) (fun s hs => hs.release) (fun s hs => by
      show Idle H (KeepStableCompositions.hasData H s).2
      rwa [hasData_of_idle H hs]) h.idle_release

end KeepStableCompositions

section Results

variable {κ π α : Type*} [LinearOrder κ] [DecidableEq π] [LinearOrder α]

/-- **The barriers and their contract.**  After any sequence of calls on a new block: a block that
keeps the best `n` structures keeps the contract if and only if `n` is at least one, or no structure
with the property has come in since the last release; one that keeps what is close to the best of
negative values, one that removes duplicates and one that keeps stable compositions keep it always. -/
theorem barriers_keep_contract (property : π) (usePerAtom : Bool) (reduce : κ → κ) :
    (∀ (n : ℕ) (calls : List (BarrierCall (Structure κ π))),
      ∃ s, run (keepTopN n property usePerAtom reduce).barrier.step {} calls = some s ∧
        ((keepTopN n property usePerAtom reduce).barrier.Contract s ↔
          1 ≤ n ∨ ∀ x ∈ BarrierCall.sinceRelease calls,
            (keepTopN n property usePerAtom reduce).localValue x = none)) ∧
    (∀ (p : ℚ) (calls : List (BarrierCall (Structure κ π))), 0 ≤ p → p ≤ 1 →
      (∀ x ∈ BarrierCall.inputs calls, ∀ v,
        (keepWithinXPercent p property usePerAtom reduce).localValue x = some v → v < 0) →
      ∃ s, run (keepWithinXPercent p property usePerAtom reduce).barrier.step {} calls = some s ∧
        (keepWithinXPercent p property usePerAtom reduce).barrier.Contract s) ∧
    (∀ (S : UniqueStructureSet α) (timesFound : α → Option UInt32) (calls : List (BarrierCall α)),
      ∃ s, run (RemoveDuplicates.barrier S).step { timesFound := timesFound } calls = some s ∧
        (RemoveDuplicates.barrier S).Contract s) ∧
    (∀ (H : ConvexHull α) (calls : List (BarrierCall α)),
      ∃ s, run (KeepStableCompositions.barrier H).step {} calls = some s ∧
        (KeepStableCompositions.barrier H).Contract s) := by
  refine ⟨fun n calls => KeepTopN.keepTopN_contract_iff n property usePerAtom reduce calls,
    fun p calls hp _ hneg => KeepWithinXPercent.keepWithinXPercent_contract p property usePerAtom
      reduce hp calls hneg, fun S timesFound calls => ?_, fun H calls => ?_⟩
  · obtain ⟨s, hrun, _⟩ := Barrier.exists_run (B := RemoveDuplicates.barrier S)
      (fun _ => True) (fun _ _ _ => ⟨_, rfl, trivial⟩) (fun _ _ => trivial)
      (fun _ _ => trivial) (s := { timesFound := timesFound }) trivial calls
    exact ⟨s, hrun, RemoveDuplicates.removeDuplicates_contract S s⟩
  · obtain ⟨s, hrun, hcurrent⟩ := Barrier.exists_run (B := KeepStableCompositions.barrier H)
      (KeepStableCompositions.HullCurrent H) (fun _ _ _ => ⟨_, rfl, Or.inr (Or.inl rfl)⟩)
      (fun _ hs => hs.current_release) (fun _ hs => hs.hasData) (s := {}) (Or.inl rfl) calls
    exact ⟨s, hrun, hcurrent.contract⟩

/-- A block that keeps one structure, and one that keeps all within ten percent, after two structures
with negative values. -/
theorem barriers_keep_contract_at :
    (∃ s, run (keepTopN 1 () false (id : ℕ → ℕ)).barrier.step {}
        [.input ⟨1, 1, [((), -9)]⟩, .hasData, .input ⟨1, 2, [((), -10)]⟩] = some s ∧
      (keepTopN 1 () false (id : ℕ → ℕ)).barrier.Contract s) ∧
    ∃ s, run (keepWithinXPercent (1 / 10) () false (id : ℕ → ℕ)).barrier.step {}
        [.input ⟨1, 1, [((), -9)]⟩, .hasData, .input ⟨1, 2, [((), -10)]⟩] = some s ∧
      (keepWithinXPercent (1 / 10) () false (id : ℕ → ℕ)).barrier.Contract s := by
  obtain ⟨htop, hwithin, _, _⟩ :=
    @barriers_keep_contract ℕ Unit ℕ _ _ _ () false id
  constructor
  · obtain ⟨s, hrun, hiff⟩ := htop 1
      [.input ⟨1, 1, [((), -9)]⟩, .hasData, .input ⟨1, 2, [((), -10)]⟩]
    exact ⟨s, hrun, hiff.mpr (Or.inl le_rfl)⟩
  · refine hwithin (1 / 10) _ (by norm_num) (by norm_num) ?_
    intro x hx v hv
    have hmem : x = ⟨1, 1, [((), -9)]⟩ ∨ x = ⟨1, 2, [((), -10)]⟩ := by
      simpa [BarrierCall.inputs] using hx
    rcases hmem with rfl | rfl
    · have hvalue : (-9 : ℚ) = v := Option.some.inj hv
      rw [← hvalue]
      norm_num
    · have hvalue : (-10 : ℚ) = v := Option.some.inj hv
      rw [← hvalue]
      norm_num

/-- **A block that keeps nothing claims to have data.**  With `n = 0` the structure that came in was
dropped, `hasData` answers yes, and the release sends nothing. -/
theorem keepTopN_zero_has_data :
    ∃ s, run (keepTopN 0 () false (id : ℕ → ℕ)).barrier.step {} [.input ⟨1, 1, [((), 5)]⟩] = some s ∧
      s.hasData = true ∧ s.release.1 = 0 ∧ s.held = [] ∧
      ¬ (keepTopN 0 () false (id : ℕ → ℕ)).barrier.Contract s := by
  refine ⟨_, rfl, rfl, rfl, rfl, ?_⟩
  rw [RankingBarrier.contract_iff]
  intro h
  exact h.mp (by decide) rfl

end Results

end StructurePipe.Blocks
