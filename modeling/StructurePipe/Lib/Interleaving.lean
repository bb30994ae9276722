import StructurePipe.Lib.StepRuns

/-!
# Parties that take turns on a shared state

Every party has a state of its own, and all of them one state in common.  A step is taken by one
party, which may read and change its own state and the common one; nothing else is changed.  A run
is any order of such steps.

* `step_cases` — what a step of the system can do; `party_run` — a party at rest;
* `Holds.run` — **what every step keeps for the party that takes it and for the others holds in every
  order of steps;**
* `Holds.length_add_measure_le` — if every step lowers what the party and the common state have left to do
  together, no order of steps is longer than what was left at the start.
-/

namespace Interleaving

open StepRuns

variable {ι γ σ ε : Type*}

/-- The common state, and the state of every party. -/
structure System (ι γ σ : Type*) where
  shared : γ
  party : ι → σ

variable [DecidableEq ι] (move : ι → γ → σ → ε → Option (γ × σ))

namespace System

/-- One party takes a step. -/
def step (s : System ι γ σ) (e : ι × ε) : Option (System ι γ σ) :=
  (move e.1 s.shared (s.party e.1) e.2).map fun r => ⟨r.1, Function.update s.party e.1 r.2⟩

variable {move}

/-- **What a step can do:** the party's own step, and nothing to the others. -/
theorem step_cases {s s' : System ι γ σ} {e : ι × ε} (h : s.step move e = some s') :
    move e.1 s.shared (s.party e.1) e.2 = some (s'.shared, s'.party e.1) ∧
      ∀ i, i ≠ e.1 → s'.party i = s.party i := by
  obtain ⟨r, hr, rfl⟩ := Option.map_eq_some_iff.mp h
  exact ⟨by simp [hr], fun i hi => by simp [hi]⟩

/-- A party that takes no step stays as it is. -/
theorem party_run {s s' : System ι γ σ} {events : List (ι × ε)} {i : ι}
    (hi : ∀ e ∈ events, e.1 ≠ i) (h : run (step move) s events = some s') :
    s'.party i = s.party i := by
  refine run_invariant (fun t => t.party i = s.party i) (fun e => e.1 ≠ i) ?_ rfl hi h
  intro t e t' ht hne hstep
  rw [(step_cases hstep).2 i (Ne.symm hne), ht]

/-! ### What is left to do -/

section Measure

variable (common : γ → ℕ) (own : σ → ℕ) (parties : Finset ι)

/-- What is left to do, by the parties that take part. -/
def measure (s : System ι γ σ) : ℕ := common s.shared + ∑ i ∈ parties, own (s.party i)

/-- A step of one of the parties changes the sum in one place. -/
theorem measure_step_lt {s s' : System ι γ σ} {e : ι × ε} (hi : e.1 ∈ parties)
    (h : s.step move e = some s')
    (hless : common s'.shared + own (s'.party e.1) < common s.shared + own (s.party e.1)) :
    s'.measure common own parties < s.measure common own parties := by
  obtain ⟨_, hsame⟩ := step_cases h
  have hrest : ∑ i ∈ parties.erase e.1, own (s'.party i)
      = ∑ i ∈ parties.erase e.1, own (s.party i) :=
    Finset.sum_congr rfl fun i hmem => by rw [hsame i (Finset.ne_of_mem_erase hmem)]
  rw [measure, measure, ← Finset.add_sum_erase _ _ hi, ← Finset.add_sum_erase _ _ hi, hrest]
  omega

end Measure

/-! ### What every step keeps -/

section Keeps

variable (Common : γ → Prop) (Own : ι → γ → σ → Prop) (ok : ε → Prop)
  (hown : ∀ i g l e g' l', Common g → Own i g l → ok e → move i g l e = some (g', l') →
    Common g' ∧ Own i g' l')
  (hother : ∀ i g l e g' l' j m, Common g → Own i g l → ok e → move i g l e = some (g', l') →
    j ≠ i → Own j g m → Own j g' m)

/-- `Common` holds of the common state, and `Own` of every party in it. -/
def Holds (s : System ι γ σ) : Prop := Common s.shared ∧ ∀ i, Own i s.shared (s.party i)

include hown hother

theorem Holds.step {s s' : System ι γ σ} {e : ι × ε} (hs : s.Holds Common Own) (hok : ok e.2)
    (h : s.step move e = some s') : s'.Holds Common Own := by
  obtain ⟨hcommon, hall⟩ := hs
  obtain ⟨hmine, hsame⟩ := step_cases h
  obtain ⟨hcommon', hmine'⟩ := hown _ _ _ _ _ _ hcommon (hall e.1) hok hmine
  refine ⟨hcommon', fun i => ?_⟩
  by_cases hi : i = e.1
  · rw [hi]
    exact hmine'
  · rw [hsame i hi]
    exact hother _ _ _ _ _ _ _ _ hcommon (hall e.1) hok hmine hi (hall i)

/-- **In every order of steps.** -/
theorem Holds.run {s s' : System ι γ σ} {events : List (ι × ε)} (hs : s.Holds Common Own)
    (hok : ∀ e ∈ events, ok e.2) (h : run (System.step move) s events = some s') :
    s'.Holds Common Own :=
  run_invariant (Holds Common Own) (fun e => ok e.2)
    (fun _ _ _ hs hoke hstep => Holds.step Common Own ok hown hother hs hoke hstep) hs hok h

variable (common : γ → ℕ) (own : σ → ℕ) (parties : Finset ι)
  (hlt : ∀ i g l e g' l', Common g → Own i g l → ok e → move i g l e = some (g', l') →
    common g' + own l' < common g + own l)

include hlt in
/-- **No order of steps is longer than what was left to do.** -/
theorem Holds.length_add_measure_le {s s' : System ι γ σ} {events : List (ι × ε)}
    (hs : s.Holds Common Own) (hok : ∀ e ∈ events, ok e.2) (hparties : ∀ e ∈ events, e.1 ∈ parties)
    (h : StepRuns.run (System.step move) s events = some s') :
    events.length + s'.measure common own parties ≤ s.measure common own parties := by
  induction events generalizing s with
  | nil =>
      obtain rfl := Option.some.inj h
      simp
  | cons e events ih =>
      obtain ⟨m, hm, hrun⟩ := Option.bind_eq_some_iff.mp h
      have hoke := hok e List.mem_cons_self
      have hless := hlt _ _ _ _ _ _ hs.1 (hs.2 e.1) hoke (step_cases hm).1
      have hfirst := measure_step_lt common own parties (hparties e List.mem_cons_self) hm hless
      have hrest := ih (Holds.step Common Own ok hown hother hs hoke hm)
        (fun e he => hok e (List.mem_cons_of_mem _ he))
        (fun e he => hparties e (List.mem_cons_of_mem _ he)) hrun
      rw [List.length_cons]
      omega

end Keeps

end System

end Interleaving
