import StructurePipe.Lib.StepRuns

/-!
# Barriers as the engine sees them

A barrier collects structures until the engine asks whether it has data and, if so, tells it to
release them.  `Barrier` is that interface over a state of any kind; `hasData` is a question, but a
block may remember what it found out, so it returns a state too.

* `Contract` — what the engine relies on in a state: the answer of `hasData` tells whether a release
  sends anything, `release` counts what it sends, and it leaves nothing behind to ask for;
* `contract_iff_of_held` — the contract of a block that sends out what it holds;
* `Drained` — the protocol: release after every positive answer, until the answer is negative.
-/

namespace StructurePipe.Blocks

open StepRuns

/-- The operations of a barrier.  `in` may run into undefined behaviour. -/
structure Barrier (σ α : Type*) where
  input : σ → α → Option σ
  release : σ → ℕ × σ
  hasData : σ → Bool × σ
  sent : σ → List α

/-- A call from the engine. -/
inductive BarrierCall (α : Type*) where
  | input (x : α)
  | release
  | hasData
deriving DecidableEq, Repr

namespace BarrierCall

variable {α : Type*}

/-- A call that brings no structure. -/
def Quiet : BarrierCall α → Prop
  | .input _ => False
  | .release => True
  | .hasData => True

/-- What has come in since the last release, after one more call. -/
def since (xs : List α) : BarrierCall α → List α
  | .input x => xs ++ [x]
  | .release => []
  | .hasData => xs

/-- What has come in since the last release. -/
def sinceRelease (calls : List (BarrierCall α)) : List α := calls.foldl since []

/-- Everything that has come in. -/
def inputs (calls : List (BarrierCall α)) : List α :=
  calls.filterMap fun c => match c with
    | .input x => some x
    | .release => none
    | .hasData => none

end BarrierCall

namespace Barrier

variable {σ α : Type*} (B : Barrier σ α)

def step (s : σ) : BarrierCall α → Option σ
  | .input x => B.input s x
  | .release => some (B.release s).2
  | .hasData => some (B.hasData s).2

/-- A block whose `in` never fails never fails. -/
theorem exists_run (Inv : σ → Prop) (hin : ∀ s x, Inv s → ∃ s', B.input s x = some s' ∧ Inv s')
    (hrelease : ∀ s, Inv s → Inv (B.release s).2) (hask : ∀ s, Inv s → Inv (B.hasData s).2)
    {s : σ} (hs : Inv s) (calls : List (BarrierCall α)) :
    ∃ s', run B.step s calls = some s' ∧ Inv s' := by
  induction calls generalizing s with
  | nil => exact ⟨s, rfl, hs⟩
  | cons c calls ih =>
      cases c with
      | input x =>
          obtain ⟨m, hm, hinv⟩ := hin s x hs
          obtain ⟨s', hrun, hs'⟩ := ih hinv
          exact ⟨s', by rw [run_cons, step, hm]; exact hrun, hs'⟩
      | release => exact ih (hrelease s hs)
      | hasData => exact ih (hask s hs)

/-- The structures a release sends out, and the number it returns. -/
def Releases (s : σ) (out : List α) : Prop :=
  B.sent (B.release s).2 = B.sent s ++ out ∧ (B.release s).1 = out.length

/-- However often the engine asks and releases, `hasData` answers no until a structure comes in. -/
def Exhausted (s : σ) : Prop :=
  ∀ calls s', (∀ c ∈ calls, BarrierCall.Quiet c) → run B.step s calls = some s' →
    (B.hasData s').1 = false

/-- What the engine relies on. -/
structure Contract (s : σ) : Prop where
  sent_hasData : B.sent (B.hasData s).2 = B.sent s
  hasData_iff : ∃ out, B.Releases (B.hasData s).2 out ∧ ((B.hasData s).1 = true ↔ out ≠ [])
  release_count : ∃ out, B.Releases s out
  after_release : B.Exhausted (B.release s).2

variable {B}

/-- A kind of state in which the answer is no and which quiet calls do not leave. -/
theorem exhausted_of (Idle : σ → Prop) (hno : ∀ s, Idle s → (B.hasData s).1 = false)
    (hrelease : ∀ s, Idle s → Idle (B.release s).2) (hask : ∀ s, Idle s → Idle (B.hasData s).2)
    {s : σ} (hs : Idle s) : B.Exhausted s := by
  intro calls s' hquiet hrun
  refine hno s' (run_invariant Idle BarrierCall.Quiet ?_ hs hquiet hrun)
  intro m c m' hm hc hstep
  cases c with
  | input x => exact hc.elim
  | release => exact Option.some.inj hstep ▸ hrelease m hm
  | hasData => exact Option.some.inj hstep ▸ hask m hm

/-- **A block that sends out what it holds**, and that can be asked without consequence, keeps the
contract in a state exactly if its answer there tells whether it holds anything. -/
theorem contract_iff_of_held (held : σ → List α) (hask : ∀ s, (B.hasData s).2 = s)
    (hreleases : ∀ s, B.Releases s (held s)) (hempty : ∀ s, (B.hasData (B.release s).2).1 = false)
    (s : σ) : B.Contract s ↔ ((B.hasData s).1 = true ↔ held s ≠ []) := by
  constructor
  · intro h
    obtain ⟨out, hout, hiff⟩ := h.hasData_iff
    rw [hask s] at hout
    have heq : out = held s := List.append_cancel_left (hout.1.symm.trans (hreleases s).1)
    rw [← heq]
    exact hiff
  · intro h
    refine ⟨by rw [hask s], ⟨held s, by rw [hask s]; exact hreleases s, h⟩, ⟨_, hreleases s⟩, ?_⟩
    exact exhausted_of (fun s => (B.hasData s).1 = false) (fun _ h => h)
      (fun m _ => hempty m) (fun m hm => by rw [hask m]; exact hm) (hempty s)

/-! ### The protocol of the engine -/

/-- The engine asks, releases directly after a positive answer, and stops at the first negative
one. -/
inductive Drained (B : Barrier σ α) : σ → σ → Prop
  | stop {s : σ} (h : (B.hasData s).1 = false) : Drained B s (B.hasData s).2
  | release {s s' : σ} (h : (B.hasData s).1 = true)
      (rest : Drained B (B.release (B.hasData s).2).2 s') : Drained B s s'

/-- There is one way to drain a barrier at most. -/
theorem Drained.unique {s s₁ s₂ : σ} (h₁ : Drained B s s₁) (h₂ : Drained B s s₂) : s₁ = s₂ := by
  induction h₁ with
  | stop hno =>
      cases h₂ with
      | stop => rfl
      | release hyes => simp [hno] at hyes
  | release hyes _ ih =>
      cases h₂ with
      | stop hno => simp [hno] at hyes
      | release _ rest => exact ih rest

end Barrier

end StructurePipe.Blocks
