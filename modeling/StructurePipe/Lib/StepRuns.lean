import Mathlib.Data.List.Basic
import Mathlib.Tactic

/-!
# Runs of a machine that may get stuck

A machine is a state type and a step function that takes an instruction and may fail; a run takes a
list of instructions, and fails with the first step that fails.  Four rules turn a fact about one
step into a fact about every run:

* `run_invariant` — what every successful step preserves holds at the end of every successful run
  (for steps of a kind, in runs of that kind; `run_invariant_along` for admissible steps);
* `run_total` — **if admissible steps succeed and preserve the invariant, an admissible run
  succeeds and ends in it;**
* `run_simulates` — a step-wise simulation of an abstract machine is a simulation of its runs;
* `run_reaches` — if the steps of a stream of instructions lower a measure, the run is done some time.

What is observed of a run is in turn (`InTurn`) if each observation goes on from the state that the one
before has left; `InTurn.snoc` adds the next one.

Admissibility is judged at the state in which the step is taken (`Along`), so it may depend on what
happened before; `along_congr` compares two such conditions.
-/

namespace StepRuns

variable {σ ι τ : Type*} (step : σ → ι → Option σ)

/-- All instructions in turn. -/
def run : σ → List ι → Option σ
  | s, [] => some s
  | s, a :: as => (step s a).bind fun s' => run s' as

@[simp] theorem run_nil (s : σ) : run step s [] = some s := rfl

@[simp] theorem run_cons (s : σ) (a : ι) (as : List ι) :
    run step s (a :: as) = (step s a).bind fun s' => run step s' as := rfl

theorem run_append (s : σ) (as bs : List ι) :
    run step s (as ++ bs) = (run step s as).bind fun s' => run step s' bs := by
  induction as generalizing s with
  | nil => rfl
  | cons a as ih =>
      simp only [List.cons_append, run_cons, Option.bind_assoc]
      congr 1
      funext s'
      exact ih s'

/-- Every instruction of the run is admissible where it is taken. -/
def Along (ok : σ → ι → Prop) : σ → List ι → Prop
  | _, [] => True
  | s, a :: as => ok s a ∧ ∀ s', step s a = some s' → Along ok s' as

/-- Admissibility of a run is tested by taking the run. -/
def decidableAlong (ok : σ → ι → Prop) [∀ s a, Decidable (ok s a)] :
    ∀ (s : σ) (as : List ι), Decidable (Along step ok s as)
  | _, [] => isTrue trivial
  | s, a :: as =>
      match hstep : step s a with
      | none => decidable_of_iff (ok s a) (by simp [Along, hstep])
      | some s' =>
          haveI := decidableAlong ok s' as
          decidable_of_iff (ok s a ∧ Along step ok s' as) (by simp [Along, hstep])

instance (ok : σ → ι → Prop) [∀ s a, Decidable (ok s a)] (s : σ) (as : List ι) :
    Decidable (Along step ok s as) := decidableAlong step ok s as

variable {step}

theorem Along.mono {ok ok' : σ → ι → Prop} {s : σ} {as : List ι}
    (himp : ∀ s, ∀ a ∈ as, ok s a → ok' s a) (h : Along step ok s as) : Along step ok' s as := by
  induction as generalizing s with
  | nil => trivial
  | cons a as ih =>
      exact ⟨himp s a (by simp) h.1,
        fun m hm => ih (fun s b hb => himp s b (by simp [hb])) (h.2 m hm)⟩

/-- What every step that succeeds requires holds along a run that succeeds. -/
theorem along_of_run {ok : σ → ι → Prop} (hstep : ∀ s a s', step s a = some s' → ok s a)
    {s s' : σ} {as : List ι} (h : run step s as = some s') : Along step ok s as := by
  induction as generalizing s with
  | nil => trivial
  | cons a as ih =>
      obtain ⟨m, hm, hrun⟩ := Option.bind_eq_some_iff.mp h
      refine ⟨hstep s a m hm, fun m' hm' => ?_⟩
      rw [hm] at hm'
      exact Option.some.inj hm' ▸ ih hrun

/-- Whatever is admissible everywhere is admissible along every run. -/
theorem along_of_forall {ok : ι → Prop} {s : σ} {as : List ι} (h : ∀ a ∈ as, ok a) :
    Along step (fun _ a => ok a) s as := by
  induction as generalizing s with
  | nil => trivial
  | cons a as ih => exact ⟨h a (by simp), fun m _ => ih fun b hb => h b (by simp [hb])⟩

/-- **Two conditions that agree wherever an invariant holds are admissible along the same runs.** -/
theorem along_congr (Inv : σ → Prop) {ok ok' : σ → ι → Prop}
    (hstep : ∀ s a s', Inv s → step s a = some s' → Inv s')
    {s : σ} {as : List ι} (hiff : ∀ s, ∀ a ∈ as, Inv s → (ok s a ↔ ok' s a)) (hs : Inv s) :
    Along step ok s as ↔ Along step ok' s as := by
  induction as generalizing s with
  | nil => exact Iff.rfl
  | cons a as ih =>
      have hrest : ∀ m, step s a = some m → (Along step ok m as ↔ Along step ok' m as) :=
        fun m hm => ih (fun s b hb => hiff s b (List.mem_cons_of_mem _ hb)) (hstep s a m hs hm)
      exact and_congr (hiff s a List.mem_cons_self hs) (forall₂_congr hrest)

theorem run_invariant_along (Inv : σ → Prop) (ok : σ → ι → Prop)
    (hstep : ∀ s a s', Inv s → ok s a → step s a = some s' → Inv s')
    {s s' : σ} {as : List ι} (hs : Inv s) (hok : Along step ok s as) (h : run step s as = some s') :
    Inv s' := by
  induction as generalizing s with
  | nil => rwa [← Option.some.inj h]
  | cons a as ih =>
      obtain ⟨m, hm, hrun⟩ := Option.bind_eq_some_iff.mp h
      exact ih (hstep s a m hs hok.1 hm) (hok.2 m hm) hrun

theorem run_invariant (Inv : σ → Prop) (ok : ι → Prop)
    (hstep : ∀ s a s', Inv s → ok a → step s a = some s' → Inv s')
    {s s' : σ} {as : List ι} (hs : Inv s) (hok : ∀ a ∈ as, ok a) (h : run step s as = some s') :
    Inv s' :=
  run_invariant_along Inv (fun _ a => ok a) hstep hs (along_of_forall hok) h

theorem run_total (Inv : σ → Prop) (ok : σ → ι → Prop)
    (hstep : ∀ s a, Inv s → ok s a → ∃ s', step s a = some s' ∧ Inv s')
    {s : σ} {as : List ι} (hs : Inv s) (hok : Along step ok s as) :
    ∃ s', run step s as = some s' ∧ Inv s' := by
  induction as generalizing s with
  | nil => exact ⟨s, rfl, hs⟩
  | cons a as ih =>
      obtain ⟨m, hm, hinv⟩ := hstep s a hs hok.1
      obtain ⟨s', hrun, hs'⟩ := ih hinv (hok.2 m hm)
      exact ⟨s', by rw [run_cons, hm]; exact hrun, hs'⟩

theorem run_simulates (R : σ → τ → Prop) (astep : τ → ι → τ)
    (hstep : ∀ s a s' x, R s x → step s a = some s' → R s' (astep x a))
    {s s' : σ} {x : τ} {as : List ι} (hs : R s x) (h : run step s as = some s') :
    R s' (as.foldl astep x) := by
  induction as generalizing s x with
  | nil => rwa [← Option.some.inj h]
  | cons a as ih =>
      obtain ⟨m, hm, hrun⟩ := Option.bind_eq_some_iff.mp h
      exact ih (hstep s a m x hs hm) hrun

theorem run_reaches (P Done : σ → Prop) (measure : σ → ℕ)
    {s : σ} {stream : ℕ → ι}
    (hstep : ∀ s n, P s → ¬ Done s →
      ∃ s', step s (stream n) = some s' ∧ P s' ∧ measure s' < measure s)
    (hs : P s) :
    ∃ n s', run step s ((List.range n).map stream) = some s' ∧ P s' ∧ Done s' := by
  induction hm : measure s using Nat.strong_induction_on generalizing s stream with
  | _ m ih =>
      by_cases hdone : Done s
      · exact ⟨0, s, rfl, hs, hdone⟩
      · obtain ⟨t, ht, hinv, hlt⟩ := hstep s 0 hs hdone
        have hlater : ∀ s n, P s → ¬ Done s → ∃ s', step s (stream (n + 1)) = some s' ∧ P s' ∧
            measure s' < measure s := fun s n => hstep s (n + 1)
        obtain ⟨n, s', hrun, hend⟩ := ih (measure t) (hm ▸ hlt) hlater hinv rfl
        refine ⟨n + 1, s', ?_, hend⟩
        rw [List.range_succ_eq_map, List.map_cons, List.map_map, run_cons, ht]
        exact hrun

/-! ### What is observed of a run -/

/-- Observations one after the other, if `R s r s'` says that `r` may be observed between two states. -/
def InTurn {ρ : Type*} (R : σ → ρ → σ → Prop) : σ → List ρ → σ → Prop
  | s, [], s' => s = s'
  | s, r :: rs, s' => ∃ m, R s r m ∧ InTurn R m rs s'

theorem InTurn.snoc {ρ : Type*} {R : σ → ρ → σ → Prop} {s m s' : σ} {rs : List ρ} {r : ρ}
    (h : InTurn R s rs m) (hr : R m r s') : InTurn R s (rs ++ [r]) s' := by
  induction rs generalizing s with
  | nil => exact ⟨s', h ▸ hr, rfl⟩
  | cons r' rs ih =>
      obtain ⟨t, ht, hrest⟩ := h
      exact ⟨t, ht, ih hrest⟩

end StepRuns
