import StructurePipe.Lib.OrderedMap
import StructurePipe.Lib.StableMultimap
import StructurePipe.Lib.StepRuns

/-!
# Barriers that rank structures

`KeepTopN` and `KeepWithinXPercent` are the same block with a different rule: structures without the
property pass, the others are ranked by their value against those of the same reduced composition,
some are dropped, and `release` sends out what is left.  `RankingBarrier` is that block with the rule
as a field; a rule gives `none` where the code runs into undefined behaviour.

`AtomsFormula::reduce` and the order of formulas come from a library and are parameters.  Values are
exact numbers.  A structure without atoms is not ranked per atom in any meaningful way: the code
divides by zero there and the model does not follow it.

* `run_order` — **the structures held of one composition depend on the arrivals of that composition
  only:** they are what the rule makes of these, one after the other;
* `conserves_run` — every structure that came in is sent, dropped or held, exactly once;
* `held_filter`, `mem_held` — what is held, composition by composition.
-/

namespace StructurePipe.Blocks

open StableMultimap StepRuns
open scoped List

/-- What the blocks read of a `spl::common::Structure`. -/
structure Structure (κ π : Type*) where
  composition : κ
  numAtoms : ℕ
  properties : List (π × ℚ)
deriving DecidableEq, Repr

/-- A structure with the value it is ranked by. -/
abbrev Entry (κ π : Type*) := ℚ × Structure κ π

/-- `std::multimap<double, Structure *>`. -/
abbrev StructureOrder (κ π : Type*) := Multimap ℚ (Structure κ π)

/-- The settings of a block and its rule: what it makes of the structures held of one composition
when another one comes in, and which entries it drops. -/
structure RankingBarrier (κ π : Type*) where
  myStructureProperty : π
  myUsePerAtom : Bool
  reduce : κ → κ
  keepIn : StructureOrder κ π → Entry κ π → Option (StructureOrder κ π × List (Entry κ π))

/-- The structures held by composition, and everything sent out and dropped so far. -/
structure BarrierState (κ π : Type*) where
  myStructures : List (κ × StructureOrder κ π) := []
  sent : List (Structure κ π) := []
  dropped : List (Structure κ π) := []
deriving DecidableEq, Repr

/-- A call from the pipeline. -/
inductive BarrierOp (κ π : Type*) where
  | input (structure_ : Structure κ π)
  | release
deriving DecidableEq, Repr

namespace BarrierState

variable {κ π : Type*}

/-- The structures of all compositions, in the order of a traversal. -/
def held (s : BarrierState κ π) : List (Structure κ π) :=
  s.myStructures.flatMap fun e => e.2.map Prod.snd

def out (s : BarrierState κ π) (x : Structure κ π) : BarrierState κ π :=
  { s with sent := s.sent ++ [x] }

/-- `release`: the number of structures sent out, and the state after it. -/
def release (s : BarrierState κ π) : ℕ × BarrierState κ π :=
  ((s.myStructures.map fun e => e.2.length).sum,
    { s with myStructures := [], sent := s.sent ++ s.held })

def hasData (s : BarrierState κ π) : Bool := !s.myStructures.isEmpty

theorem release_fst (s : BarrierState κ π) : s.release.1 = s.held.length := by
  rw [release, held, List.length_flatMap]
  simp

variable [LinearOrder κ]

/-- `myStructures[composition]`: an entry that is not there yet is empty. -/
def order (s : BarrierState κ π) (composition : κ) : StructureOrder κ π :=
  (OrderedMap.find composition s.myStructures).getD []

/-- Store what the rule made of one composition, and drop what it dropped. -/
def store (s : BarrierState κ π) (composition : κ) (o : StructureOrder κ π)
    (drops : List (Entry κ π)) : BarrierState κ π :=
  { s with
    myStructures := OrderedMap.set composition o s.myStructures
    dropped := s.dropped ++ drops.map Prod.snd }

@[simp] theorem order_store_self (s : BarrierState κ π) (c : κ) (o : StructureOrder κ π)
    (drops : List (Entry κ π)) : (s.store c o drops).order c = o := by
  simp [order, store]

theorem order_store_of_ne (s : BarrierState κ π) {c c' : κ} (h : c' ≠ c) (o : StructureOrder κ π)
    (drops : List (Entry κ π)) : (s.store c o drops).order c' = s.order c' := by
  simp [order, store, OrderedMap.find_set_of_ne h]

end BarrierState

namespace RankingBarrier

variable {κ π : Type*} (B : RankingBarrier κ π)

/-- What the rule makes of the arrivals of one composition, one after the other. -/
def orderOf (es : List (Entry κ π)) : Option (StructureOrder κ π) :=
  es.foldlM (fun o e => (B.keepIn o e).map Prod.fst) []

theorem orderOf_concat (es : List (Entry κ π)) (e : Entry κ π) :
    B.orderOf (es ++ [e]) = (B.orderOf es).bind fun o => (B.keepIn o e).map Prod.fst := by
  rw [orderOf, List.foldlM_append, orderOf]
  simp [List.foldlM]

/-- A rule that neither loses nor invents an entry. -/
def Conserves : Prop := ∀ o e o' drops, B.keepIn o e = some (o', drops) →
  o' ++ drops ~ e :: o

variable {B} in
/-- What is held of a composition is among its arrivals. -/
theorem mem_of_orderOf (hB : B.Conserves) {es : List (Entry κ π)} {o : StructureOrder κ π}
    (h : B.orderOf es = some o) {a : Entry κ π} (ha : a ∈ o) : a ∈ es := by
  induction es using List.reverseRecOn generalizing o with
  | nil =>
      obtain rfl := Option.some.inj h
      exact ha
  | append_singleton es e ih =>
      rw [orderOf_concat] at h
      obtain ⟨o₁, ho₁, hmap⟩ := Option.bind_eq_some_iff.mp h
      obtain ⟨⟨o', drops⟩, hkeep, rfl⟩ := Option.map_eq_some_iff.mp hmap
      rcases List.mem_cons.mp ((hB _ _ _ _ hkeep).mem_iff.mp (List.mem_append_left drops ha)) with
        rfl | ha
      · simp
      · exact List.mem_append_left _ (ih ho₁ ha)

variable [LinearOrder κ] [DecidableEq π]

/-- The value a structure is ranked by, if it has the property. -/
def localValue (x : Structure κ π) : Option ℚ :=
  (x.properties.lookup B.myStructureProperty).map fun value =>
    if B.myUsePerAtom then value / x.numAtoms else value

def keep (s : BarrierState κ π) (x : Structure κ π) (energy : ℚ) : Option (BarrierState κ π) :=
  (B.keepIn (s.order (B.reduce x.composition)) (energy, x)).map fun (o, drops) =>
    s.store (B.reduce x.composition) o drops

/-- `in`: structures without the property go straight through. -/
def input (s : BarrierState κ π) (x : Structure κ π) : Option (BarrierState κ π) :=
  match B.localValue x with
  | none => some (s.out x)
  | some value => B.keep s x value

def step (s : BarrierState κ π) : BarrierOp κ π → Option (BarrierState κ π)
  | .input x => B.input s x
  | .release => some s.release.2

/-- A structure with the property goes to the rule. -/
theorem step_input_of_value {s : BarrierState κ π} {x : Structure κ π} {value : ℚ}
    (h : B.localValue x = some value) :
    B.step s (.input x) = (B.keepIn (s.order (B.reduce x.composition)) (value, x)).map fun r =>
      s.store (B.reduce x.composition) r.1 r.2 := by
  rw [step, input, h]
  rfl

/-- A structure without the property goes straight through. -/
theorem step_input_of_none {s : BarrierState κ π} {x : Structure κ π}
    (h : B.localValue x = none) : B.step s (.input x) = some (s.out x) := by
  rw [step, input, h]

variable {B} in
/-- **What `in` can do:** send the structure out, or store what the rule makes of it. -/
theorem input_cases {s s' : BarrierState κ π} {x : Structure κ π} (h : B.input s x = some s') :
    (B.localValue x = none ∧ s' = s.out x) ∨
      ∃ value o drops, B.localValue x = some value ∧
        B.keepIn (s.order (B.reduce x.composition)) (value, x) = some (o, drops) ∧
        s' = s.store (B.reduce x.composition) o drops := by
  have hstep : B.step s (.input x) = some s' := h
  cases hv : B.localValue x with
  | none =>
      rw [B.step_input_of_none hv] at hstep
      exact Or.inl ⟨rfl, (Option.some.inj hstep).symm⟩
  | some value =>
      rw [B.step_input_of_value hv] at hstep
      obtain ⟨⟨o, drops⟩, hkeep, rfl⟩ := Option.map_eq_some_iff.mp hstep
      exact Or.inr ⟨value, o, drops, rfl, hkeep, rfl⟩

/-! ### One composition at a time -/

/-- The entry of a structure among those of a composition. -/
def arrival (c : κ) (x : Structure κ π) : Option (Entry κ π) :=
  if B.reduce x.composition = c then (B.localValue x).map fun value => (value, x) else none

variable {B} in
theorem arrival_of_none {c : κ} {x : Structure κ π} (h : B.localValue x = none) :
    B.arrival c x = none := by
  simp [arrival, h]

variable {B} in
theorem arrival_of_ne {c : κ} {x : Structure κ π} (h : B.reduce x.composition ≠ c) :
    B.arrival c x = none := by
  simp [arrival, h]

variable {B} in
theorem arrival_self {x : Structure κ π} {value : ℚ} (h : B.localValue x = some value) :
    B.arrival (B.reduce x.composition) x = some (value, x) := by
  simp [arrival, h]

/-- The arrivals of a composition, in order. -/
def arrivals (c : κ) (xs : List (Structure κ π)) : List (Entry κ π) := xs.filterMap (B.arrival c)

/-- The arrivals since the last release, after one more call. -/
def receive (c : κ) (es : List (Entry κ π)) : BarrierOp κ π → List (Entry κ π)
  | .input x => es ++ (B.arrival c x).toList
  | .release => []

/-- The arrivals of a composition since the last release. -/
def received (c : κ) (ops : List (BarrierOp κ π)) : List (Entry κ π) :=
  ops.foldl (B.receive c) []

theorem received_concat (c : κ) (ops : List (BarrierOp κ π)) (op : BarrierOp κ π) :
    B.received c (ops ++ [op]) = B.receive c (B.received c ops) op := by
  rw [received, List.foldl_append]
  rfl

theorem received_inputs (c : κ) (xs : List (Structure κ π)) :
    B.received c (xs.map BarrierOp.input) = B.arrivals c xs := by
  induction xs using List.reverseRecOn with
  | nil => rfl
  | append_singleton xs x ih =>
      rw [List.map_append, received, List.foldl_append, ← received, ih, arrivals, arrivals,
        List.filterMap_append]
      simp [receive, List.filterMap_cons]
      cases B.arrival c x <;> rfl

variable {B}

theorem order_input {s s' : BarrierState κ π} {x : Structure κ π} {c : κ} {es : List (Entry κ π)}
    (hs : B.orderOf es = some (s.order c)) (h : B.input s x = some s') :
    B.orderOf (es ++ (B.arrival c x).toList) = some (s'.order c) := by
  rcases input_cases h with ⟨hv, rfl⟩ | ⟨value, o, drops, hv, hkeep, rfl⟩
  · rw [arrival_of_none hv, Option.toList_none, List.append_nil, hs]
    rfl
  · by_cases hc : B.reduce x.composition = c
    · subst hc
      rw [arrival_self hv, Option.toList_some, orderOf_concat, hs, Option.bind_some, hkeep,
        Option.map_some, BarrierState.order_store_self]
    · rw [arrival_of_ne hc, Option.toList_none, List.append_nil, hs,
        BarrierState.order_store_of_ne _ (Ne.symm hc)]

/-- **Compositions do not interfere.**  At any time the structures held of a composition are what the
rule makes of its arrivals since the last release. -/
theorem run_order {s₀ s : BarrierState κ π} (h₀ : s₀.myStructures = [])
    {ops : List (BarrierOp κ π)} (h : run B.step s₀ ops = some s) (c : κ) :
    B.orderOf (B.received c ops) = some (s.order c) := by
  have hstart : B.orderOf [] = some (s₀.order c) := by
    rw [BarrierState.order, h₀]
    rfl
  refine run_simulates (fun s es => B.orderOf es = some (s.order c)) (B.receive c) ?_ hstart h
  intro s op s' es hs hop
  cases op with
  | input x => exact order_input hs hop
  | release =>
      obtain rfl := Option.some.inj hop
      rfl

/-! ### Every structure is accounted for -/

variable (B)

/-- What is held is filed under the reduced composition, with its value. -/
structure Filed (s : BarrierState κ π) : Prop where
  ordered : OrderedMap.Ordered s.myStructures
  entries : ∀ e ∈ s.myStructures, ∀ a ∈ e.2,
    B.reduce a.2.composition = e.1 ∧ B.localValue a.2 = some a.1

variable {B}

theorem Filed.of_empty {s : BarrierState κ π} (h : s.myStructures = []) : B.Filed s :=
  ⟨h ▸ List.Pairwise.nil, by simp [h]⟩

theorem Filed.mem_order {s : BarrierState κ π} (h : B.Filed s) {c : κ} {a : Entry κ π}
    (ha : a ∈ s.order c) : B.reduce a.2.composition = c ∧ B.localValue a.2 = some a.1 := by
  rw [BarrierState.order] at ha
  cases hfind : OrderedMap.find c s.myStructures with
  | none => simp [hfind] at ha
  | some o =>
      rw [hfind, Option.getD_some] at ha
      exact h.entries _ (OrderedMap.mem_of_find hfind) a ha

/-- **The structures held of one composition** are those filed under it. -/
theorem Filed.held_filter {s : BarrierState κ π} (h : B.Filed s) (c : κ) :
    s.held.filter (fun x => B.reduce x.composition = c) = (s.order c).map Prod.snd := by
  have hkey : ∀ e ∈ s.myStructures, ∀ x ∈ e.2.map Prod.snd, B.reduce x.composition = e.1 := by
    intro e he x hx
    obtain ⟨a, ha, rfl⟩ := List.mem_map.mp hx
    exact (h.entries e he a ha).1
  calc s.held.filter (fun x => B.reduce x.composition = c)
      = ((OrderedMap.find c s.myStructures).map fun o => o.map Prod.snd).getD [] :=
        h.ordered.filter_flatMap (fun o : StructureOrder κ π => o.map Prod.snd)
          (fun x => B.reduce x.composition) hkey c
    _ = (s.order c).map Prod.snd := by
        rw [BarrierState.order]
        cases OrderedMap.find c s.myStructures <;> rfl

theorem Filed.mem_held {s : BarrierState κ π} (h : B.Filed s) (x : Structure κ π) :
    x ∈ s.held ↔ ∃ value, (value, x) ∈ s.order (B.reduce x.composition) := by
  have hmem : x ∈ s.held ↔
      x ∈ s.held.filter (fun y => B.reduce y.composition = B.reduce x.composition) := by
    simp [List.mem_filter]
  rw [hmem, h.held_filter, List.mem_map]
  constructor
  · rintro ⟨⟨value, y⟩, hy, rfl⟩
    exact ⟨value, hy⟩
  · rintro ⟨value, hx⟩
    exact ⟨_, hx, rfl⟩

/-- **One structure comes in.** -/
theorem Filed.input {s s' : BarrierState κ π} (h : B.Filed s) (hB : B.Conserves)
    {x : Structure κ π} (hx : B.input s x = some s') :
    B.Filed s' ∧
      s'.sent ++ s'.dropped ++ s'.held ~ x :: (s.sent ++ s.dropped ++ s.held) := by
  rcases input_cases hx with ⟨hv, rfl⟩ | ⟨value, o, drops, hv, hkeep, rfl⟩
  · refine ⟨⟨h.ordered, h.entries⟩, ?_⟩
    show s.sent ++ [x] ++ s.dropped ++ s.held ~ _
    simp only [List.append_assoc]
    exact List.perm_middle
  · have hconserve := hB _ _ _ _ hkeep
    refine ⟨⟨h.ordered.set _ _, ?_⟩, ?_⟩
    · intro e he a ha
      rcases OrderedMap.mem_set he with rfl | he
      · have hmem := hconserve.mem_iff.mp (List.mem_append_left drops ha)
        rcases List.mem_cons.mp hmem with rfl | hmem
        · exact ⟨rfl, hv⟩
        · exact h.mem_order hmem
      · exact h.entries e he a ha
    · obtain ⟨rest, hold, hnew⟩ := h.ordered.perm_flatMap_set
        (fun o : StructureOrder κ π => o.map Prod.snd) (B.reduce x.composition)
      have hold' : s.held ~ (s.order (B.reduce x.composition)).map Prod.snd ++ rest := by
        rw [BarrierState.order]
        cases hfind : OrderedMap.find (B.reduce x.composition) s.myStructures <;>
          simpa [hfind, BarrierState.held] using hold
      have hmap : o.map Prod.snd ++ drops.map Prod.snd ~
          x :: (s.order (B.reduce x.composition)).map Prod.snd := by
        simpa using hconserve.map Prod.snd
      calc s.sent ++ (s.dropped ++ drops.map Prod.snd)
            ++ (s.store (B.reduce x.composition) o drops).held
          ~ s.sent ++ (s.dropped ++ drops.map Prod.snd) ++ (o.map Prod.snd ++ rest) :=
            (hnew o).append_left _
        _ ~ s.sent ++ s.dropped ++ ((o.map Prod.snd ++ drops.map Prod.snd) ++ rest) := by
            simp only [List.append_assoc]
            exact ((List.perm_append_comm_assoc _ _ _).append_left _).append_left _
        _ ~ s.sent ++ s.dropped ++
              (x :: (s.order (B.reduce x.composition)).map Prod.snd ++ rest) :=
            (hmap.append_right rest).append_left _
        _ ~ x :: (s.sent ++ s.dropped ++
              ((s.order (B.reduce x.composition)).map Prod.snd ++ rest)) := by
            rw [List.cons_append]
            exact List.perm_middle
        _ ~ x :: (s.sent ++ s.dropped ++ s.held) := (hold'.symm.append_left _).cons x

/-- The structures a call brings in. -/
def inputs : List (BarrierOp κ π) → List (Structure κ π)
  | [] => []
  | .input x :: ops => x :: inputs ops
  | .release :: ops => inputs ops

omit [LinearOrder κ] [DecidableEq π] in
@[simp] theorem inputs_map_input (xs : List (Structure κ π)) :
    inputs (xs.map BarrierOp.input) = xs := by
  induction xs with
  | nil => rfl
  | cons x xs ih => rw [List.map_cons, inputs, ih]

/-- **Every structure that came in is sent, dropped or held, exactly once.** -/
theorem conserves_run (hB : B.Conserves) {s s' : BarrierState κ π} (hs : B.Filed s)
    {ops : List (BarrierOp κ π)} (h : run B.step s ops = some s') :
    B.Filed s' ∧
      s'.sent ++ s'.dropped ++ s'.held ~ inputs ops ++ (s.sent ++ s.dropped ++ s.held) := by
  induction ops generalizing s with
  | nil =>
      obtain rfl := Option.some.inj h
      exact ⟨hs, List.Perm.refl _⟩
  | cons op ops ih =>
      obtain ⟨m, hm, hrun⟩ := Option.bind_eq_some_iff.mp h
      cases op with
      | input x =>
          obtain ⟨hfiled, hperm⟩ := hs.input hB hm
          obtain ⟨hfiled', hperm'⟩ := ih hfiled hrun
          exact ⟨hfiled', hperm'.trans ((hperm.append_left _).trans List.perm_middle)⟩
      | release =>
          obtain rfl := Option.some.inj hm
          obtain ⟨hfiled', hperm'⟩ := ih (Filed.of_empty rfl) hrun
          refine ⟨hfiled', hperm'.trans (List.Perm.append_left _ ?_)⟩
          show s.sent ++ s.held ++ s.dropped ++ [] ~ s.sent ++ s.dropped ++ s.held
          rw [List.append_nil, List.append_assoc, List.append_assoc]
          exact List.perm_append_comm.append_left _

/-- Before a release only the structures without the property are sent, at once and in order. -/
theorem sent_inputs {s s' : BarrierState κ π} {xs : List (Structure κ π)}
    (h : run B.step s (xs.map BarrierOp.input) = some s') :
    s'.sent = s.sent ++ xs.filter fun x => (B.localValue x).isNone := by
  induction xs generalizing s with
  | nil =>
      obtain rfl := Option.some.inj h
      simp
  | cons x xs ih =>
      obtain ⟨m, hm, hrun⟩ := Option.bind_eq_some_iff.mp h
      rw [ih hrun]
      rcases input_cases hm with ⟨hv, rfl⟩ | ⟨value, o, drops, hv, _, rfl⟩
      · simp [hv, BarrierState.out]
      · simp [hv, BarrierState.store]

/-- Nothing is taken back from what was dropped. -/
theorem dropped_prefix {s s' : BarrierState κ π} {ops : List (BarrierOp κ π)}
    (h : run B.step s ops = some s') : s.dropped <+: s'.dropped := by
  refine run_invariant (fun t => s.dropped <+: t.dropped) (fun _ => True) ?_ List.prefix_rfl
    (fun _ _ => trivial) h
  intro t op t' ht _ hop
  cases op with
  | input x =>
      rcases input_cases hop with ⟨_, rfl⟩ | ⟨value, o, drops, _, _, rfl⟩
      · exact ht
      · exact ht.trans (List.prefix_append _ _)
  | release =>
      obtain rfl := Option.some.inj hop
      exact ht

/-- The values of the structures held of one composition are the keys they are filed under. -/
theorem Filed.map_localValue {s : BarrierState κ π} (h : B.Filed s) (c : κ) :
    (s.held.filter fun x => B.reduce x.composition = c).map B.localValue
      = ((s.order c).map Prod.fst).map some := by
  rw [h.held_filter, List.map_map, List.map_map]
  exact List.map_congr_left fun a ha => (h.mem_order ha).2

/-- A rule that never fails gives a block that never fails. -/
theorem run_isSome (hB : ∀ o e, ∃ r, B.keepIn o e = some r) (s : BarrierState κ π)
    (ops : List (BarrierOp κ π)) : ∃ s', run B.step s ops = some s' := by
  induction ops generalizing s with
  | nil => exact ⟨s, rfl⟩
  | cons op ops ih =>
      obtain ⟨m, hm⟩ : ∃ m, B.step s op = some m := by
        cases op with
        | input x =>
            rw [step, input]
            cases hv : B.localValue x with
            | none => exact ⟨_, rfl⟩
            | some value =>
                obtain ⟨r, hr⟩ := hB (s.order (B.reduce x.composition)) (value, x)
                exact ⟨_, by simp only [keep, hr, Option.map_some]; rfl⟩
        | release => exact ⟨_, rfl⟩
      obtain ⟨s', hs'⟩ := ih m
      exact ⟨s', by rw [run_cons, hm]; exact hs'⟩

end RankingBarrier

end StructurePipe.Blocks
