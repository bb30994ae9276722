import StructurePipe.Blocks.Barrier
import Mathlib.Data.List.Sort
import Mathlib.Tactic

/-!
# Keeping the stable compositions

`KeepStableCompositions` collects structures until the engine asks for them, builds a convex hull over
all of them, sends out those on the hull and drops the others.  With fewer than two endpoints there is
no hull, and everything is sent out.  The hull built by `hasData` is kept for the `release` that
follows.

The convex hull comes from a library and is a parameter: how many endpoints a set of structures has,
and which structures are stable in the hull over it.

If there is a hull but no structure is stable in it, `hasData` answers no, so `release` is not called,
and the end of the pipeline clears the store.

* `releaseLoop_eq` — what the loop of `release` does;
* `drained_of_few`, `drained_of_stable`, `drained_of_unstable` — how the protocol can go;
* `loses_none_iff` — **exactly when every structure is sent out or dropped.**
-/

namespace StructurePipe.Blocks

open scoped List

/-- `spl::analysis::ConvexHullStructures`, as far as the block depends on it. -/
structure ConvexHull (α : Type*) where
  numEndpoints : List α → ℕ
  isStable : List α → α → Bool

/-- The set of structures in the order of their addresses, the structures over which the hull was
built, and everything sent out and dropped so far. -/
structure KeepStableCompositions (α : Type*) where
  myStructureStore : List α := []
  myConvexHullStructures : Option (List α) := none
  sent : List α := []
  dropped : List α := []
deriving DecidableEq, Repr

namespace ConvexHull

variable {α : Type*} (H : ConvexHull α)

def numStable (hull : List α) : ℕ := hull.countP (H.isStable hull)

end ConvexHull

namespace KeepStableCompositions

variable {α : Type*}

def setStore (s : KeepStableCompositions α) (store : List α) : KeepStableCompositions α :=
  { s with myStructureStore := store }

def setHull (s : KeepStableCompositions α) (hull : Option (List α)) : KeepStableCompositions α :=
  { s with myConvexHullStructures := hull }

def out (s : KeepStableCompositions α) (x : α) : KeepStableCompositions α :=
  { s with sent := s.sent ++ [x] }

def drop (s : KeepStableCompositions α) (x : α) : KeepStableCompositions α :=
  { s with dropped := s.dropped ++ [x] }

/-- `std::set::insert`. -/
def insertStore [LinearOrder α] (store : List α) (x : α) : List α :=
  if x ∈ store then store else store.orderedInsert (· ≤ ·) x

def input [LinearOrder α] (s : KeepStableCompositions α) (x : α) : KeepStableCompositions α :=
  (s.setStore (insertStore s.myStructureStore x)).setHull none

def pipelineFinishing (s : KeepStableCompositions α) : KeepStableCompositions α :=
  (s.setStore []).setHull none

variable (H : ConvexHull α)

/-- The loop of `release`: take the structures out of the store one by one. -/
def releaseLoop (hull : List α) :
    List α → KeepStableCompositions α → ℕ × KeepStableCompositions α
  | [], s => (0, s.setStore [])
  | x :: rest, s =>
      if H.isStable hull x then
        let (numStable, s) := releaseLoop hull rest (s.out x)
        (numStable + 1, s)
      else releaseLoop hull rest (s.drop x)

def release (s : KeepStableCompositions α) : ℕ × KeepStableCompositions α :=
  match s.myConvexHullStructures with
  | none =>
      (s.myStructureStore.length, (s.myStructureStore.foldl out s).setStore [])
  | some hull =>
      if H.numStable hull = 0 then (0, s) else releaseLoop H hull s.myStructureStore s

def hasData (s : KeepStableCompositions α) : Bool × KeepStableCompositions α :=
  if s.myStructureStore.isEmpty then (false, s)
  else if H.numEndpoints s.myStructureStore < 2 then (true, s)
  else (H.numStable s.myStructureStore != 0, s.setHull (some s.myStructureStore))

/-- The block as the engine sees it. -/
def barrier [LinearOrder α] : Barrier (KeepStableCompositions α) α where
  input s x := some (s.input x)
  release := release H
  hasData := hasData H
  sent := sent

/-! ### What a release does -/

/-- The structures `out` are sent out, the structures `drops` are dropped, nothing is left. -/
def sendOff (s : KeepStableCompositions α) (out drops : List α) : KeepStableCompositions α :=
  { s with myStructureStore := [], sent := s.sent ++ out, dropped := s.dropped ++ drops }

theorem releaseLoop_eq (hull store : List α) (s : KeepStableCompositions α) :
    releaseLoop H hull store s = (store.countP (H.isStable hull),
      s.sendOff (store.filter (H.isStable hull)) (store.filter fun x => !H.isStable hull x)) := by
  induction store generalizing s with
  | nil => simp [releaseLoop, sendOff, setStore]
  | cons x rest ih =>
      by_cases hx : H.isStable hull x
      · rw [releaseLoop, if_pos hx, ih]
        simp [hx, sendOff, out]
      · rw [releaseLoop, if_neg hx, ih]
        simp [hx, sendOff, drop]

theorem foldl_out (store : List α) (s : KeepStableCompositions α) :
    store.foldl out s = { s with sent := s.sent ++ store } := by
  induction store generalizing s with
  | nil => simp
  | cons x rest ih =>
      rw [List.foldl_cons, ih]
      simp [out]

theorem release_of_none {s : KeepStableCompositions α} (h : s.myConvexHullStructures = none) :
    release H s = (s.myStructureStore.length, s.sendOff s.myStructureStore []) := by
  rw [release, h, foldl_out]
  simp [setStore, sendOff]

theorem release_of_some {s : KeepStableCompositions α} {hull : List α}
    (h : s.myConvexHullStructures = some hull) (hstable : H.numStable hull ≠ 0) :
    release H s = (s.myStructureStore.countP (H.isStable hull),
      s.sendOff (s.myStructureStore.filter (H.isStable hull))
        (s.myStructureStore.filter fun x => !H.isStable hull x)) := by
  rw [release, h]
  show (if H.numStable hull = 0 then _ else _) = _
  rw [if_neg hstable, releaseLoop_eq]

theorem hasData_of_nil {s : KeepStableCompositions α} (h : s.myStructureStore = []) :
    hasData H s = (false, s) := by
  rw [hasData, h]
  rfl

theorem hasData_of_few {s : KeepStableCompositions α} (hne : s.myStructureStore ≠ [])
    (h : H.numEndpoints s.myStructureStore < 2) : hasData H s = (true, s) := by
  rw [hasData, if_neg (by simpa using hne), if_pos h]

theorem hasData_of_hull {s : KeepStableCompositions α} (hne : s.myStructureStore ≠ [])
    (h : 2 ≤ H.numEndpoints s.myStructureStore) :
    hasData H s
      = (H.numStable s.myStructureStore != 0, s.setHull (some s.myStructureStore)) := by
  rw [hasData, if_neg (by simpa using hne), if_neg (by omega)]

/-! ### The store -/

section Protocol

variable [LinearOrder α]

/-- The structures that have come in, as the store holds them. -/
def storeOf (xs : List α) : List α := xs.foldl insertStore []

theorem insertStore_perm {store : List α} {x : α} (h : x ∉ store) :
    insertStore store x ~ x :: store := by
  rw [insertStore, if_neg h]
  exact List.perm_orderedInsert _ x store

theorem storeOf_perm {xs : List α} (h : xs.Nodup) : storeOf xs ~ xs := by
  induction xs using List.reverseRecOn with
  | nil => exact List.Perm.refl _
  | append_singleton xs x ih =>
      obtain ⟨hnodup, _, hdisjoint⟩ := List.nodup_append.mp h
      have hperm := ih hnodup
      have hx : x ∉ storeOf xs := fun hmem =>
        hdisjoint x (hperm.mem_iff.mp hmem) x (by simp) rfl
      rw [storeOf, List.foldl_append]
      calc insertStore (storeOf xs) x ~ x :: storeOf xs := insertStore_perm hx
        _ ~ x :: xs := hperm.cons x
        _ ~ xs ++ [x] := (List.perm_append_singleton x xs).symm

theorem foldl_input (s₀ : KeepStableCompositions α) (xs : List α) :
    (xs.foldl input s₀).myStructureStore = xs.foldl insertStore s₀.myStructureStore ∧
      (xs.foldl input s₀).sent = s₀.sent ∧ (xs.foldl input s₀).dropped = s₀.dropped ∧
      (xs ≠ [] → (xs.foldl input s₀).myConvexHullStructures = none) := by
  induction xs using List.reverseRecOn with
  | nil => exact ⟨rfl, rfl, rfl, fun h => absurd rfl h⟩
  | append_singleton xs x ih =>
      obtain ⟨hstore, hsent, hdropped, _⟩ := ih
      simp only [List.foldl_append, List.foldl_cons, List.foldl_nil]
      refine ⟨?_, hsent, hdropped, fun _ => rfl⟩
      rw [← hstore]
      rfl

/-! ### The protocol -/

/-- Nothing is held: the answer is no. -/
theorem drained_of_nil {s : KeepStableCompositions α} (h : s.myStructureStore = []) :
    (barrier H).Drained s s := by
  have hask : (barrier H).hasData s = (false, s) := hasData_of_nil H h
  have hstop := Barrier.Drained.stop (B := barrier H) (s := s) (by rw [hask])
  rwa [hask] at hstop

/-- With a hull in which nothing is stable the answer is no, and the store stays as it is. -/
theorem drained_of_unstable {s : KeepStableCompositions α} (hne : s.myStructureStore ≠ [])
    (hhull : 2 ≤ H.numEndpoints s.myStructureStore) (hstable : H.numStable s.myStructureStore = 0) :
    (barrier H).Drained s (s.setHull (some s.myStructureStore)) := by
  have hask : (barrier H).hasData s = (false, s.setHull (some s.myStructureStore)) := by
    show hasData H s = _
    rw [hasData_of_hull H hne hhull, hstable]
    rfl
  have hstop := Barrier.Drained.stop (B := barrier H) (s := s) (by rw [hask])
  rwa [hask] at hstop

/-- After a positive answer and one release nothing is left. -/
theorem drained_of_released {s s₁ : KeepStableCompositions α} {out drops : List α}
    (hask : hasData H s = (true, s₁)) (hrelease : (release H s₁).2 = s₁.sendOff out drops) :
    (barrier H).Drained s (s₁.sendOff out drops) := by
  refine Barrier.Drained.release (by show (hasData H s).1 = true; rw [hask]) ?_
  show (barrier H).Drained (release H (hasData H s).2).2 _
  rw [hask, hrelease]
  exact drained_of_nil H rfl

/-- Without a hull everything is sent out. -/
theorem drained_of_few {s : KeepStableCompositions α} (hne : s.myStructureStore ≠ [])
    (hfew : H.numEndpoints s.myStructureStore < 2) (hhull : s.myConvexHullStructures = none) :
    (barrier H).Drained s (s.sendOff s.myStructureStore []) :=
  drained_of_released H (hasData_of_few H hne hfew) (congrArg Prod.snd (release_of_none H hhull))

/-- With a hull in which something is stable, that is sent out and the rest dropped. -/
theorem drained_of_stable {s : KeepStableCompositions α} (hne : s.myStructureStore ≠ [])
    (hhull : 2 ≤ H.numEndpoints s.myStructureStore) (hstable : H.numStable s.myStructureStore ≠ 0) :
    (barrier H).Drained s ((s.setHull (some s.myStructureStore)).sendOff
      (s.myStructureStore.filter (H.isStable s.myStructureStore))
      (s.myStructureStore.filter fun x => !H.isStable s.myStructureStore x)) := by
  have hask : hasData H s = (true, s.setHull (some s.myStructureStore)) := by
    rw [hasData_of_hull H hne hhull]
    simp [hstable]
  exact drained_of_released H hask (congrArg Prod.snd (release_of_some H rfl hstable))

/-- Every structure that came in is sent out or dropped, once; with a hull the stable ones are sent
out, without one all are. -/
def LosesNone (s₀ s : KeepStableCompositions α) (xs : List α) : Prop :=
  ∃ out drops, s.sent = s₀.sent ++ out ∧ s.dropped = s₀.dropped ++ drops ∧ out ++ drops ~ xs ∧
    (2 ≤ H.numEndpoints (storeOf xs) → out ~ xs.filter (H.isStable (storeOf xs))) ∧
    (H.numEndpoints (storeOf xs) < 2 → out ~ xs)

theorem LosesNone.of_sendOff {s₀ s : KeepStableCompositions α} {xs out drops : List α}
    (hsent : s.sent = s₀.sent) (hdropped : s.dropped = s₀.dropped) (hperm : out ++ drops ~ xs)
    (hhull : 2 ≤ H.numEndpoints (storeOf xs) → out ~ xs.filter (H.isStable (storeOf xs)))
    (hnohull : H.numEndpoints (storeOf xs) < 2 → out ~ xs) :
    LosesNone H s₀ (s.sendOff out drops).pipelineFinishing xs := by
  refine ⟨out, drops, ?_, ?_, hperm, hhull, hnohull⟩
  · show s.sent ++ out = _
    rw [hsent]
  · show s.dropped ++ drops = _
    rw [hdropped]

/-- If nothing was sent out and nothing dropped, nothing may have come in. -/
theorem LosesNone.eq_nil {s₀ s : KeepStableCompositions α} {xs : List α}
    (h : LosesNone H s₀ s xs) (hsent : s.sent = s₀.sent) (hdropped : s.dropped = s₀.dropped) :
    xs = [] := by
  obtain ⟨out, drops, hout, hdrops, hall, _, _⟩ := h
  have hout' : out = [] := List.append_right_eq_self.mp (hout.symm.trans hsent)
  have hdrops' : drops = [] := List.append_right_eq_self.mp (hdrops.symm.trans hdropped)
  rw [hout', hdrops'] at hall
  exact List.nil_perm.mp hall

/-- **When no structure is lost.**  A block that holds nothing takes in different structures, the
engine drains it and the pipeline finishes.  There is exactly one way this can go, and every structure
has then been sent out or dropped once, as it should, if and only if nothing came in, or there were
fewer than two endpoints, or some structure was stable. -/
theorem loses_none_iff (s₀ : KeepStableCompositions α) (h₀ : s₀.myStructureStore = [])
    (xs : List α) (hxs : xs.Nodup) :
    ∃ s, (barrier H).Drained (xs.foldl input s₀) s ∧
      (∀ s', (barrier H).Drained (xs.foldl input s₀) s' → s' = s) ∧
      (LosesNone H s₀ s.pipelineFinishing xs ↔ xs = [] ∨ H.numEndpoints (storeOf xs) < 2 ∨
        ∃ x ∈ xs, H.isStable (storeOf xs) x = true) := by
  have hperm := storeOf_perm hxs
  obtain ⟨hstore, hsent, hdropped, hhull⟩ := foldl_input s₀ xs
  rw [h₀] at hstore
  replace hstore : (xs.foldl input s₀).myStructureStore = storeOf xs := hstore
  suffices hdrained : ∃ s, (barrier H).Drained (xs.foldl input s₀) s ∧
      (LosesNone H s₀ s.pipelineFinishing xs ↔ xs = [] ∨ H.numEndpoints (storeOf xs) < 2 ∨
        ∃ x ∈ xs, H.isStable (storeOf xs) x = true) by
    obtain ⟨s, hs, hiff⟩ := hdrained
    exact ⟨s, hs, fun s' hs' => hs'.unique hs, hiff⟩
  by_cases hnil : xs = []
  · subst hnil
    refine ⟨s₀, drained_of_nil H h₀, ⟨fun _ => Or.inl rfl, fun _ => ⟨[], [], ?_, ?_, ?_⟩⟩⟩
    · rw [List.append_nil]; rfl
    · rw [List.append_nil]; rfl
    · simp
  · have hne : storeOf xs ≠ [] := fun hempty => hnil (List.nil_perm.mp (hempty ▸ hperm))
    generalize xs.foldl input s₀ = s at hstore hsent hdropped hhull ⊢
    rw [← hstore] at hne
    rcases Nat.lt_or_ge (H.numEndpoints (storeOf xs)) 2 with hfew | hmany
    · refine ⟨_, drained_of_few H hne (by rw [hstore]; exact hfew) (hhull hnil),
        ⟨fun _ => Or.inr (Or.inl hfew), fun _ => ?_⟩⟩
      refine LosesNone.of_sendOff H hsent hdropped ?_ (fun h => absurd h (by omega)) fun _ => ?_
      · rw [List.append_nil, hstore]; exact hperm
      · rw [hstore]; exact hperm
    · have hhull2 : 2 ≤ H.numEndpoints s.myStructureStore := by rw [hstore]; exact hmany
      by_cases hstable : H.numStable s.myStructureStore = 0
      · refine ⟨_, drained_of_unstable H hne hhull2 hstable, ?_⟩
        rw [hstore, ConvexHull.numStable, List.countP_eq_zero] at hstable
        constructor
        · intro h
          exact absurd (h.eq_nil H hsent hdropped) hnil
        · rintro (hempty | hfew | ⟨x, hx, hxstable⟩)
          · exact absurd hempty hnil
          · exact absurd hfew (by omega)
          · exact absurd hxstable (hstable x (hperm.mem_iff.mpr hx))
      · refine ⟨_, drained_of_stable H hne hhull2 hstable, ⟨fun _ => Or.inr (Or.inr ?_), fun _ => ?_⟩⟩
        · rw [hstore, ConvexHull.numStable, ← Ne, ← Nat.pos_iff_ne_zero, List.countP_pos_iff] at hstable
          obtain ⟨x, hx, hxstable⟩ := hstable
          exact ⟨x, hperm.mem_iff.mp hx, hxstable⟩
        · rw [hstore]
          exact LosesNone.of_sendOff H hsent hdropped ((List.filter_append_perm _ _).trans hperm)
            (fun _ => hperm.filter _) fun h => absurd h (by omega)

/-- Three structures, one of them stable: it is sent out and the others are dropped. -/
theorem loses_none_iff_at :
    let H : ConvexHull ℕ := ⟨fun _ => 2, fun _ x => x == 2⟩
    ∃ s, (barrier H).Drained ([3, 2, 1].foldl input {}) s ∧ LosesNone H {} s.pipelineFinishing [3, 2, 1] := by
  intro H
  obtain ⟨s, hs, _, hiff⟩ := loses_none_iff H {} rfl [3, 2, 1] (by decide)
  exact ⟨s, hs, hiff.mpr (Or.inr (Or.inr ⟨2, by decide, rfl⟩))⟩

end Protocol

/-- **Without a stable structure everything is lost.**  Two structures with two endpoints, none of
them stable: the engine is told that there is nothing to release, and the end of the pipeline forgets
them. -/
theorem loses_unstable :
    let H : ConvexHull ℕ := ⟨fun _ => 2, fun _ _ => false⟩
    ∀ s, (barrier H).Drained ([1, 2].foldl input {}) s →
      s.pipelineFinishing.sent = [] ∧ s.pipelineFinishing.dropped = [] ∧
        ¬ LosesNone H {} s.pipelineFinishing [1, 2] := by
  intro H s hs
  obtain rfl := hs.unique (drained_of_unstable H (by decide) (by decide) (by decide))
  exact ⟨rfl, rfl, fun h => absurd (h.eq_nil H rfl rfl) (by decide)⟩

end KeepStableCompositions

end StructurePipe.Blocks
