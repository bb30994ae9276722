import StructurePipe.Blocks.RankingBarrier

/-!
# Keeping the best structures

`KeepTopN` selects online: every structure is inserted among those of its composition, and if they
are one too many the last one is dropped.  The result is that of sorting all arrivals stably and
cutting once.

* `orderOf_keepTopN` — **online selection is sort and cut**, for one composition;
* `keepTopN_keeps_best` — what a block sends out and drops over a whole run.
-/

namespace StructurePipe.Blocks

open StableMultimap StepRuns
open scoped List

variable {κ π : Type*}

namespace KeepTopN

/-- The rule of `keep`: insert, and drop the last if there are too many. -/
def keepIn (myKeepTopN : ℕ) (order : StructureOrder κ π) (e : Entry κ π) :
    StructureOrder κ π × List (Entry κ π) :=
  let order := StableMultimap.insert e order
  if myKeepTopN < order.length then (order.dropLast, order.getLast?.toList) else (order, [])

end KeepTopN

/-- The block.  By default it ranks by the enthalpy per atom. -/
def keepTopN (myKeepTopN : ℕ) (property : π) (usePerAtom : Bool) (reduce : κ → κ) :
    RankingBarrier κ π where
  myStructureProperty := property
  myUsePerAtom := usePerAtom
  reduce := reduce
  keepIn order e := some (KeepTopN.keepIn myKeepTopN order e)

namespace KeepTopN

theorem keepIn_fst {n : ℕ} {order : StructureOrder κ π} (h : order.length ≤ n) (e : Entry κ π) :
    (keepIn n order e).1 = (StableMultimap.insert e order).take n := by
  have hlen := length_insert e order
  simp only [keepIn]
  split
  · next hlt =>
      show (StableMultimap.insert e order).dropLast = _
      rw [List.dropLast_eq_take, show (StableMultimap.insert e order).length - 1 = n by omega]
  · next hge => rw [List.take_of_length_le (by omega)]

theorem keepIn_perm (n : ℕ) (order : StructureOrder κ π) (e : Entry κ π) :
    (keepIn n order e).1 ++ (keepIn n order e).2 ~ e :: order := by
  refine List.Perm.trans ?_ (perm_insert e order)
  simp only [keepIn]
  split
  · have hne := insert_ne_nil e order
    show (StableMultimap.insert e order).dropLast
      ++ (StableMultimap.insert e order).getLast?.toList ~ _
    rw [List.getLast?_eq_some_getLast hne, Option.toList_some, List.dropLast_concat_getLast hne]
  · show StableMultimap.insert e order ++ [] ~ _
    rw [List.append_nil]

theorem conserves (n : ℕ) (property : π) (usePerAtom : Bool) (reduce : κ → κ) :
    (keepTopN n property usePerAtom reduce).Conserves := by
  intro o e o' drops h
  have hkeep : keepIn n o e = (o', drops) := Option.some.inj h
  have hperm := keepIn_perm n o e
  rwa [hkeep] at hperm

end KeepTopN

section OneComposition

variable (n : ℕ) (property : π) (usePerAtom : Bool) (reduce : κ → κ)

/-- **Online selection is sort and cut.** -/
theorem orderOf_keepTopN (es : List (Entry κ π)) :
    (keepTopN n property usePerAtom reduce).orderOf es = some ((es.insertionSort keyLE).take n) := by
  rw [← foldl_insert]
  induction es using List.reverseRecOn with
  | nil => simp [RankingBarrier.orderOf]
  | append_singleton es e ih =>
      have hlen : ((es.foldl (fun m e => StableMultimap.insert e m) []).take n).length ≤ n :=
        List.length_take_le _ _
      rw [RankingBarrier.orderOf_concat, ih, Option.bind_some, List.foldl_append]
      show some (KeepTopN.keepIn n _ e).1 = _
      rw [KeepTopN.keepIn_fst hlen, take_insert_take]
      rfl

end OneComposition

variable [LinearOrder κ] [DecidableEq π]

/-- **The best of every composition.**  A block that holds nothing takes in the structures `xs`, in
this order, and is then released.  Structures without the property are sent out at once.  Of every
reduced composition the first `n` arrivals by value, earlier ones first among equals, are sent out in
that order; every other arrival is dropped, and no structure is sent or dropped twice.  The count is
the number released, and the block holds nothing again.  In any other order of arrival the released
values are the same. -/
theorem keepTopN_keeps_best (n : ℕ) (property : π) (usePerAtom : Bool) (reduce : κ → κ)
    (s₀ : BarrierState κ π) (h₀ : s₀.myStructures = []) (xs : List (Structure κ π)) :
    let B := keepTopN n property usePerAtom reduce
    ∃ s, run B.step s₀ (xs.map BarrierOp.input) = some s ∧
      s.sent = s₀.sent ++ xs.filter (fun x => (B.localValue x).isNone) ∧
      s.release.1 = s.held.length ∧ s.release.2.sent = s.sent ++ s.held ∧
      s.release.2.myStructures = [] ∧
      (∀ c, s.held.filter (fun x => reduce x.composition = c)
        = (((B.arrivals c xs).insertionSort keyLE).take n).map Prod.snd) ∧
      (∃ drops, s.release.2.dropped = s₀.dropped ++ drops ∧
        xs.filter (fun x => (B.localValue x).isNone) ++ s.held ++ drops ~ xs) ∧
      ∀ ys, ys ~ xs → ∃ s', run B.step s₀ (ys.map BarrierOp.input) = some s' ∧
        s'.held.map B.localValue ~ s.held.map B.localValue := by
  intro B
  have htotal : ∀ o e, ∃ r, B.keepIn o e = some r := fun o e => ⟨_, rfl⟩
  have hconserve : B.Conserves := KeepTopN.conserves n property usePerAtom reduce
  -- what is held of one composition, for any order of arrival
  have hbest : ∀ {ys : List (Structure κ π)} {s : BarrierState κ π},
      run B.step s₀ (ys.map BarrierOp.input) = some s → ∀ c,
        s.order c = ((B.arrivals c ys).insertionSort keyLE).take n := by
    intro ys s hrun c
    have horder := RankingBarrier.run_order h₀ hrun c
    rw [RankingBarrier.received_inputs, orderOf_keepTopN] at horder
    exact (Option.some.inj horder).symm
  obtain ⟨s, hrun⟩ := RankingBarrier.run_isSome htotal s₀ (xs.map BarrierOp.input)
  obtain ⟨hfiled, hperm⟩ :=
    RankingBarrier.conserves_run hconserve (RankingBarrier.Filed.of_empty h₀) hrun
  have hsent := RankingBarrier.sent_inputs hrun
  refine ⟨s, hrun, hsent, s.release_fst, rfl, rfl, fun c => ?_, ?_, fun ys hys => ?_⟩
  · rw [← hbest hrun c]
    exact hfiled.held_filter c
  · obtain ⟨drops, hdrops⟩ := RankingBarrier.dropped_prefix hrun
    refine ⟨drops, hdrops.symm, ?_⟩
    have hheld₀ : s₀.held = [] := by rw [BarrierState.held, h₀]; rfl
    rw [hsent, ← hdrops, RankingBarrier.inputs_map_input, hheld₀, List.append_nil] at hperm
    classical
    rw [List.perm_iff_count] at hperm ⊢
    intro a
    have hcount := hperm a
    simp only [List.count_append] at hcount ⊢
    omega
  · obtain ⟨s', hrun'⟩ := RankingBarrier.run_isSome htotal s₀ (ys.map BarrierOp.input)
    obtain ⟨hfiled', _⟩ :=
      RankingBarrier.conserves_run hconserve (RankingBarrier.Filed.of_empty h₀) hrun'
    refine ⟨s', hrun', OrderedMap.perm_map_of_filter (fun x => B.reduce x.composition) _ fun c => ?_⟩
    have hkeys := keys_insertionSort (hys.filterMap (B.arrival c))
    rw [hfiled'.map_localValue, hfiled.map_localValue, hbest hrun', hbest hrun]
    simp only [List.map_take, RankingBarrier.arrivals, hkeys, List.Perm.refl]

/-- Four structures of one composition, of which two have the same value, and one without the
property: the two best are released, the earlier of the equals being one of them. -/
theorem keepTopN_keeps_best_at :
    ∃ s, run (keepTopN 2 () false (id : ℕ → ℕ)).step {} (List.map BarrierOp.input
        [⟨1, 1, [((), 5)]⟩, ⟨1, 2, [((), 3)]⟩, ⟨1, 3, []⟩, ⟨1, 4, [((), 3)]⟩, ⟨1, 5, [((), 2)]⟩])
          = some s ∧
      s.held = [⟨1, 5, [((), 2)]⟩, ⟨1, 2, [((), 3)]⟩] ∧ s.release.1 = s.held.length := by
  obtain ⟨s, hrun, _, hcount, _⟩ := keepTopN_keeps_best 2 () false (id : ℕ → ℕ) {} rfl
    [⟨1, 1, [((), 5)]⟩, ⟨1, 2, [((), 3)]⟩, ⟨1, 3, []⟩, ⟨1, 4, [((), 3)]⟩, ⟨1, 5, [((), 2)]⟩]
  have hheld : (run (keepTopN 2 () false (id : ℕ → ℕ)).step {} (List.map BarrierOp.input
      [⟨1, 1, [((), 5)]⟩, ⟨1, 2, [((), 3)]⟩, ⟨1, 3, []⟩, ⟨1, 4, [((), 3)]⟩,
        ⟨1, 5, [((), 2)]⟩])).map BarrierState.held
      = some [⟨1, 5, [((), 2)]⟩, ⟨1, 2, [((), 3)]⟩] := by
    decide
  rw [hrun] at hheld
  exact ⟨s, hrun, Option.some.inj hheld, hcount⟩

end StructurePipe.Blocks
