import StructurePipe.Blocks.RemoveDuplicates
import StructurePipe.Lib.Representatives

/-!
# Removing duplicates in rounds

With `RemoveDuplicates` in a sub-pipe and again in the outer pipe, the structures that one run of the
sub-pipe has found different come into the outer block.  Both blocks write the one property
`TIMES_FOUND`, and an arrival sets it to one.

* `timesFound_of_notMem` — a block writes on structures that have come in, and on no others;
* `Counted.represents` — what a block holds are representatives of what came in;
* `nested_counts` — **the outer block holds one structure of every class, and its count is the number
  of runs the class was found in,** not the number of structures.
-/

namespace StructurePipe.Blocks

open Representatives
open scoped List

namespace RemoveDuplicates

variable {α : Type*} [DecidableEq α]

/-- One run of a sub-pipe that ends with a block `inner`, in front of a block `outer`. -/
def nestedRound (S S' : UniqueStructureSet α) (s : RemoveDuplicates α × RemoveDuplicates α)
    (xs : List α) : RemoveDuplicates α × RemoveDuplicates α :=
  let inner := xs.foldl (input S) { s.1 with timesFound := s.2.timesFound }
  let outer := inner.myStructureSet.foldl (input S') { s.2 with timesFound := inner.timesFound }
  (inner.release.2, outer)

/-! ### More arrivals -/

section Arrivals

variable {S : UniqueStructureSet α} {s₀ s : RemoveDuplicates α} {xs : List α} {matches_ : List (α × α)}

/-- Arrivals on top of earlier ones. -/
theorem Counted.append (h : Counted S s₀ xs s matches_) {ys : List α} (hnodup : (xs ++ ys).Nodup) :
    ∃ matches', Counted S s₀ (xs ++ ys) (ys.foldl (RemoveDuplicates.input S) s) matches' := by
  induction ys using List.reverseRecOn with
  | nil => exact ⟨matches_, by rwa [List.append_nil]⟩
  | append_singleton ys y ih =>
      rw [← List.append_assoc] at hnodup ⊢
      obtain ⟨hleft, _, hdisjoint⟩ := List.nodup_append.mp hnodup
      obtain ⟨matches', hcounted⟩ := ih hleft
      rw [List.foldl_append]
      exact hcounted.input fun hy => hdisjoint y hy y (by simp) rfl

omit [DecidableEq α] in
theorem drop_timesFound (s : RemoveDuplicates α) (held : List α) (x original : α) :
    ((s.hold held).drop x original).timesFound = s.timesFound := rfl

/-- **A block writes on structures that have come in**, and on no others. -/
theorem timesFound_of_notMem (h₀ : s.myStructureSet = []) (hxs : xs.Nodup) {y : α} (hy : y ∉ xs) :
    (xs.foldl (input S) s).timesFound y = s.timesFound y := by
  induction xs using List.reverseRecOn with
  | nil => rfl
  | append_singleton xs x ih =>
      obtain ⟨hnodup, _, _⟩ := List.nodup_append.mp hxs
      rw [List.mem_append, List.mem_singleton, not_or] at hy
      obtain ⟨matches_, hcounted⟩ := counted_inputs (S := S) h₀ hnodup
      rw [List.foldl_append, List.foldl_cons, List.foldl_nil, ← ih hnodup hy.1]
      by_cases hold : ∃ z ∈ (xs.foldl (input S) s).myStructureSet, S.areSimilar z x = true
      · obtain ⟨original, hheld, _, hinsert⟩ := S.insert_old _ x hold
        have hne : y ≠ original := fun heq => hy.1 (heq ▸ hcounted.mem_of_held hheld)
        cases hcount : (xs.foldl (input S) s).timesFound original with
        | none =>
            simp only [input, hinsert, drop_timesFound, hcount]
            exact Function.update_of_ne hne _ _
        | some n =>
            simp only [input, hinsert, drop_timesFound, hcount]
            exact Function.update_of_ne hne _ _
      · obtain ⟨held, hinsert, _⟩ := S.insert_new _ x (by simpa using hold)
        rw [input, hinsert]
        exact Function.update_of_ne hy.2 _ _

/-- Counts of structures that a block does not hold are no concern of it. -/
theorem Counted.of_timesFound (h : Counted S s₀ xs s matches_) {timesFound : α → Option UInt32}
    (hsame : ∀ x ∈ s.myStructureSet, timesFound x = s.timesFound x) :
    Counted S s₀ xs { s with timesFound := timesFound } matches_ where
  sent := h.sent
  dropped := h.dropped
  matched := h.matched
  perm := h.perm
  similar := h.similar
  distinct := h.distinct
  count x hx := (hsame x hx).trans (h.count x hx)

/-- **What a block holds are representatives** of what came in, if the comparator is an equivalence. -/
theorem Counted.represents (h : Counted S s₀ xs s matches_) (hxs : xs.Nodup)
    (hequiv : Equivalence fun y x => S.areSimilar y x = true) :
    Represents S.areSimilar s.myStructureSet xs where
  nodup := h.nodup_held hxs
  subset _ hy := h.mem_of_held hy
  covers x hx := by
    rcases List.mem_append.mp (h.perm.mem_iff.mpr hx) with hheld | hdropped
    · exact ⟨x, hheld, hequiv.refl x⟩
    · obtain ⟨p, hp, rfl⟩ := List.mem_map.mp hdropped
      exact ⟨p.2, h.similar p hp⟩
  single y hy z hz hyz := by
    by_contra hne
    have hsymm : Std.Symm fun y x => S.areSimilar y x = false := ⟨fun a b hab => by
      rw [Bool.eq_false_iff] at hab ⊢
      exact fun hba => hab (hequiv.symm hba)⟩
    have hmem : ∀ w ∈ s.myStructureSet, w ∈ xs.filter (· ∈ s.myStructureSet) := fun w hw =>
      List.mem_filter.mpr ⟨h.mem_of_held hw, decide_eq_true hw⟩
    have hdiff := h.distinct.forall (hmem y hy) (hmem z hz) hne
    exact absurd hyz (by simp [hdiff])

end Arrivals

/-! ### Rounds -/

section Rounds

variable (S S' : UniqueStructureSet α)

/-- After some rounds: what each of them has sent to the outer block, and what that has made of it. -/
structure Nested (inner₀ outer₀ : RemoveDuplicates α) (parts : List (List α × List α))
    (s : RemoveDuplicates α × RemoveDuplicates α) (matches_ : List (α × α)) : Prop where
  released : s.1.myStructureSet = []
  represent : ∀ part ∈ parts, Represents S.areSimilar part.1 part.2
  counted : Counted S' outer₀ (parts.map Prod.fst).flatten s.2 matches_
  dropped : ∃ drops, s.1.dropped = inner₀.dropped ++ drops ∧
    (parts.map Prod.fst).flatten ++ drops ~ (parts.map Prod.snd).flatten

variable {S S'} {inner₀ outer₀ : RemoveDuplicates α}

/-- **One round.** -/
theorem Nested.round (hequiv : Equivalence fun y x => S.areSimilar y x = true)
    {parts : List (List α × List α)} {s : RemoveDuplicates α × RemoveDuplicates α}
    {matches_ : List (α × α)} (h : Nested S S' inner₀ outer₀ parts s matches_) {xs : List α}
    (hnodup : ((parts.map Prod.snd).flatten ++ xs).Nodup) :
    ∃ reps matches', Nested S S' inner₀ outer₀ (parts ++ [(reps, xs)]) (nestedRound S S' s xs)
      matches' := by
  obtain ⟨hbefore, hxs, hdisjoint⟩ := List.nodup_append.mp hnodup
  let start : RemoveDuplicates α := { s.1 with timesFound := s.2.timesFound }
  have hstart : start.myStructureSet = [] := h.released
  obtain ⟨found, hfound⟩ := counted_inputs (S := S) hstart hxs
  have hreps := hfound.represents hxs hequiv
  obtain ⟨drops, hdrops, hperm⟩ := h.dropped
  -- what comes into the outer block is new there
  have hsub : ∀ y ∈ (parts.map Prod.fst).flatten, y ∈ (parts.map Prod.snd).flatten := fun y hy =>
    hperm.mem_iff.mp (List.mem_append_left _ hy)
  have hparts : (parts.map Prod.fst).flatten.Nodup :=
    (List.nodup_append.mp (hperm.nodup_iff.mpr hbefore)).1
  have hnew : ((parts.map Prod.fst).flatten ++ (xs.foldl (input S) start).myStructureSet).Nodup := by
    refine List.nodup_append.mpr ⟨hparts, hreps.nodup, fun y hy z hz => ?_⟩
    exact hdisjoint y (hsub y hy) z (hreps.subset z hz)
  have hkept : ∀ y ∈ s.2.myStructureSet,
      (xs.foldl (input S) start).timesFound y = s.2.timesFound y := by
    intro y hy
    have hmem := hsub y (h.counted.mem_of_held hy)
    exact timesFound_of_notMem hstart hxs fun hyx => hdisjoint y hmem y hyx rfl
  obtain ⟨matches', hcounted⟩ := (h.counted.of_timesFound hkept).append hnew
  refine ⟨(xs.foldl (input S) start).myStructureSet, matches', rfl, ?_, ?_, ?_⟩
  · rw [List.forall_mem_append]
    exact ⟨h.represent, List.forall_mem_singleton.mpr hreps⟩
  · rw [List.map_append, List.flatten_append, List.map_singleton, List.flatten_singleton]
    exact hcounted
  · refine ⟨drops ++ found.map Prod.fst, ?_, ?_⟩
    · show (xs.foldl (input S) start).dropped = _
      rw [hfound.dropped, ← List.append_assoc, ← hdrops]
    · rw [List.map_append, List.flatten_append, List.map_singleton, List.flatten_singleton,
        List.map_append, List.flatten_append, List.map_singleton, List.flatten_singleton]
      have hboth := hperm.append hfound.perm
      refine List.Perm.trans ?_ hboth
      classical
      rw [List.perm_iff_count]
      intro y
      simp only [List.count_append]
      omega

/-- **All rounds.** -/
theorem exists_nested (S' : UniqueStructureSet α)
    (hequiv : Equivalence fun y x => S.areSimilar y x = true)
    (hinner : inner₀.myStructureSet = []) (houter : outer₀.myStructureSet = [])
    {batches : List (List α)} (hnodup : batches.flatten.Nodup) :
    ∃ parts matches_, parts.map Prod.snd = batches ∧
      Nested S S' inner₀ outer₀ parts (batches.foldl (nestedRound S S') (inner₀, outer₀)) matches_ := by
  induction batches using List.reverseRecOn with
  | nil =>
      exact ⟨[], [], rfl, hinner, by simp, Counted.start houter, [], by simp, by simp⟩
  | append_singleton batches xs ih =>
      rw [List.flatten_append, List.flatten_singleton] at hnodup
      obtain ⟨parts, matches_, rfl, hnested⟩ := ih (List.nodup_append.mp hnodup).1
      obtain ⟨reps, matches', hround⟩ := hnested.round hequiv hnodup
      refine ⟨parts ++ [(reps, xs)], matches', by simp, ?_⟩
      rw [List.foldl_append]
      exact hround

end Rounds

/-- **Counting in rounds.**  A sub-pipe that ends with a `RemoveDuplicates` block is run any number of
times, each time with structures that are new, and what it sends out comes into another one.  Both
compare in the same way, by an equivalence.  Then the inner block holds nothing, every structure is
held by the outer block or has been dropped by one of the two, and the outer block holds exactly one
structure of every class that came in.  Its `TIMES_FOUND` is the number of runs in which the class was
found, modulo `2^32`: what the inner block had counted is gone. -/
theorem nested_counts (S S' : UniqueStructureSet α) (hsame : S'.areSimilar = S.areSimilar)
    (hequiv : Equivalence fun y x => S.areSimilar y x = true) (inner outer : RemoveDuplicates α)
    (hinner : inner.myStructureSet = []) (houter : outer.myStructureSet = [])
    (batches : List (List α)) (hnodup : batches.flatten.Nodup) :
    let s := batches.foldl (nestedRound S S') (inner, outer)
    s.1.myStructureSet = [] ∧ Represents S.areSimilar s.2.myStructureSet batches.flatten ∧
      (∃ drops drops', s.1.dropped = inner.dropped ++ drops ∧ s.2.dropped = outer.dropped ++ drops' ∧
        s.2.myStructureSet ++ drops' ++ drops ~ batches.flatten) ∧
      ∀ x ∈ s.2.myStructureSet, s.2.timesFound x
        = some (UInt32.ofNat (batches.countP fun xs => xs.any (S.areSimilar x))) := by
  intro s
  obtain ⟨parts, matches_, rfl, hnested⟩ := exists_nested S' hequiv hinner houter hnodup
  have hequiv' : Equivalence fun y x => S'.areSimilar y x = true := hsame ▸ hequiv
  obtain ⟨drops, hdrops, hperm⟩ := hnested.dropped
  have hsent : (parts.map Prod.fst).flatten.Nodup :=
    (List.nodup_append.mp (hperm.nodup_iff.mpr hnodup)).1
  have hreps := hnested.counted.represents hsent hequiv'
  rw [hsame] at hreps
  refine ⟨hnested.released, hreps.flatten hequiv hnested.represent, ?_, fun x hx => ?_⟩
  · refine ⟨drops, matches_.map Prod.fst, hdrops, hnested.counted.dropped, ?_⟩
    exact (hnested.counted.perm.append_right drops).trans hperm
  · rw [hnested.counted.count x hx, hnested.counted.class_size hsent hequiv' hx, hsame,
      countP_representatives hequiv hnested.represent]

/-- Even and odd numbers as the classes, in three runs: odd ones are found in two of them. -/
theorem nested_counts_at :
    let S := UniqueStructureSet.firstSimilar fun y x : ℕ => y % 2 == x % 2
    let s := [[4, 1, 2, 3], [6, 8], [5, 7, 10]].foldl (nestedRound S S)
      ({ timesFound := fun _ => none }, { timesFound := fun _ => none })
    s.2.myStructureSet = [4, 1] ∧ s.2.timesFound 4 = some 3 ∧ s.2.timesFound 1 = some 2 := by
  intro S s
  have hequiv : Equivalence fun y x => S.areSimilar y x = true := by
    refine ⟨fun x => beq_self_eq_true _, fun {x y} h => ?_, fun {x y z} hxy hyz => ?_⟩
    · exact beq_iff_eq.mpr (beq_iff_eq.mp h).symm
    · exact beq_iff_eq.mpr ((beq_iff_eq.mp hxy).trans (beq_iff_eq.mp hyz))
  obtain ⟨_, _, _, hcount⟩ := nested_counts S S rfl hequiv { timesFound := fun _ => none }
    { timesFound := fun _ => none } rfl rfl [[4, 1, 2, 3], [6, 8], [5, 7, 10]] (by decide)
  have hheld : s.2.myStructureSet = [4, 1] := by decide
  exact ⟨hheld, hcount 4 (by rw [hheld]; simp), hcount 1 (by rw [hheld]; simp)⟩

end RemoveDuplicates

end StructurePipe.Blocks
