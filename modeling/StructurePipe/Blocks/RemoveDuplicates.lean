import StructurePipe.Blocks.Barrier
import Mathlib.Data.List.Perm.Basic
import Mathlib.Tactic

/-!
# Removing duplicates

`RemoveDuplicates` holds one structure of every kind it has seen and counts, in the property
`TIMES_FOUND` of the one it holds, how often the kind came in.  The count is an `unsigned int` and
wraps around.

The set of structures comes from a library.  `UniqueStructureSet` states what is relied on: a
structure is added if and only if no structure held is similar to it, and otherwise the answer points
to one that is.  The comparator behind it is any relation.

* `Counted.input` — what one arrival does;
* `removeDuplicates_counts` — **every structure is held or dropped, and counted once.**
-/

namespace StructurePipe.Blocks

open scoped List

/-- `spl::utility::UniqueStructureSet` with its comparator: `insert` answers with the structure that
is in the set for the new one, and whether it is the new one. -/
structure UniqueStructureSet (α : Type*) where
  areSimilar : α → α → Bool
  insert : List α → α → (α × Bool) × List α
  insert_new : ∀ held x, (∀ y ∈ held, areSimilar y x = false) →
    ∃ held', insert held x = ((x, true), held') ∧ held' ~ x :: held
  insert_old : ∀ held x, (∃ y ∈ held, areSimilar y x = true) →
    ∃ y ∈ held, areSimilar y x = true ∧ insert held x = ((y, false), held)

/-- The structures held, the property `TIMES_FOUND` of every structure that has it, and everything
sent out and dropped so far.  For the statements about it, every dropped structure is listed with the
one it was matched to. -/
structure RemoveDuplicates (α : Type*) where
  myStructureSet : List α := []
  timesFound : α → Option UInt32
  sent : List α := []
  dropped : List α := []
  matched : List (α × α) := []

namespace UniqueStructureSet

variable {α : Type*}

/-- The set that keeps the structures in the order of arrival and points to the first similar one. -/
def firstSimilar (areSimilar : α → α → Bool) : UniqueStructureSet α where
  areSimilar := areSimilar
  insert held x :=
    match held.find? fun y => areSimilar y x with
    | some y => ((y, false), held)
    | none => ((x, true), held ++ [x])
  insert_new := by
    intro held x h
    have hnone : held.find? (fun y => areSimilar y x) = none := by simpa using h
    exact ⟨held ++ [x], by rw [hnone], List.perm_append_singleton x held⟩
  insert_old := by
    intro held x h
    cases hfind : held.find? fun y => areSimilar y x with
    | none =>
        obtain ⟨y, hy, hsimilar⟩ := h
        exact absurd hsimilar (by simpa using List.find?_eq_none.mp hfind y hy)
    | some y => exact ⟨y, List.mem_of_find?_eq_some hfind,
        by simpa using List.find?_some hfind, rfl⟩

end UniqueStructureSet

namespace RemoveDuplicates

variable {α : Type*} [DecidableEq α] (S : UniqueStructureSet α)

def setTimesFound (s : RemoveDuplicates α) (x : α) (n : UInt32) : RemoveDuplicates α :=
  { s with timesFound := Function.update s.timesFound x (some n) }

def hold (s : RemoveDuplicates α) (held : List α) : RemoveDuplicates α :=
  { s with myStructureSet := held }

/-- Drop a structure that was matched to another one. -/
def drop (s : RemoveDuplicates α) (x original : α) : RemoveDuplicates α :=
  { s with dropped := s.dropped ++ [x], matched := s.matched ++ [(x, original)] }

def input (s : RemoveDuplicates α) (x : α) : RemoveDuplicates α :=
  match S.insert s.myStructureSet x with
  | ((_, true), held) => (s.hold held).setTimesFound x 1
  | ((original, false), held) =>
      let s := (s.hold held).drop x original
      -- up the counter on the original structure
      match s.timesFound original with
      | some n => s.setTimesFound original (n + 1)
      | none => s.setTimesFound original 1

def pipelineFinishing (s : RemoveDuplicates α) : RemoveDuplicates α := s.hold []

def release (s : RemoveDuplicates α) : ℕ × RemoveDuplicates α :=
  (s.myStructureSet.length, { s with sent := s.sent ++ s.myStructureSet, myStructureSet := [] })

def hasData (s : RemoveDuplicates α) : Bool := !s.myStructureSet.isEmpty

/-- The block as the engine sees it. -/
def barrier : Barrier (RemoveDuplicates α) α where
  input s x := some (input S s x)
  release := release
  hasData s := (s.hasData, s)
  sent := sent

/-! ### Counting -/

/-- The values of `TIMES_FOUND` of some structures, added up. -/
def totalFound (s : RemoveDuplicates α) (xs : List α) : ℕ :=
  (xs.map fun x => ((s.timesFound x).getD 0).toNat).sum

/-- How often a structure is named as the original. -/
def timesMatched (matches_ : List (α × α)) (x : α) : ℕ := matches_.countP fun p => p.2 = x

/-- What a block that held nothing in the state `s₀` has made of the arrivals `xs`, of which those in
`matches_` were dropped. -/
structure Counted (s₀ : RemoveDuplicates α) (xs : List α) (s : RemoveDuplicates α)
    (matches_ : List (α × α)) : Prop where
  sent : s.sent = s₀.sent
  dropped : s.dropped = s₀.dropped ++ matches_.map Prod.fst
  matched : s.matched = s₀.matched ++ matches_
  perm : s.myStructureSet ++ matches_.map Prod.fst ~ xs
  similar : ∀ p ∈ matches_, p.2 ∈ s.myStructureSet ∧ S.areSimilar p.2 p.1 = true
  distinct : (xs.filter (· ∈ s.myStructureSet)).Pairwise fun y x => S.areSimilar y x = false
  count : ∀ x ∈ s.myStructureSet,
    s.timesFound x = some (UInt32.ofNat (1 + timesMatched matches_ x))

theorem timesMatched_concat (matches_ : List (α × α)) (p : α × α) (x : α) :
    timesMatched (matches_ ++ [p]) x = timesMatched matches_ x + if p.2 = x then 1 else 0 := by
  rw [timesMatched, List.countP_append, timesMatched]
  by_cases h : p.2 = x <;> simp [h]

theorem sum_indicator (l : List α) (a : α) :
    (l.map fun x => if a = x then 1 else 0).sum = l.count a := by
  induction l with
  | nil => rfl
  | cons x l ih =>
      rw [List.map_cons, List.sum_cons, ih, List.count_cons, Nat.add_comm]
      by_cases h : a = x
      · simp [h]
      · simp [h, Ne.symm h]

/-- **Every dropped structure is counted once**, with the one it was matched to. -/
theorem sum_timesMatched {held : List α} (hnodup : held.Nodup) {matches_ : List (α × α)}
    (h : ∀ p ∈ matches_, p.2 ∈ held) :
    (held.map fun x => 1 + timesMatched matches_ x).sum = held.length + matches_.length := by
  induction matches_ using List.reverseRecOn with
  | nil => simp [timesMatched]
  | append_singleton matches_ p ih =>
      have hone : (held.map fun x => if p.2 = x then 1 else 0).sum = 1 := by
        rw [sum_indicator, hnodup.count, if_pos (h p (by simp))]
      have hrest := ih fun q hq => h q (by simp [hq])
      have hsplit : (held.map fun x => 1 + timesMatched (matches_ ++ [p]) x).sum
          = (held.map fun x => 1 + timesMatched matches_ x).sum
            + (held.map fun x => if p.2 = x then 1 else 0).sum := by
        rw [← List.sum_map_add]
        simp only [timesMatched_concat, Nat.add_assoc]
      rw [hsplit, hrest, hone, List.length_append, List.length_singleton, Nat.add_assoc]

variable {S}

theorem Counted.start {s₀ : RemoveDuplicates α} (h₀ : s₀.myStructureSet = []) :
    Counted S s₀ [] s₀ [] := by
  refine ⟨rfl, by simp, by simp, by simp [h₀], by simp, List.Pairwise.nil, by simp [h₀]⟩

theorem Counted.mem_of_held {s₀ s : RemoveDuplicates α} {xs : List α} {matches_ : List (α × α)}
    (h : Counted S s₀ xs s matches_) {y : α} (hy : y ∈ s.myStructureSet) : y ∈ xs :=
  h.perm.mem_iff.mp (List.mem_append_left _ hy)

/-- A structure that is similar to none held is added with a count of one. -/
theorem Counted.input_new {s₀ s : RemoveDuplicates α} {xs : List α} {matches_ : List (α × α)}
    (h : Counted S s₀ xs s matches_) {x : α} (hx : x ∉ xs)
    (hnew : ∀ y ∈ s.myStructureSet, S.areSimilar y x = false) :
    Counted S s₀ (xs ++ [x]) (input S s x) matches_ := by
  obtain ⟨held, hinsert, hperm⟩ := S.insert_new s.myStructureSet x hnew
  have heq : input S s x = (s.hold held).setTimesFound x 1 := by rw [input, hinsert]
  have hmem : ∀ y, y ∈ held ↔ y = x ∨ y ∈ s.myStructureSet := by
    intro y
    rw [hperm.mem_iff, List.mem_cons]
  have hnever : timesMatched matches_ x = 0 := by
    rw [timesMatched, List.countP_eq_zero]
    intro p hp hpx
    have hheld := h.mem_of_held (h.similar p hp).1
    rw [of_decide_eq_true hpx] at hheld
    exact hx hheld
  have hfilter : xs.filter (· ∈ held) = xs.filter (· ∈ s.myStructureSet) := by
    refine List.filter_congr fun y hy => ?_
    have hne : y ≠ x := fun heq => hx (heq ▸ hy)
    simp [hmem, hne]
  rw [heq]
  refine ⟨h.sent, h.dropped, h.matched, ?_, ?_, ?_, ?_⟩
  · show held ++ matches_.map Prod.fst ~ xs ++ [x]
    calc held ++ matches_.map Prod.fst
        ~ x :: (s.myStructureSet ++ matches_.map Prod.fst) := hperm.append_right _
      _ ~ x :: xs := h.perm.cons x
      _ ~ xs ++ [x] := (List.perm_append_singleton x xs).symm
  · intro p hp
    obtain ⟨hheld, hsimilar⟩ := h.similar p hp
    exact ⟨(hmem p.2).mpr (Or.inr hheld), hsimilar⟩
  · show ((xs ++ [x]).filter (· ∈ held)).Pairwise _
    rw [List.filter_append, hfilter, List.pairwise_append]
    refine ⟨h.distinct, by simp [hmem], fun y hy z hz => ?_⟩
    obtain rfl : z = x := List.mem_singleton.mp (List.mem_filter.mp hz).1
    exact hnew y (of_decide_eq_true (List.mem_filter.mp hy).2)
  · intro y hy
    show Function.update s.timesFound x (some 1) y = _
    by_cases hyx : y = x
    · subst hyx
      rw [Function.update_self, hnever]
      rfl
    · rw [Function.update_of_ne hyx]
      exact h.count y (((hmem y).mp hy).resolve_left hyx)

/-- A structure that is similar to one held is dropped, and one held is counted once more. -/
theorem Counted.input_old {s₀ s : RemoveDuplicates α} {xs : List α} {matches_ : List (α × α)}
    (h : Counted S s₀ xs s matches_) {x : α} (hx : x ∉ xs)
    (hold : ∃ y ∈ s.myStructureSet, S.areSimilar y x = true) :
    ∃ original, Counted S s₀ (xs ++ [x]) (input S s x) (matches_ ++ [(x, original)]) := by
  obtain ⟨original, hheld, hsimilar, hinsert⟩ := S.insert_old s.myStructureSet x hold
  have hcount := h.count original hheld
  have heq : input S s x = ((s.hold s.myStructureSet).drop x original).setTimesFound original
      (UInt32.ofNat (1 + timesMatched matches_ original) + 1) := by
    rw [input, hinsert]
    show (match s.timesFound original with | some n => _ | none => _) = _
    rw [hcount]
  have hfilter : [x].filter (· ∈ s.myStructureSet) = [] := by
    have hnot : x ∉ s.myStructureSet := fun hmem => hx (h.mem_of_held hmem)
    simp [hnot]
  refine ⟨original, ?_⟩
  rw [heq]
  refine ⟨h.sent, ?_, ?_, ?_, ?_, ?_, ?_⟩
  · show s.dropped ++ [x] = _
    rw [h.dropped, List.map_append, List.append_assoc]
    rfl
  · show s.matched ++ [(x, original)] = _
    rw [h.matched, List.append_assoc]
  · show s.myStructureSet ++ (matches_ ++ [(x, original)]).map Prod.fst ~ xs ++ [x]
    rw [List.map_append, ← List.append_assoc]
    exact h.perm.append_right [x]
  · intro p hp
    rcases List.mem_append.mp hp with hp | hp
    · exact h.similar p hp
    · obtain rfl := List.mem_singleton.mp hp
      exact ⟨hheld, hsimilar⟩
  · show ((xs ++ [x]).filter (· ∈ s.myStructureSet)).Pairwise _
    rw [List.filter_append, hfilter, List.append_nil]
    exact h.distinct
  · intro y hy
    show Function.update s.timesFound original _ y = _
    rw [timesMatched_concat]
    by_cases hyo : y = original
    · subst hyo
      rw [Function.update_self, if_pos rfl, ← Nat.add_assoc, UInt32.ofNat_add (_ + _)]
      rfl
    · rw [Function.update_of_ne hyo, h.count y hy, if_neg (Ne.symm hyo), Nat.add_zero]

/-- **One arrival.** -/
theorem Counted.input {s₀ s : RemoveDuplicates α} {xs : List α} {matches_ : List (α × α)}
    (h : Counted S s₀ xs s matches_) {x : α} (hx : x ∉ xs) :
    ∃ matches', Counted S s₀ (xs ++ [x]) (RemoveDuplicates.input S s x) matches' := by
  by_cases hold : ∃ y ∈ s.myStructureSet, S.areSimilar y x = true
  · obtain ⟨original, hcounted⟩ := h.input_old hx hold
    exact ⟨_, hcounted⟩
  · exact ⟨_, h.input_new hx (by simpa using hold)⟩

/-- **All arrivals.** -/
theorem counted_inputs {s₀ : RemoveDuplicates α} (h₀ : s₀.myStructureSet = []) {xs : List α}
    (hxs : xs.Nodup) : ∃ matches_, Counted S s₀ xs (xs.foldl (input S) s₀) matches_ := by
  induction xs using List.reverseRecOn with
  | nil => exact ⟨[], Counted.start h₀⟩
  | append_singleton xs x ih =>
      obtain ⟨hnodup, _, hdisjoint⟩ := List.nodup_append.mp hxs
      obtain ⟨matches_, hcounted⟩ := ih hnodup
      rw [List.foldl_append]
      exact hcounted.input fun hx => hdisjoint x hx x (by simp) rfl

theorem Counted.nodup_held {s₀ s : RemoveDuplicates α} {xs : List α} {matches_ : List (α × α)}
    (h : Counted S s₀ xs s matches_) (hxs : xs.Nodup) : s.myStructureSet.Nodup :=
  (List.nodup_append.mp (h.perm.nodup_iff.mpr hxs)).1

/-- The counts of the structures held, added up on numbers that do not wrap around, are the number of
arrivals. -/
theorem Counted.sum_counts {s₀ s : RemoveDuplicates α} {xs : List α} {matches_ : List (α × α)}
    (h : Counted S s₀ xs s matches_) (hxs : xs.Nodup) :
    (s.myStructureSet.map fun x => 1 + timesMatched matches_ x).sum = xs.length := by
  have hlength := h.perm.length_eq
  rw [List.length_append, List.length_map] at hlength
  rw [sum_timesMatched (h.nodup_held hxs) fun p hp => (h.similar p hp).1, hlength]

/-- **If the comparator is an equivalence, the count is the size of the class.** -/
theorem Counted.class_size {s₀ s : RemoveDuplicates α} {xs : List α} {matches_ : List (α × α)}
    (h : Counted S s₀ xs s matches_) (hxs : xs.Nodup)
    (hequiv : Equivalence fun y x => S.areSimilar y x = true) {x : α}
    (hx : x ∈ s.myStructureSet) : 1 + timesMatched matches_ x = xs.countP (S.areSimilar x) := by
  have hnodup : s.myStructureSet.Nodup := h.nodup_held hxs
  -- two structures held that are similar are the same
  have hsame : ∀ y ∈ s.myStructureSet, S.areSimilar x y = true → y = x := by
    intro y hy hsimilar
    by_contra hne
    have hmem : ∀ z ∈ s.myStructureSet, z ∈ xs.filter (· ∈ s.myStructureSet) := fun z hz =>
      List.mem_filter.mpr ⟨h.mem_of_held hz, decide_eq_true hz⟩
    have hsymm : Std.Symm fun y x => S.areSimilar y x = false := ⟨fun a b hab => by
      rw [Bool.eq_false_iff] at hab ⊢
      exact fun hba => hab (hequiv.symm hba)⟩
    have hdiff := h.distinct.forall (hmem y hy) (hmem x hx) hne
    exact absurd (hequiv.symm hsimilar) (by simp [hdiff])
  have hheld : s.myStructureSet.countP (S.areSimilar x) = 1 := by
    have hiff : ∀ y ∈ s.myStructureSet, (S.areSimilar x y = true ↔ (y == x) = true) := by
      intro y hy
      rw [beq_iff_eq]
      exact ⟨hsame y hy, fun heq => heq ▸ hequiv.refl _⟩
    rw [List.countP_congr hiff]
    exact (hnodup.count (a := x)).trans (if_pos hx)
  have hdropped : (matches_.map Prod.fst).countP (S.areSimilar x) = timesMatched matches_ x := by
    rw [List.countP_map, timesMatched]
    refine List.countP_congr fun p hp => ?_
    obtain ⟨hpheld, hpsimilar⟩ := h.similar p hp
    show S.areSimilar x p.1 = true ↔ decide (p.2 = x) = true
    rw [decide_eq_true_iff]
    constructor
    · intro hxp
      exact hsame p.2 hpheld (hequiv.trans hxp (hequiv.symm hpsimilar))
    · intro hpx
      rwa [← hpx]
  rw [← h.perm.countP_eq, List.countP_append, hheld, hdropped]

/-- **Every structure is held or dropped, and counted once.**  A block that holds nothing, as after a
release, takes in different structures in any order.  Each of them is then held or dropped, and the
dropped ones are those matched to one that is held; no two that are held were similar when the later
one came in.  `TIMES_FOUND` of a structure held is one plus the number of those matched to it,
modulo `2^32`, whatever it was on arrival, so the counts that a release sends out add up to the
number of arrivals modulo `2^32`, and exactly if there were fewer.  Nothing is held after a release or
at the end of the pipeline.  If the comparator is an equivalence, the count is the size of the
class. -/
theorem removeDuplicates_counts (S : UniqueStructureSet α) (s₀ : RemoveDuplicates α)
    (h₀ : s₀.myStructureSet = []) (xs : List α) (hxs : xs.Nodup) :
    let s := xs.foldl (input S) s₀
    ∃ matches_, s.matched = s₀.matched ++ matches_ ∧
      s.dropped = s₀.dropped ++ matches_.map Prod.fst ∧
      s.myStructureSet ++ matches_.map Prod.fst ~ xs ∧
      (∀ p ∈ matches_, p.2 ∈ s.myStructureSet ∧ S.areSimilar p.2 p.1 = true) ∧
      (xs.filter (· ∈ s.myStructureSet)).Pairwise (fun y x => S.areSimilar y x = false) ∧
      (∀ x ∈ s.myStructureSet,
        s.timesFound x = some (UInt32.ofNat (1 + timesMatched matches_ x))) ∧
      s.release.2.sent = s₀.sent ++ s.myStructureSet ∧
      totalFound s.release.2 s.myStructureSet % 2 ^ 32 = xs.length % 2 ^ 32 ∧
      (xs.length < 2 ^ 32 → totalFound s.release.2 s.myStructureSet = xs.length) ∧
      s.release.2.myStructureSet = [] ∧ s.pipelineFinishing.myStructureSet = [] ∧
      (Equivalence (fun y x => S.areSimilar y x = true) → ∀ x ∈ s.myStructureSet,
        s.timesFound x = some (UInt32.ofNat (xs.countP (S.areSimilar x)))) := by
  intro s
  obtain ⟨matches_, h⟩ := counted_inputs (S := S) h₀ hxs
  have hsum := h.sum_counts hxs
  have hvalues : totalFound s.release.2 s.myStructureSet
      = (s.myStructureSet.map fun x => (1 + timesMatched matches_ x) % 2 ^ 32).sum := by
    refine congrArg List.sum (List.map_congr_left fun x hx => ?_)
    show ((s.timesFound x).getD 0).toNat = _
    rw [h.count x hx, Option.getD_some, UInt32.toNat_ofNat']
  refine ⟨matches_, h.matched, h.dropped, h.perm, h.similar, h.distinct, h.count, ?_, ?_, ?_, rfl, rfl,
    ?_⟩
  · show s.sent ++ s.myStructureSet = _
    rw [h.sent]
  · rw [hvalues, ← hsum]
    have hmod := List.sum_nat_mod (s.myStructureSet.map fun x => 1 + timesMatched matches_ x) (2 ^ 32)
    rw [List.map_map] at hmod
    exact hmod.symm
  · intro hlt
    have hle : ∀ x ∈ s.myStructureSet, 1 + timesMatched matches_ x ≤ xs.length := by
      intro x hx
      rw [← hsum]
      exact List.single_le_sum (fun _ _ => Nat.zero_le _) _
        (List.mem_map_of_mem (f := fun x => 1 + timesMatched matches_ x) hx)
    rw [hvalues, ← hsum]
    congr 1
    exact List.map_congr_left fun x hx => Nat.mod_eq_of_lt ((hle x hx).trans_lt hlt)
  · intro hequiv x hx
    rw [h.count x hx, h.class_size hxs hequiv hx]

/-- Even and odd numbers as the classes, one of them with a stale count: the counts are three and
two. -/
theorem removeDuplicates_counts_at :
    let S := UniqueStructureSet.firstSimilar fun y x : ℕ => y % 2 == x % 2
    let s := [4, 1, 2, 3, 6].foldl (input S) { timesFound := fun _ => some 7 }
    s.myStructureSet = [4, 1] ∧ s.timesFound 4 = some 3 ∧ s.timesFound 1 = some 2 ∧
      ∃ matches_ : List (ℕ × ℕ), s.myStructureSet ++ matches_.map Prod.fst ~ [4, 1, 2, 3, 6] := by
  intro S s
  obtain ⟨matches_, _, _, hperm, _⟩ := removeDuplicates_counts S { timesFound := fun _ => some 7 } rfl
    [4, 1, 2, 3, 6] (by decide)
  exact ⟨by decide, by decide, by decide, matches_, hperm⟩

/-- Arrivals that are all similar to the one structure held are counted there. -/
theorem foldl_input_similar {a : α} (hall : ∀ x, S.areSimilar a x = true) (xs : List α)
    {s : RemoveDuplicates α} (hheld : s.myStructureSet = [a]) {n : UInt32}
    (hcount : s.timesFound a = some n) :
    (xs.foldl (input S) s).myStructureSet = [a] ∧
      (xs.foldl (input S) s).timesFound a = some (n + UInt32.ofNat xs.length) ∧
      (xs.foldl (input S) s).matched = s.matched ++ xs.map fun x => (x, a) := by
  induction xs generalizing s n with
  | nil =>
      refine ⟨hheld, ?_, by simp⟩
      rw [List.foldl_nil, hcount, List.length_nil]
      simp
  | cons x xs ih =>
      obtain ⟨y, hy, _, hinsert⟩ := S.insert_old s.myStructureSet x ⟨a, by simp [hheld], hall x⟩
      obtain rfl : y = a := by simpa [hheld] using hy
      have heq : input S s x = ((s.hold s.myStructureSet).drop x y).setTimesFound y (n + 1) := by
        rw [input, hinsert]
        show (match s.timesFound y with | some n => _ | none => _) = _
        rw [hcount]
      obtain ⟨hheld', hcount', hmatched'⟩ := ih (s := input S s x) (n := n + 1)
        (by rw [heq]; exact hheld) (by rw [heq]; exact Function.update_self _ _ _)
      refine ⟨hheld', ?_, ?_⟩
      · rw [List.foldl_cons, hcount', List.length_cons, UInt32.ofNat_add]
        rw [UInt32.add_assoc, UInt32.add_comm 1]
        rfl
      · rw [List.foldl_cons, hmatched', heq]
        show s.matched ++ [(x, y)] ++ _ = _
        rw [List.append_assoc]
        rfl

/-- **The counter wraps around.**  Of `2^32` similar structures one is held and all others are matched
to it, and its count is zero. -/
theorem times_found_wraps :
    let S := UniqueStructureSet.firstSimilar fun _ _ : ℕ => true
    let s := (List.range (2 ^ 32)).foldl (input S) { timesFound := fun _ => none }
    (List.range (2 ^ 32)).Nodup ∧ s.myStructureSet = [0] ∧ timesMatched s.matched 0 = 2 ^ 32 - 1 ∧
      s.timesFound 0 = some 0 := by
  intro S s
  have hrange : List.range (2 ^ 32) = 0 :: (List.range (2 ^ 32 - 1)).map Nat.succ :=
    List.range_succ_eq_map
  have hs : s = ((List.range (2 ^ 32 - 1)).map Nat.succ).foldl (input S)
      (input S { timesFound := fun _ => none } 0) := by
    rw [← List.foldl_cons, ← hrange]
  obtain ⟨hheld, hcount, hmatched⟩ := foldl_input_similar (S := S) (a := 0) (fun _ => rfl)
    ((List.range (2 ^ 32 - 1)).map Nat.succ) (s := input S { timesFound := fun _ => none } 0) rfl
    (n := 1) rfl
  refine ⟨List.nodup_range, by rw [hs, hheld], ?_, ?_⟩
  · have hstart : (input S { timesFound := fun _ => none } 0).matched = [] := rfl
    rw [hs, hmatched, hstart, List.nil_append, timesMatched, List.countP_map, List.countP_eq_length.mpr]
    · rw [List.length_map, List.length_range]
    · intro x _
      rfl
  · rw [hs, hcount, List.length_map, List.length_range]
    rfl

end RemoveDuplicates

end StructurePipe.Blocks
