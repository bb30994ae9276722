import StructurePipe.Blocks.KeepStableCompositions

/-!
# Keeping the stable compositions in rounds

A block that keeps the stable compositions of every run of a sub-pipe hands them to another one in the
outer pipe.  A structure that is stable among all is stable among those of its run, and the others do
not make a difference to the hull, so the outer block sends out what it would if it had got every
structure.  The hull comes from a library; `LowerHull` is what is asked of it.

Where a hull cannot be built although there are endpoints nothing counts as stable, and the structures
of that run are lost.

* `round_spec` — what one round sends out;
* `chosen_of_parts` — choosing from what was chosen from the parts;
* `stable_rounds` — **the stable compositions of each run are enough for those of all runs.**
-/

namespace StructurePipe.Blocks

namespace KeepStableCompositions

open scoped List

variable {α : Type*} [LinearOrder α]

/-! ### The store -/

theorem mem_insertStore {store : List α} {x y : α} : y ∈ insertStore store x ↔ y = x ∨ y ∈ store := by
  rw [insertStore]
  split
  · next hx =>
      refine ⟨Or.inr, ?_⟩
      rintro (rfl | hy)
      · exact hx
      · exact hy
  · exact List.mem_orderedInsert _

/-- The store has what came in. -/
theorem mem_storeOf {xs : List α} {y : α} : y ∈ storeOf xs ↔ y ∈ xs := by
  induction xs using List.reverseRecOn with
  | nil => exact Iff.rfl
  | append_singleton xs x ih =>
      rw [storeOf, List.foldl_append]
      show y ∈ insertStore (storeOf xs) x ↔ _
      rw [mem_insertStore, ih]
      simp [or_comm]

/-- The store is in order, with nothing twice. -/
theorem storeOf_pairwise (xs : List α) : (storeOf xs).Pairwise (· < ·) := by
  induction xs using List.reverseRecOn with
  | nil => exact List.Pairwise.nil
  | append_singleton xs x ih =>
      rw [storeOf, List.foldl_append]
      show (insertStore (storeOf xs) x).Pairwise (· < ·)
      rw [insertStore]
      split
      · exact ih
      · next hx =>
          have hle : (storeOf xs).Pairwise (· ≤ ·) := ih.imp le_of_lt
          have hsorted : ((storeOf xs).orderedInsert (· ≤ ·) x).Pairwise (· ≤ ·) :=
            List.Pairwise.orderedInsert x _ hle
          have hnodup : ((storeOf xs).orderedInsert (· ≤ ·) x).Nodup :=
            (List.perm_orderedInsert (· ≤ ·) x _).nodup_iff.mpr
              (List.nodup_cons.mpr ⟨hx, ih.imp ne_of_lt⟩)
          exact (hsorted.and hnodup).imp fun h => lt_of_le_of_ne h.1 h.2

/-- So it does not depend on the order in which things came in. -/
theorem storeOf_congr {xs ys : List α} (h : ∀ x, x ∈ xs ↔ x ∈ ys) : storeOf xs = storeOf ys := by
  refine (storeOf_pairwise xs).eq_of_mem_iff (storeOf_pairwise ys) fun x => ?_
  rw [mem_storeOf, mem_storeOf, h]

/-! ### One round -/

variable (H : ConvexHull α)

/-- What is sent out of a store. -/
def chosen (store : List α) : List α :=
  if H.numEndpoints store < 2 then store else store.filter (H.isStable store)

/-- One run of the pipeline: structures come in, the engine drains the block, and the pipeline
finishes. -/
def Round (s : KeepStableCompositions α) (xs : List α) (s' : KeepStableCompositions α) : Prop :=
  ∃ drained, (barrier H).Drained (xs.foldl input s) drained ∧ s' = drained.pipelineFinishing

/-- **What one round sends out.** -/
theorem round_spec {s₀ : KeepStableCompositions α} (h₀ : s₀.myStructureStore = []) (xs : List α) :
    ∃ s, Round H s₀ xs s ∧ s.myStructureStore = [] ∧
      s.sent = s₀.sent ++ chosen H (storeOf xs) := by
  obtain ⟨hstore, hsent, _, hhull⟩ := foldl_input s₀ xs
  rw [h₀] at hstore
  replace hstore : (xs.foldl input s₀).myStructureStore = storeOf xs := hstore
  by_cases hnil : storeOf xs = []
  · refine ⟨_, ⟨_, drained_of_nil H (hstore.trans hnil), rfl⟩, rfl, ?_⟩
    show (xs.foldl input s₀).sent = _
    rw [hsent, chosen, hnil]
    simp
  · have hxs : xs ≠ [] := by
      rintro rfl
      exact hnil rfl
    rcases Nat.lt_or_ge (H.numEndpoints (storeOf xs)) 2 with hfew | hmany
    · refine ⟨_, ⟨_, drained_of_few H (hstore ▸ hnil) (hstore ▸ hfew) (hhull hxs), rfl⟩, rfl, ?_⟩
      show (xs.foldl input s₀).sent ++ (xs.foldl input s₀).myStructureStore = _
      rw [hsent, hstore, chosen, if_pos hfew]
    · have hchosen : chosen H (storeOf xs) = (storeOf xs).filter (H.isStable (storeOf xs)) := by
        rw [chosen, if_neg (by omega)]
      by_cases hstable : H.numStable (storeOf xs) = 0
      · refine ⟨_, ⟨_, drained_of_unstable H (hstore ▸ hnil) (hstore ▸ hmany) (hstore ▸ hstable), rfl⟩,
          rfl, ?_⟩
        show (xs.foldl input s₀).sent = _
        rw [ConvexHull.numStable, List.countP_eq_zero] at hstable
        rw [hsent, hchosen, List.filter_eq_nil_iff.mpr hstable, List.append_nil]
      · refine ⟨_, ⟨_, drained_of_stable H (hstore ▸ hnil) (hstore ▸ hmany) (hstore ▸ hstable), rfl⟩,
          rfl, ?_⟩
        show (xs.foldl input s₀).sent ++ _ = _
        rw [hsent, hstore, hchosen]

/-- Any number of rounds. -/
def Rounds (s : KeepStableCompositions α) : List (List α) → KeepStableCompositions α → Prop
  | [], s' => s' = s
  | xs :: batches, s' => ∃ m, Round H s xs m ∧ Rounds m batches s'

theorem rounds_spec {s₀ : KeepStableCompositions α} (h₀ : s₀.myStructureStore = [])
    (batches : List (List α)) :
    ∃ s, Rounds H s₀ batches s ∧ s.myStructureStore = [] ∧
      s.sent = s₀.sent ++ batches.flatMap fun xs => chosen H (storeOf xs) := by
  induction batches generalizing s₀ with
  | nil => exact ⟨s₀, rfl, h₀, (List.append_nil _).symm⟩
  | cons xs batches ih =>
      obtain ⟨m, hround, hm, hsent⟩ := round_spec H h₀ xs
      obtain ⟨s, hrounds, hs, hrest⟩ := ih hm
      refine ⟨s, ⟨m, hround, hrounds⟩, hs, ?_⟩
      rw [hrest, hsent, List.append_assoc, List.flatMap_cons]

/-! ### What is asked of the hull -/

/-- A lower convex hull, as far as stability goes.  Fewer structures have no more endpoints; a structure
that is stable stays so when others are taken away, as long as there is a hull; and taking away unstable
ones changes neither the endpoints nor which structures are stable. -/
structure LowerHull : Prop where
  mono : ∀ {S T : List α}, T ⊆ S → H.numEndpoints T ≤ H.numEndpoints S
  heritage : ∀ {S T : List α} {x : α}, T ⊆ S → (∃ y ∈ T, H.isStable T y = true) → x ∈ T →
    H.isStable S x = true → H.isStable T x = true
  outcast : ∀ {S T : List α}, (∃ y ∈ S, H.isStable S y = true) → T ⊆ S →
    (∀ x ∈ S, H.isStable S x = true → x ∈ T) →
    H.numEndpoints T = H.numEndpoints S ∧ ∀ x ∈ T, H.isStable T x = H.isStable S x

/-- There are too few endpoints for a hull, or there is one. -/
def Built (S : List α) : Prop := H.numEndpoints S < 2 ∨ ∃ x ∈ S, H.isStable S x = true

instance (S : List α) : Decidable (Built H S) := inferInstanceAs (Decidable (_ ∨ _))

variable {H}

omit [LinearOrder α] in
theorem mem_chosen {S : List α} {x : α} :
    x ∈ chosen H S ↔ x ∈ S ∧ (H.numEndpoints S < 2 ∨ H.isStable S x = true) := by
  rw [chosen]
  split
  · next hfew => simp [hfew]
  · next hmany => rw [List.mem_filter, or_iff_right hmany]

/-- **Choosing from what was chosen from the parts** is choosing from everything. -/
theorem chosen_of_parts (hH : LowerHull H) {parts : List (List α)}
    (hbuilt : ∀ xs ∈ parts, Built H (storeOf xs)) (hall : Built H (storeOf parts.flatten)) :
    chosen H (storeOf (parts.flatMap fun xs => chosen H (storeOf xs)))
      = chosen H (storeOf parts.flatten) := by
  have hpart : ∀ xs ∈ parts, storeOf xs ⊆ storeOf parts.flatten := by
    intro xs hxs x hx
    exact mem_storeOf.mpr (List.mem_flatten.mpr ⟨xs, hxs, mem_storeOf.mp hx⟩)
  have hleft : ∀ {x}, x ∈ storeOf (parts.flatMap fun xs => chosen H (storeOf xs)) ↔
      ∃ xs ∈ parts, x ∈ chosen H (storeOf xs) := by
    intro x
    rw [mem_storeOf, List.mem_flatMap]
  have hsub : storeOf (parts.flatMap fun xs => chosen H (storeOf xs)) ⊆ storeOf parts.flatten := by
    intro x hx
    obtain ⟨xs, hxs, hx⟩ := hleft.mp hx
    exact hpart xs hxs (mem_chosen.mp hx).1
  rcases Nat.lt_or_ge (H.numEndpoints (storeOf parts.flatten)) 2 with hfew | hmany
  · -- too few endpoints for a hull anywhere
    have hsame : storeOf (parts.flatMap fun xs => chosen H (storeOf xs)) = storeOf parts.flatten := by
      refine storeOf_congr fun x => ?_
      rw [List.mem_flatMap, List.mem_flatten]
      refine exists_congr fun xs => and_congr_right fun hxs => ?_
      have hfewPart := (hH.mono (hpart xs hxs)).trans_lt hfew
      rw [mem_chosen, mem_storeOf, and_iff_left (Or.inl hfewPart)]
    rw [hsame]
  · have hex := hall.resolve_left (by omega)
    have hstays : ∀ x ∈ storeOf parts.flatten, H.isStable (storeOf parts.flatten) x = true →
        x ∈ storeOf (parts.flatMap fun xs => chosen H (storeOf xs)) := by
      intro x hx hstable
      obtain ⟨xs, hxs, hmem⟩ := List.mem_flatten.mp (mem_storeOf.mp hx)
      have hstore : x ∈ storeOf xs := mem_storeOf.mpr hmem
      exact hleft.mpr ⟨xs, hxs, mem_chosen.mpr ⟨hstore, (hbuilt xs hxs).imp_right fun hhull =>
        hH.heritage (hpart xs hxs) hhull hstore hstable⟩⟩
    obtain ⟨hendpoints, hstable⟩ := hH.outcast hex hsub hstays
    have hsorted : ∀ xs : List α, (chosen H (storeOf xs)).Pairwise (· < ·) := by
      intro xs
      rw [chosen]
      split
      · exact storeOf_pairwise xs
      · exact (storeOf_pairwise xs).filter _
    refine (hsorted _).eq_of_mem_iff (hsorted _) fun x => ?_
    rw [mem_chosen, mem_chosen, hendpoints, or_iff_right (by omega), or_iff_right (by omega)]
    constructor
    · rintro ⟨hx, hx'⟩
      exact ⟨hsub hx, hstable x hx ▸ hx'⟩
    · rintro ⟨hx, hx'⟩
      have hmem := hstays x hx hx'
      exact ⟨hmem, (hstable x hmem).trans hx'⟩

/-- **The stable compositions of each run are enough.**  A block is drained at the end of each of any
number of runs, and what it sends out goes into another one.  If in each run, and for all runs together,
there is a hull or there are too few endpoints for one, then the other block sends out what it would
have sent if all structures had come straight to it, in the same order. -/
theorem stable_rounds (hH : LowerHull H) (batches : List (List α))
    (hbuilt : ∀ xs ∈ batches, Built H (storeOf xs)) (hall : Built H (storeOf batches.flatten)) :
    ∃ inner outer direct, Rounds H {} batches inner ∧ Round H {} inner.sent outer ∧
      Round H {} batches.flatten direct ∧ outer.sent = direct.sent := by
  have hempty : ({} : KeepStableCompositions α).myStructureStore = [] := rfl
  obtain ⟨inner, hinner, _, hsent⟩ := rounds_spec H hempty batches
  obtain ⟨outer, houter, _, houterSent⟩ := round_spec H hempty inner.sent
  obtain ⟨direct, hdirect, _, hdirectSent⟩ := round_spec H hempty batches.flatten
  refine ⟨inner, outer, direct, hinner, houter, hdirect, ?_⟩
  have hall : inner.sent = batches.flatMap fun xs => chosen H (storeOf xs) := hsent
  rw [houterSent, hdirectSent, hall, chosen_of_parts hH hbuilt ‹_›]

/-- The hull of two elements and the compound of one atom of each.  A structure is a number: what is
left over by three says which of the three compositions it has, the rest is its energy for each atom. -/
def lineHull : ConvexHull ℕ where
  numEndpoints S := (if ∃ y ∈ S, y % 3 ≠ 2 then 1 else 0) + if ∃ y ∈ S, y % 3 ≠ 0 then 1 else 0
  isStable S x := decide (((∃ y ∈ S, y % 3 = 0) ∧ ∃ z ∈ S, z % 3 = 2) ∧
    (∀ y ∈ S, y % 3 = x % 3 → x / 3 ≤ y / 3) ∧
    (x % 3 = 1 → ∀ y ∈ S, y % 3 = 0 → ∀ z ∈ S, z % 3 = 2 → 2 * (x / 3) ≤ y / 3 + z / 3))

theorem lineHull_isStable {S : List ℕ} {x : ℕ} : lineHull.isStable S x = true ↔
    ((∃ y ∈ S, y % 3 = 0) ∧ ∃ z ∈ S, z % 3 = 2) ∧
    (∀ y ∈ S, y % 3 = x % 3 → x / 3 ≤ y / 3) ∧
    (x % 3 = 1 → ∀ y ∈ S, y % 3 = 0 → ∀ z ∈ S, z % 3 = 2 → 2 * (x / 3) ≤ y / 3 + z / 3) :=
  decide_eq_true_iff

/-- Of the structures of one composition some has the lowest energy. -/
theorem exists_lowest_of {S : List ℕ} {c : ℕ} (h : ∃ y ∈ S, y % 3 = c) :
    ∃ y ∈ S, y % 3 = c ∧ ∀ z ∈ S, z % 3 = c → y / 3 ≤ z / 3 := by
  have hne : (S.filter fun y => y % 3 = c) ≠ [] := by
    obtain ⟨y, hy, hc⟩ := h
    exact List.ne_nil_of_mem (List.mem_filter.mpr ⟨hy, by simpa using hc⟩)
  obtain ⟨y, hy, hle⟩ := (S.filter fun y => y % 3 = c).toFinset.exists_min_image (· / 3)
    (by simpa [Finset.nonempty_iff_ne_empty] using hne)
  simp only [List.mem_toFinset, List.mem_filter, decide_eq_true_eq] at hy hle
  exact ⟨y, hy.1, hy.2, fun z hz hc => hle z ⟨hz, hc⟩⟩

theorem lineHull_heritage {S T : List ℕ} {x : ℕ} (hsub : T ⊆ S)
    (hhull : (∃ y ∈ T, y % 3 = 0) ∧ ∃ z ∈ T, z % 3 = 2) (h : lineHull.isStable S x = true) :
    lineHull.isStable T x = true := by
  obtain ⟨_, hlowest, hline⟩ := lineHull_isStable.mp h
  exact lineHull_isStable.mpr ⟨hhull, fun y hy => hlowest y (hsub hy),
    fun hx y hy hy0 z hz => hline hx y (hsub hy) hy0 z (hsub hz)⟩

/-- An element of the lowest energy is stable. -/
theorem lineHull_isStable_of_lowest {S : List ℕ} {x : ℕ}
    (hhull : (∃ y ∈ S, y % 3 = 0) ∧ ∃ z ∈ S, z % 3 = 2) (hx : x % 3 ≠ 1)
    (hlowest : ∀ z ∈ S, z % 3 = x % 3 → x / 3 ≤ z / 3) : lineHull.isStable S x = true :=
  lineHull_isStable.mpr ⟨hhull, hlowest, fun h => absurd h hx⟩

theorem lowerHull_lineHull : LowerHull lineHull where
  mono {S T} h := by
    have hmono : ∀ {p : ℕ → Prop} [DecidablePred p], (if ∃ y ∈ T, p y then 1 else 0)
        ≤ (if ∃ y ∈ S, p y then 1 else 0) := by
      intro p _
      by_cases hT : ∃ y ∈ T, p y
      · obtain ⟨y, hy, hp⟩ := hT
        rw [if_pos ⟨y, hy, hp⟩, if_pos ⟨y, h hy, hp⟩]
      · rw [if_neg hT]
        exact Nat.zero_le _
    exact Nat.add_le_add hmono hmono
  heritage {S T x} hsub hhull hx hstable := by
    obtain ⟨y, _, hy⟩ := hhull
    exact lineHull_heritage hsub (lineHull_isStable.mp hy).1 hstable
  outcast {S T} hhull hsub hstays := by
    obtain ⟨_, _, hhull⟩ := hhull
    replace hhull := (lineHull_isStable.mp hhull).1
    -- the lowest of either element is not taken away
    obtain ⟨a, ha, ha0, halow⟩ := exists_lowest_of hhull.1
    obtain ⟨b, hb, hb2, hblow⟩ := exists_lowest_of hhull.2
    have haT : a ∈ T := hstays a ha
      (lineHull_isStable_of_lowest hhull (by omega) fun z hz h => halow z hz (h.trans ha0))
    have hbT : b ∈ T := hstays b hb
      (lineHull_isStable_of_lowest hhull (by omega) fun z hz h => hblow z hz (h.trans hb2))
    have hhullT : (∃ y ∈ T, y % 3 = 0) ∧ ∃ z ∈ T, z % 3 = 2 := ⟨⟨a, haT, ha0⟩, ⟨b, hbT, hb2⟩⟩
    have hmany : ∀ R : List ℕ, a ∈ R → b ∈ R → lineHull.numEndpoints R = 2 := by
      intro R haR hbR
      show (if ∃ y ∈ R, y % 3 ≠ 2 then 1 else 0) + (if ∃ y ∈ R, y % 3 ≠ 0 then 1 else 0) = 2
      rw [if_pos ⟨a, haR, by omega⟩, if_pos ⟨b, hbR, by omega⟩]
    refine ⟨(hmany T haT hbT).trans (hmany S ha hb).symm, fun x hx => Bool.eq_iff_iff.mpr
      ⟨fun hstable => ?_, lineHull_heritage hsub hhullT⟩⟩
    obtain ⟨_, hlowest, hline⟩ := lineHull_isStable.mp hstable
    have hlineS : x % 3 = 1 → ∀ y ∈ S, y % 3 = 0 → ∀ z ∈ S, z % 3 = 2 →
        2 * (x / 3) ≤ y / 3 + z / 3 := by
      intro hx1 y hy hy0 z hz hz2
      have hab := hline hx1 a haT ha0 b hbT hb2
      have hay := halow y hy hy0
      have hbz := hblow z hz hz2
      omega
    refine lineHull_isStable.mpr ⟨hhull, fun y hy hyx => ?_, hlineS⟩
    obtain ⟨m, hm, hmx, hmlow⟩ := exists_lowest_of ⟨y, hy, hyx⟩
    have hmy := hmlow y hy hyx
    by_cases hmstable : lineHull.isStable S m = true
    · have hxm := hlowest m (hstays m hm hmstable) hmx
      omega
    · -- a compound above the line, and so above `x`
      have hm1 : m % 3 = 1 := by
        by_contra hne
        exact hmstable (lineHull_isStable_of_lowest hhull hne fun z hz h => hmlow z hz (h.trans hmx))
      have habove : a / 3 + b / 3 < 2 * (m / 3) := by
        by_contra hle
        refine hmstable (lineHull_isStable.mpr ⟨hhull, fun z hz h => hmlow z hz (h.trans hmx), ?_⟩)
        intro _ y' hy' hy0 z' hz' hz2
        have hay := halow y' hy' hy0
        have hbz := hblow z' hz' hz2
        omega
      have hxline := hline (hmx ▸ hm1) a haT ha0 b hbT hb2
      omega

/-- Three runs: one with both elements, one with a compound and the elements, one with one element. -/
theorem stable_rounds_at :
    ∃ inner outer direct, Rounds lineHull {} [[9, 5, 12], [4, 6, 11], [3]] inner ∧
      Round lineHull {} inner.sent outer ∧
      Round lineHull {} (List.flatten [[9, 5, 12], [4, 6, 11], [3]]) direct ∧
      outer.sent = direct.sent :=
  stable_rounds lowerHull_lineHull [[9, 5, 12], [4, 6, 11], [3]] (by decide) (by decide)

end KeepStableCompositions

end StructurePipe.Blocks
