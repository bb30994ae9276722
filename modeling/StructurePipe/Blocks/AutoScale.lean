import Mathlib.Algebra.BigOperators.Group.Finset.Basic
import Mathlib.Algebra.Order.BigOperators.Group.Finset
import Mathlib.Data.Finset.Sort
import Mathlib.Tactic
import StructurePipe.Lib.GroupedFolds

/-!
# AutoScale

The block scales a structure to its natural volume: the volume of a sphere for every atom, with the
radius of its species.  The radius is the mean of half the distances that the species database knows
between the species and those that are present.  Every pair of species is visited once and feeds the
statistics of both; a species without a known distance takes no space.

* `values_visits` — **the double loop feeds a species half of each of its known distances, once;**
* `naturalVolume_eq` — so the natural volume is the stated average, in any order of the particles;
* `factor_pos_iff` — **the factor is positive only if some distance between species present is known
  and positive;**
* `factor_zero` — with no distance known the structure is scaled to nothing.
-/

namespace StructurePipe.Blocks

open GroupedFolds OrderedMap

/-- A species database, as far as pair distances go: symmetric, and not all of them are known. -/
structure PairDistances (κ R : Type*) where
  getSpeciesPairDistance : κ → κ → Option R
  symm : ∀ a b, getSpeciesPairDistance a b = getSpeciesPairDistance b a

/-- Running statistics: values go in one at a time, and the mean is that of all of them. -/
structure RunningStats (R S : Type*) [Field R] where
  init : S
  insert : S → R → S
  mean : S → R
  mean_eq : ∀ values : List R, values ≠ [] →
    mean (values.foldl insert init) = values.sum / values.length

namespace AutoScale

section NaturalVolume

variable {κ R S : Type*} [LinearOrder κ] [Field R]

section Model

variable (stats : RunningStats R S) (volume : R → R) (db : PairDistances κ R)

/-- The body of the inner loop, for the species at two positions of `unique`. -/
def addPair (radii : List (κ × S)) (u t : κ × ℕ) : List (κ × S) :=
  match db.getSpeciesPairDistance u.1 t.1 with
  | none => radii
  | some dist =>
      let radii := gather stats.insert stats.init radii (u.1, 1 / 2 * dist)
      if u.2 ≠ t.2 then gather stats.insert stats.init radii (t.1, 1 / 2 * dist) else radii

/-- The outer loop, from a position of `unique` on; the inner loop starts at the same position. -/
def addPairs (radii : List (κ × S)) : List (κ × ℕ) → List (κ × S)
  | [] => radii
  | u :: rest => addPairs ((u :: rest).foldl (fun radii t => addPair stats db radii u t) radii) rest

/-- The species of the particles, without repetition and in order. -/
def unique (particles : List κ) : List κ := particles.toFinset.sort (· ≤ ·)

/-- `AutoScale::naturalVolume`. -/
def naturalVolume (particles : List κ) : R :=
  let radii := addPairs stats db [] (unique particles).zipIdx
  particles.foldl (fun vol specie => match find specie radii with
    | some s => vol + volume (stats.mean s)
    | none => vol) 0

end Model

/-! ### What the volume should be -/

section Stated

variable (volume : R → R) (db : PairDistances κ R)

/-- Half the distance of two species, if it is known. -/
def halfDistance (s t : κ) : Option R := (db.getSpeciesPairDistance s t).map (1 / 2 * ·)

/-- The species present whose distance to a species is known. -/
def knownSpecies (particles : List κ) (s : κ) : Finset κ :=
  particles.toFinset.filter fun t => (halfDistance db s t).isSome

/-- The mean of half the known distances to the species present. -/
def meanRadius (particles : List κ) (s : κ) : R :=
  (∑ t ∈ knownSpecies db particles s, (halfDistance db s t).getD 0)
    / (knownSpecies db particles s).card

/-- The space of one particle: none if no distance of its species is known. -/
def particleVolume (particles : List κ) (s : κ) : R :=
  if (knownSpecies db particles s).Nonempty then volume (meanRadius db particles s) else 0

/-- The stated average. -/
def statedVolume (particles : List κ) : R :=
  (particles.map (particleVolume volume db particles)).sum

end Stated

/-! ### The double loop as a list of visits -/

section Visits

variable (stats : RunningStats R S) (db : PairDistances κ R)

/-- What the inner loop inserts for one pair. -/
def pairItems (u t : κ × ℕ) : List (κ × R) :=
  match halfDistance db u.1 t.1 with
  | none => []
  | some radius => (u.1, radius) :: if u.2 ≠ t.2 then [(t.1, radius)] else []

/-- What the two loops insert, one after the other. -/
def visits : List (κ × ℕ) → List (κ × R)
  | [] => []
  | u :: rest => (u :: rest).flatMap (pairItems db u) ++ visits rest

theorem addPair_eq (radii : List (κ × S)) (u t : κ × ℕ) :
    addPair stats db radii u t
      = (pairItems db u t).foldl (gather stats.insert stats.init) radii := by
  rw [addPair, pairItems, halfDistance]
  cases db.getSpeciesPairDistance u.1 t.1 with
  | none => rfl
  | some dist =>
      simp only [Option.map_some]
      split
      · rfl
      · rfl

theorem addPairs_eq (us : List (κ × ℕ)) (radii : List (κ × S)) :
    addPairs stats db radii us = (visits db us).foldl (gather stats.insert stats.init) radii := by
  induction us generalizing radii with
  | nil => rfl
  | cons u us ih =>
      simp only [addPairs, visits, List.foldl_append, List.foldl_flatMap, addPair_eq, ih]

/-- A pair feeds its first species. -/
theorem values_pairItems_left (u t : κ × ℕ) (h : u.1 = t.1 ↔ u.2 = t.2) :
    values u.1 (pairItems db u t) = (halfDistance db u.1 t.1).toList := by
  rw [pairItems]
  cases halfDistance db u.1 t.1 with
  | none => rfl
  | some radius =>
      by_cases heq : u.2 = t.2
      · simp [values_cons, heq]
      · have hne : t.1 ≠ u.1 := fun h' => heq (h.mp h'.symm)
        simp [values_cons, heq, hne]

/-- It feeds its second species too, if that is another one. -/
theorem values_pairItems_right (u t : κ × ℕ) {k : κ} (hk : k ≠ u.1) (h : u.1 = t.1 ↔ u.2 = t.2) :
    values k (pairItems db u t)
      = if k = t.1 then (halfDistance db k u.1).toList else [] := by
  have hsymm : halfDistance db t.1 u.1 = halfDistance db u.1 t.1 := by
    rw [halfDistance, halfDistance, db.symm]
  by_cases hkt : k = t.1
  · subst hkt
    have hne : u.2 ≠ t.2 := fun h' => hk (h.mpr h').symm
    rw [if_pos rfl, hsymm, pairItems]
    cases halfDistance db u.1 t.1 with
    | none => rfl
    | some radius => simp [values_cons, hne, Ne.symm hk]
  · rw [if_neg hkt, pairItems]
    cases halfDistance db u.1 t.1 with
    | none => rfl
    | some radius =>
        by_cases heq : u.2 = t.2
        · simp [values_cons, heq, Ne.symm hk]
        · simp [values_cons, heq, Ne.symm hk, Ne.symm hkt]

/-- Pairs with a species that is not `k` feed `k` from the one pair that has it. -/
theorem values_visit_of_ne {u : κ × ℕ} {us : List (κ × ℕ)} {k : κ} (hk : k ≠ u.1)
    (hpos : ∀ t ∈ us, u.1 = t.1 ↔ u.2 = t.2) (hnodup : (us.map Prod.fst).Nodup) :
    (us.flatMap fun t => values k (pairItems db u t))
      = if k ∈ us.map Prod.fst then (halfDistance db k u.1).toList else [] := by
  induction us with
  | nil => rfl
  | cons t us ih =>
      obtain ⟨hnotin, hnodup⟩ := List.nodup_cons.mp hnodup
      rw [List.flatMap_cons, values_pairItems_right db u t hk (hpos t (by simp)),
        ih (fun t' ht' => hpos t' (by simp [ht'])) hnodup]
      by_cases hkt : k = t.1
      · subst hkt
        rw [if_pos rfl, if_neg hnotin, if_pos (by simp), List.append_nil]
      · rw [if_neg hkt, List.nil_append]
        exact if_congr (by simp [hkt]) rfl rfl

/-- **What the two loops feed a species**: half of each of its known distances, in the order of the
species, once. -/
theorem values_visits {us : List (κ × ℕ)} (hkeys : (us.map Prod.fst).Nodup)
    (hpositions : (us.map Prod.snd).Nodup) (k : κ) :
    values k (visits db us)
      = if k ∈ us.map Prod.fst then (us.map Prod.fst).filterMap (halfDistance db k) else [] := by
  induction us with
  | nil => rfl
  | cons u us ih =>
      obtain ⟨hkey, hkeys⟩ := List.nodup_cons.mp hkeys
      obtain ⟨hposition, hpositions⟩ := List.nodup_cons.mp hpositions
      have hpos : ∀ t ∈ u :: us, u.1 = t.1 ↔ u.2 = t.2 := by
        intro t ht
        rcases List.mem_cons.mp ht with rfl | ht
        · exact iff_of_true rfl rfl
        · refine iff_of_false (fun h => hkey ?_) (fun h => hposition ?_)
          · exact h ▸ List.mem_map_of_mem ht
          · exact h ▸ List.mem_map_of_mem ht
      rw [visits, values_append, values_flatMap, ih hkeys hpositions]
      by_cases hk : k = u.1
      · -- the turn of the outer loop for `k` itself: all pairs from here on
        subst hk
        have hturn : (u :: us).flatMap (fun t => values u.1 (pairItems db u t))
            = (u :: us).flatMap fun t => (halfDistance db u.1 t.1).toList :=
          List.flatMap_congr fun t ht => values_pairItems_left db u t (hpos t ht)
        rw [hturn, if_neg hkey, List.append_nil, if_pos (by simp), List.filterMap_map]
        exact (List.filterMap_eq_flatMap_toList _ _).symm
      · -- the turn of an earlier species: one pair, with `k` second
        have hrest : k ∈ (u :: us).map Prod.fst ↔ k ∈ us.map Prod.fst := by simp [hk]
        rw [List.flatMap_cons, values_pairItems_right db u u hk (hpos u (by simp)), if_neg hk,
          values_visit_of_ne db hk (fun t ht => hpos t (by simp [ht])) hkeys]
        by_cases hmem : k ∈ us.map Prod.fst
        · rw [if_pos hmem, if_pos hmem, if_pos (hrest.mpr hmem), List.map_cons,
            List.filterMap_cons]
          cases halfDistance db k u.1 with
          | none => rfl
          | some radius => rfl
        · rw [if_neg hmem, if_neg hmem, if_neg (fun h => hmem (hrest.mp h))]
          rfl

end Visits

/-! ### The average -/

section Average

variable (stats : RunningStats R S) (volume : R → R) (db : PairDistances κ R)

/-- Over different species, sums and counts of known values are those of a set. -/
theorem sum_filterMap (f : κ → Option R) {us : List κ} (h : us.Nodup) :
    (us.filterMap f).sum = ∑ t ∈ us.toFinset.filter (fun t => (f t).isSome), (f t).getD 0 ∧
      (us.filterMap f).length = (us.toFinset.filter fun t => (f t).isSome).card := by
  induction us with
  | nil => simp
  | cons u us ih =>
      obtain ⟨hu, hus⟩ := List.nodup_cons.mp h
      obtain ⟨hsum, hlength⟩ := ih hus
      rw [List.filterMap_cons, List.toFinset_cons, Finset.filter_insert]
      cases hf : f u with
      | none => simpa using ⟨hsum, hlength⟩
      | some radius =>
          have hnotin : u ∉ us.toFinset.filter fun t => (f t).isSome := by simp [hu]
          simp only [Option.isSome_some, if_true]
          rw [Finset.sum_insert hnotin, Finset.card_insert_of_notMem hnotin]
          simp [hsum, hlength, hf]

theorem find_addPairs {particles : List κ} {s : κ} (hs : s ∈ particles) :
    find s (addPairs stats db [] (unique particles).zipIdx)
      = if (unique particles).filterMap (halfDistance db s) = [] then none
        else some (((unique particles).filterMap (halfDistance db s)).foldl stats.insert
          stats.init) := by
  have hkeys : (unique particles).zipIdx.map Prod.fst = unique particles :=
    List.zipIdx_map_fst 0 _
  have hnodup : ((unique particles).zipIdx.map Prod.fst).Nodup := by
    rw [hkeys]
    exact Finset.sort_nodup _ _
  have hpositions : ((unique particles).zipIdx.map Prod.snd).Nodup := by
    rw [List.zipIdx_map_snd]
    exact List.nodup_range'
  have hmem : s ∈ unique particles := by simpa [unique] using hs
  have hvalues := values_visits db hnodup hpositions s
  rw [hkeys, if_pos hmem] at hvalues
  rw [addPairs_eq, find_foldl_gather, hvalues]

/-- A particle adds its stated volume. -/
theorem volume_of_find {particles : List κ} {s : κ} (hs : s ∈ particles) (vol : R) :
    (match find s (addPairs stats db [] (unique particles).zipIdx) with
      | some st => vol + volume (stats.mean st)
      | none => vol) = vol + particleVolume volume db particles s := by
  have hset : (unique particles).toFinset = particles.toFinset := Finset.sort_toFinset _ _
  obtain ⟨hsum, hlength⟩ :=
    sum_filterMap (halfDistance db s) (Finset.sort_nodup particles.toFinset (· ≤ ·))
  have hknown : (knownSpecies db particles s).Nonempty
      ↔ (unique particles).filterMap (halfDistance db s) ≠ [] := by
    rw [← Finset.card_pos, knownSpecies, ← hset, ← List.length_pos_iff, unique, hlength]
  have hmean : meanRadius db particles s
      = ((unique particles).filterMap (halfDistance db s)).sum
        / ((unique particles).filterMap (halfDistance db s)).length := by
    rw [meanRadius, knownSpecies, ← hset, unique, hsum, hlength]
  rw [find_addPairs stats db hs, particleVolume]
  by_cases hnil : (unique particles).filterMap (halfDistance db s) = []
  · rw [if_pos hnil, if_neg (fun h => hknown.mp h hnil), add_zero]
  · rw [if_neg hnil, if_pos (hknown.mpr hnil), hmean]
    simp only [stats.mean_eq _ hnil]

/-- **The natural volume is the stated average.** -/
theorem naturalVolume_eq_stated (particles : List κ) :
    naturalVolume stats volume db particles = statedVolume volume db particles := by
  have hloop : ∀ (rest : List κ) (vol : R), rest ⊆ particles →
      rest.foldl (fun vol specie =>
        match find specie (addPairs stats db [] (unique particles).zipIdx) with
        | some st => vol + volume (stats.mean st)
        | none => vol) vol
      = vol + (rest.map (particleVolume volume db particles)).sum := by
    intro rest
    induction rest with
    | nil => simp
    | cons s rest ih =>
        intro vol hsub
        obtain ⟨hs, hrest⟩ := List.cons_subset.mp hsub
        rw [List.foldl_cons, volume_of_find stats volume db hs, ih _ hrest,
          List.map_cons, List.sum_cons, add_assoc]
  rw [naturalVolume, statedVolume]
  exact (hloop particles 0 (List.Subset.refl _)).trans (zero_add _)

/-- The stated average does not depend on the order of the particles. -/
theorem statedVolume_perm {particles particles' : List κ} (h : particles.Perm particles') :
    statedVolume volume db particles = statedVolume volume db particles' := by
  have hparticle : particleVolume volume db particles = particleVolume volume db particles' := by
    funext s
    have hknown : knownSpecies db particles s = knownSpecies db particles' s := by
      rw [knownSpecies, knownSpecies, List.toFinset_eq_of_perm _ _ h]
    rw [particleVolume, particleVolume]
    exact if_congr (by rw [hknown]) (by rw [meanRadius, meanRadius, hknown]) rfl
  rw [statedVolume, statedVolume, hparticle]
  exact (h.map _).sum_eq

/-- **The natural volume** is the sum of the stated volumes of the particles, and the order of the
particles does not matter. -/
theorem naturalVolume_eq (particles : List κ) :
    naturalVolume stats volume db particles = statedVolume volume db particles ∧
      ∀ particles', particles.Perm particles' →
        naturalVolume stats volume db particles' = naturalVolume stats volume db particles := by
  refine ⟨naturalVolume_eq_stated stats volume db particles, fun particles' h => ?_⟩
  rw [naturalVolume_eq_stated, naturalVolume_eq_stated, statedVolume_perm volume db h]

end Average

end NaturalVolume

/-! ### The factor -/

section Factor

variable {κ R S : Type*} [LinearOrder κ] [Field R] [LinearOrder R]

/-- The species database of the engine: no distance is negative. -/
structure SpeciesDatabase (κ R : Type*) [Field R] [LinearOrder R] extends PairDistances κ R where
  nonneg : ∀ a b d, getSpeciesPairDistance a b = some d → 0 ≤ d

/-- A structure, as far as the block reads it: the species of its atoms, and the volume of its unit
cell if it has one. -/
structure Structure (κ R : Type*) where
  atomSpecies : List κ
  unitCell : Option R

/-- `AutoScale::in`: the factor that is passed to `Structure::scale`, if there is a unit cell. -/
def input (stats : RunningStats R S) (volume : R → R) (db : SpeciesDatabase κ R)
    (myPackingFactor : R) (s : Structure κ R) : Option R :=
  s.unitCell.map fun cellVolume =>
    naturalVolume stats volume db.toPairDistances s.atomSpecies / myPackingFactor / cellVolume

variable [IsStrictOrderedRing R] {volume : R → R} (db : SpeciesDatabase κ R)

omit [LinearOrder κ] in
theorem SpeciesDatabase.halfDistance_nonneg (s t : κ) :
    0 ≤ (halfDistance db.toPairDistances s t).getD 0 := by
  rw [halfDistance]
  cases hd : db.getSpeciesPairDistance s t with
  | none => simp
  | some d => simpa using db.nonneg s t d hd

theorem SpeciesDatabase.meanRadius_nonneg (particles : List κ) (s : κ) :
    0 ≤ meanRadius db.toPairDistances particles s :=
  div_nonneg (Finset.sum_nonneg fun t _ => db.halfDistance_nonneg s t) (Nat.cast_nonneg _)

/-- The mean is positive if one of the distances is. -/
theorem SpeciesDatabase.meanRadius_pos_iff (particles : List κ) (s : κ) :
    0 < meanRadius db.toPairDistances particles s
      ↔ ∃ t ∈ particles, ∃ d, db.getSpeciesPairDistance s t = some d ∧ 0 < d := by
  constructor
  · intro hpos
    by_contra hnone
    refine hpos.ne' ?_
    rw [meanRadius, Finset.sum_eq_zero, zero_div]
    intro t ht
    have hmem : t ∈ particles := by
      simpa using (Finset.mem_filter.mp ht).1
    rw [halfDistance]
    cases hd : db.getSpeciesPairDistance s t with
    | none => simp
    | some d =>
        have hle : ¬ 0 < d := fun h => hnone ⟨t, hmem, d, hd, h⟩
        have hzero : d = 0 := le_antisymm (not_lt.mp hle) (db.nonneg s t d hd)
        simp [hzero]
  · rintro ⟨t, ht, d, hd, hpos⟩
    have hhalf : halfDistance db.toPairDistances s t = some (1 / 2 * d) := by
      rw [halfDistance, hd, Option.map_some]
    have hmem : t ∈ knownSpecies db.toPairDistances particles s := by
      simp [knownSpecies, ht, hhalf]
    refine div_pos (Finset.sum_pos' (fun t _ => db.halfDistance_nonneg s t) ⟨t, hmem, ?_⟩)
      (Nat.cast_pos.mpr (Finset.card_pos.mpr ⟨t, hmem⟩))
    rw [hhalf, Option.getD_some]
    positivity

section Volume

variable (hzero : volume 0 = 0) (hpos : ∀ r, 0 < r → 0 < volume r)

include hzero hpos

theorem SpeciesDatabase.particleVolume_nonneg (particles : List κ) (s : κ) :
    0 ≤ particleVolume volume db.toPairDistances particles s := by
  rw [particleVolume]
  split
  · rcases (db.meanRadius_nonneg particles s).eq_or_lt with h | h
    · rw [← h, hzero]
    · exact (hpos _ h).le
  · exact le_refl 0

/-- A particle takes space if its species has a positive distance to some species present. -/
theorem SpeciesDatabase.particleVolume_pos_iff (particles : List κ) (s : κ) :
    0 < particleVolume volume db.toPairDistances particles s
      ↔ ∃ t ∈ particles, ∃ d, db.getSpeciesPairDistance s t = some d ∧ 0 < d := by
  rw [← db.meanRadius_pos_iff, particleVolume]
  split
  · constructor
    · intro h
      refine (db.meanRadius_nonneg particles s).lt_of_ne fun heq => h.ne' ?_
      rw [← heq, hzero]
    · exact hpos _
  · next hempty =>
      refine iff_of_false (lt_irrefl 0) ?_
      rw [meanRadius, Finset.not_nonempty_iff_eq_empty.mp hempty]
      simp

theorem SpeciesDatabase.statedVolume_pos_iff (particles : List κ) :
    0 < statedVolume volume db.toPairDistances particles
      ↔ ∃ s ∈ particles, ∃ t ∈ particles, ∃ d, db.getSpeciesPairDistance s t = some d ∧ 0 < d := by
  constructor
  · intro hsum
    by_contra hnone
    refine hsum.ne' (List.sum_eq_zero fun v hv => ?_)
    obtain ⟨s, hs, rfl⟩ := List.mem_map.mp hv
    refine le_antisymm (not_lt.mp fun h => hnone ⟨s, hs, ?_⟩)
      (db.particleVolume_nonneg hzero hpos particles s)
    exact (db.particleVolume_pos_iff hzero hpos particles s).mp h
  · rintro ⟨s, hs, hknown⟩
    have hterm : 0 < particleVolume volume db.toPairDistances particles s :=
      (db.particleVolume_pos_iff hzero hpos particles s).mpr hknown
    refine hterm.trans_le (List.single_le_sum (fun v hv => ?_) _ (List.mem_map_of_mem hs))
    obtain ⟨s', _, rfl⟩ := List.mem_map.mp hv
    exact db.particleVolume_nonneg hzero hpos particles s'

/-- **When the factor is positive.**  With a unit cell of positive volume and a positive packing
factor, the factor passed to `scale` is positive if and only if the database knows a positive
distance between two species of the structure, which may be one and the same. -/
theorem factor_pos_iff (stats : RunningStats R S) {s : Structure κ R} {cellVolume : R}
    (hcell : s.unitCell = some cellVolume) (hcellVolume : 0 < cellVolume) {myPackingFactor : R}
    (hpacking : 0 < myPackingFactor) :
    (∃ factor, input stats volume db myPackingFactor s = some factor ∧ 0 < factor)
      ↔ ∃ a ∈ s.atomSpecies, ∃ b ∈ s.atomSpecies, ∃ d,
          db.getSpeciesPairDistance a b = some d ∧ 0 < d := by
  rw [← db.statedVolume_pos_iff hzero hpos, input, hcell, Option.map_some,
    naturalVolume_eq_stated]
  constructor
  · rintro ⟨factor, hfactor, hfactor_pos⟩
    rw [← Option.some.inj hfactor, div_pos_iff_of_pos_right hcellVolume,
      div_pos_iff_of_pos_right hpacking] at hfactor_pos
    exact hfactor_pos
  · exact fun hstated => ⟨_, rfl, div_pos (div_pos hstated hpacking) hcellVolume⟩

end Volume

end Factor

/-! ### Instances -/

theorem foldl_sumAndCount (values : List ℚ) (s : ℚ × ℕ) :
    values.foldl (fun s x => (s.1 + x, s.2 + 1)) s = (s.1 + values.sum, s.2 + values.length) := by
  induction values generalizing s with
  | nil => simp
  | cons x values ih =>
      rw [List.foldl_cons, ih, List.sum_cons, List.length_cons]
      exact Prod.ext (by ring) (by omega)

/-- Statistics that keep the sum and the number of the values. -/
def sumAndCount : RunningStats ℚ (ℚ × ℕ) where
  init := (0, 0)
  insert s x := (s.1 + x, s.2 + 1)
  mean s := s.1 / s.2
  mean_eq values _ := by simp [foldl_sumAndCount]

/-- The volume of a sphere, with the circle constant as a double holds it. -/
def sphereVolume (r : ℚ) : ℚ := 4 / 3 * (3141592653589793 / 1000000000000000) * r ^ 3

/-- A database that knows the distance of species `1` to itself, and that of `1` and `2`. -/
def someDistances : SpeciesDatabase ℕ ℚ where
  getSpeciesPairDistance s t :=
    if s = 1 ∧ t = 1 then some 2
    else if (s = 1 ∧ t = 2) ∨ (s = 2 ∧ t = 1) then some 3
    else none
  symm := by grind
  nonneg := by grind

/-- A database that knows no distance. -/
def noDistances : SpeciesDatabase ℕ ℚ where
  getSpeciesPairDistance _ _ := none
  symm _ _ := rfl
  nonneg := by simp

/-- Two atoms of one species and one of another, in two orders. -/
theorem naturalVolume_eq_at :
    naturalVolume sumAndCount sphereVolume someDistances.toPairDistances [2, 1, 1]
      = naturalVolume sumAndCount sphereVolume someDistances.toPairDistances [1, 2, 1] :=
  (naturalVolume_eq sumAndCount sphereVolume someDistances.toPairDistances [1, 2, 1]).2
    [2, 1, 1] (List.Perm.swap 2 1 [1])

/-- One atom of a species with a known distance is enough. -/
theorem factor_pos_iff_at :
    ∃ factor, input sumAndCount sphereVolume someDistances (1 / 10) ⟨[3, 1], some 5⟩
      = some factor ∧ 0 < factor :=
  (factor_pos_iff someDistances (by norm_num [sphereVolume])
    (fun r hr => by
      rw [sphereVolume]
      positivity) sumAndCount rfl (by norm_num) (by norm_num)).mpr
    ⟨1, by simp, 1, by simp, 2, rfl, by norm_num⟩

/-- **Without any known distance the structure is scaled to nothing.** -/
theorem factor_zero :
    input sumAndCount sphereVolume noDistances (1 / 10) ⟨[1], some 5⟩ = some 0 ∧
      ¬ ∃ factor, input sumAndCount sphereVolume noDistances (1 / 10) ⟨[1], some 5⟩
        = some factor ∧ 0 < factor := by
  have hzero : input sumAndCount sphereVolume noDistances (1 / 10) ⟨[1], some 5⟩ = some 0 := by
    rw [input, Option.map_some, naturalVolume_eq_stated]
    simp [statedVolume, particleVolume, knownSpecies, halfDistance, noDistances]
  rw [hzero]
  exact ⟨rfl, by simp⟩

end AutoScale

end StructurePipe.Blocks
