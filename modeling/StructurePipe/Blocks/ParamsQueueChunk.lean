import Mathlib.Order.Bounds.Basic
import StructurePipe.Blocks.ParamsQueueStart

/-!
# How much work to take next

After each chunk `updateWorkChunkSize` looks for the number of work items that take as long as the
target.  Durations cannot be divided, so it counts up until the mean, multiplied, reaches the target.
The counter is an `int` and the ticks of a duration are 64-bit; neither must overflow.  The chunk size
is a `size_t`.

* `raise_eq_some_iff` — **what the loop finds:** the first count in its range that reaches the target,
  if the products up to it fit;
* `updateWorkChunkSize_isSome_iff` — when the loop ends and nothing overflows;
* `chunk_ends_iff` — **a history of durations, the default target among the targets;**
* `chunk_least_iff` — **when the chunk is the least count that reaches the target,** and when a second
  call changes nothing.
-/

namespace StructurePipe.Blocks

namespace RunPotentialParamsQueue

/-- The smallest `int`. -/
def INT_MIN : ℤ := -2 ^ 31

/-- Ten minutes, in microseconds. -/
def DEFAULT_TARGET_CHUNK_TIME : ℤ := 10 * 60 * 10 ^ 6

/-- The mean of the recorded durations, truncated to microseconds. -/
def meanDuration (myWorkItemsTiming : List ℕ) : ℤ :=
  ((myWorkItemsTiming.sum / myWorkItemsTiming.length : ℕ) : ℤ)

/-! ### Conversions -/

/-- The conversion, spelled out. -/
theorem toInt_eq (n : ℕ) : toInt n =
    if (n : ℤ) % 4294967296 < 2147483648 then (n : ℤ) % 4294967296
    else (n : ℤ) % 4294967296 - 4294967296 := by
  have h : (2 ^ 32 : ℕ) = 4294967296 := by norm_num
  unfold toInt
  rw [h, Int.bmod_def]
  simp

theorem toInt_le_INT_MAX (n : ℕ) : toInt n ≤ INT_MAX := by
  have hmax : INT_MAX = 2147483647 := rfl
  rw [toInt_eq, hmax]
  split <;> omega

/-- One more than a `size_t`, as an `int`. -/
theorem toInt_succ (n : ℕ) : toInt (n + 1) = if toInt n = INT_MAX then INT_MIN else toInt n + 1 := by
  have hmax : INT_MAX = 2147483647 := rfl
  have hmin : INT_MIN = -2147483648 := rfl
  rw [toInt_eq, toInt_eq, hmax, hmin]
  push_cast
  split <;> split <;> split <;> omega

/-! ### The loop -/

theorem times_eq_some_iff {m i d : ℤ} : times m i = some d ↔ Fits (m * i) ∧ m * i = d := by
  rw [times]
  split
  · next h => simp [h]
  · next h => simp [h]

/-- What is between two products that fit. -/
theorem fits_between {m i j k : ℤ} (hm : 0 ≤ m) (hi : Fits (m * i)) (hk : Fits (m * k))
    (hij : i ≤ j) (hjk : j ≤ k) : Fits (m * j) :=
  ⟨hi.1.trans (mul_le_mul_of_nonneg_left hij hm),
    (mul_le_mul_of_nonneg_left hjk hm).trans_lt hk.2⟩

/-- One round: the count is found, or the next one is looked at. -/
theorem raise_succ_eq_some_iff {m t : ℤ} (ht : IsDuration t) (fuel : ℕ) (i j : ℤ) :
    raise m t (fuel + 1) i = some j ↔
      Fits (m * i) ∧ (t ≤ m * i ∧ i = j ∨ m * i < t ∧ raise m t fuel (i + 1) = some j) := by
  rw [raise, Option.bind_eq_some_iff]
  constructor
  · rintro ⟨d, hd, hj⟩
    obtain ⟨hfits, rfl⟩ := times_eq_some_iff.mp hd
    refine ⟨hfits, ?_⟩
    split at hj
    · next hlt => exact Or.inr ⟨ht.shorter_iff.mp hlt, hj⟩
    · next hge =>
        rw [ht.shorter_iff, not_lt] at hge
        exact Or.inl ⟨hge, Option.some.inj hj⟩
  · rintro ⟨hfits, hcases⟩
    refine ⟨m * i, times_eq_some_iff.mpr ⟨hfits, rfl⟩, ?_⟩
    rcases hcases with ⟨hge, rfl⟩ | ⟨hlt, hj⟩
    · exact if_neg (by rwa [ht.shorter_iff, not_lt])
    · rwa [if_pos (ht.shorter_iff.mpr hlt)]

/-- **What the loop finds:** the first count in its range that reaches the target, if all the products
up to it fit. -/
theorem raise_eq_some_iff {m t : ℤ} (hm : 0 ≤ m) (ht : IsDuration t) (fuel : ℕ) (i j : ℤ) :
    raise m t fuel i = some j ↔ i ≤ j ∧ j ≤ i + fuel ∧ t ≤ m * j ∧
      (∀ k, i ≤ k → k < j → m * k < t) ∧ Fits (m * i) ∧ Fits (m * j) := by
  induction fuel generalizing i with
  | zero =>
      have hzero : raise m t 0 i = some j ↔ Fits (m * i) ∧ t ≤ m * i ∧ i = j := by
        rw [raise, Option.bind_eq_some_iff]
        constructor
        · rintro ⟨d, hd, hj⟩
          obtain ⟨hfits, rfl⟩ := times_eq_some_iff.mp hd
          split at hj
          · exact absurd hj (by simp)
          · next hge =>
              rw [ht.shorter_iff, not_lt] at hge
              exact ⟨hfits, hge, Option.some.inj hj⟩
        · rintro ⟨hfits, hge, rfl⟩
          refine ⟨m * i, times_eq_some_iff.mpr ⟨hfits, rfl⟩, if_neg ?_⟩
          rwa [ht.shorter_iff, not_lt]
      rw [hzero]
      constructor
      · rintro ⟨hfits, hge, rfl⟩
        exact ⟨le_rfl, by omega, hge, fun k _ _ => by omega, hfits, hfits⟩
      · rintro ⟨hle, hmax, hge, _, hfits, _⟩
        have hij : i = j := by omega
        exact ⟨hfits, by rwa [hij], hij⟩
  | succ fuel ih =>
      rw [raise_succ_eq_some_iff ht, ih]
      constructor
      · rintro ⟨hfits, ⟨hge, rfl⟩ | ⟨hlt, hle, hmax, hge, hleast, _, hlast⟩⟩
        · exact ⟨le_rfl, by omega, hge, fun k _ _ => by omega, hfits, hfits⟩
        · refine ⟨by omega, by push_cast; omega, hge, fun k hik hkj => ?_, hfits, hlast⟩
          rcases eq_or_lt_of_le hik with rfl | hlater
          · exact hlt
          · exact hleast k (by omega) hkj
      · rintro ⟨hle, hmax, hge, hleast, hfits, hlast⟩
        refine ⟨hfits, ?_⟩
        rcases eq_or_lt_of_le hle with rfl | hlater
        · exact Or.inl ⟨hge, rfl⟩
        · exact Or.inr ⟨hleast i le_rfl hlater, by omega, by push_cast at hmax; omega, hge,
            fun k hik hkj => hleast k (by omega) hkj,
            fits_between hm hfits hlast (by omega) (by omega), hlast⟩

/-- The chunk sizes that take as long as the target. -/
def reaching (m t : ℤ) : Set ℕ := {i | 1 ≤ i ∧ t ≤ m * i}

theorem exists_isLeast_reaching {m t : ℤ} (hm : 0 < m) (ht : 0 < t) :
    ∃ n, IsLeast (reaching m t) n := by
  have hself : t.toNat ∈ reaching m t := by
    have hcast : (t.toNat : ℤ) = t := Int.toNat_of_nonneg ht.le
    refine ⟨by omega, ?_⟩
    rw [hcast]
    exact le_mul_of_one_le_left ht.le hm
  exact ⟨_, Nat.sInf_mem ⟨_, hself⟩, fun _ hi => Nat.sInf_le hi⟩

/-- The counts that reach the target are those from the least one on. -/
theorem le_mul_iff_of_isLeast {m t : ℤ} (hm : 0 < m) (ht : 0 < t) {n : ℕ}
    (hn : IsLeast (reaching m t) n) (i : ℤ) : t ≤ m * i ↔ n ≤ i := by
  constructor
  · intro hreach
    have hpos : 0 < i := pos_of_mul_pos_right (ht.trans_le hreach) hm.le
    have hcast : (i.toNat : ℤ) = i := Int.toNat_of_nonneg hpos.le
    have hle : n ≤ i.toNat := hn.2 ⟨by omega, by rwa [hcast]⟩
    omega
  · intro hle
    exact hn.1.2.trans (mul_le_mul_of_nonneg_left hle hm.le)

/-- What the least count takes is the least multiple of the mean from the target on. -/
theorem mul_eq_of_isLeast {m t : ℤ} (hm : 0 < m) (ht : 0 < t) {n : ℕ}
    (hn : IsLeast (reaching m t) n) : m * n = t + -t % m := by
  have hlow : t ≤ m * n := hn.1.2
  have hhigh : m * (n - 1) < t := by
    by_contra hreach
    have := (le_mul_iff_of_isLeast hm ht hn _).mp (not_lt.mp hreach)
    omega
  have hrem : -t % m = m * n - t := by
    have hsplit : -t = (m * n - t) + m * (-n) := by ring
    rw [hsplit, Int.add_mul_emod_self_left]
    refine Int.emod_eq_of_lt (by omega) ?_
    have : m * (n - 1) = m * n - m := by ring
    omega
  omega

/-- The loop ends at the least count, or where it starts if that is later. -/
theorem raise_eq_some_iff_of_isLeast {m t : ℤ} (hm : 0 < m) (ht : 0 < t) (hdur : IsDuration t)
    {n : ℕ} (hn : IsLeast (reaching m t) n) {i : ℤ} (hi : i ≤ INT_MAX) (j : ℤ) :
    raise m t (INT_MAX - i).toNat i = some j ↔
      j = max i n ∧ (n : ℤ) ≤ INT_MAX ∧ Fits (m * i) ∧ Fits (m * n) := by
  have hreach := le_mul_iff_of_isLeast hm ht hn
  have hpos : 0 ≤ m * n := mul_nonneg hm.le (Int.natCast_nonneg n)
  rw [raise_eq_some_iff hm.le hdur]
  constructor
  · rintro ⟨hij, hmax, hge, hleast, hfirst, hlast⟩
    have hnj : n ≤ j := (hreach j).mp hge
    have hjmax : j = max i n := by
      rcases eq_or_lt_of_le hij with rfl | hlt
      · exact (max_eq_left hnj).symm
      · have hbefore := hleast (j - 1) (by omega) (by omega)
        rw [← not_le, hreach] at hbefore
        omega
    refine ⟨hjmax, by omega, hfirst, ?_⟩
    exact ⟨by omega, (mul_le_mul_of_nonneg_left hnj hm.le).trans_lt hlast.2⟩
  · rintro ⟨rfl, hmax, hfirst, hlast⟩
    refine ⟨le_max_left _ _, by omega, (hreach _).mpr (le_max_right _ _), fun k hik hk => ?_, hfirst, ?_⟩
    · rw [← not_le, hreach]
      omega
    · rcases max_choice i n with h | h
      · rwa [h]
      · rwa [h]

/-- The later of two counts, of which one is a chunk size. -/
theorem natCast_toNat_max (i : ℤ) (n : ℕ) : ((max i n).toNat : ℤ) = max i n := by omega

/-! ### The update -/

/-- Where the count starts. -/
def firstCount (b : RunPotentialParamsQueue) (m t : ℤ) : ℤ :=
  toInt (if shorter t (m * toInt b.myNumWorkItemsChunk) then 1 else b.myNumWorkItemsChunk + 1)

/-- The products of the mean with the present chunk, with the count tried first, and with the least
count that reaches the target are 64-bit. -/
structure ProductsFit (b : RunPotentialParamsQueue) (m t : ℤ) : Prop where
  full : Fits (m * toInt b.myNumWorkItemsChunk)
  first : Fits (m * b.firstCount m t)
  last : Fits (t + -t % m)

theorem productsFit_iff {b : RunPotentialParamsQueue} {m t : ℤ} : b.ProductsFit m t ↔
    Fits (m * toInt b.myNumWorkItemsChunk) ∧ Fits (m * b.firstCount m t) ∧ Fits (t + -t % m) :=
  ⟨fun h => ⟨h.full, h.first, h.last⟩, fun ⟨full, first, last⟩ => ⟨full, first, last⟩⟩

instance (b : RunPotentialParamsQueue) (m t : ℤ) : Decidable (b.ProductsFit m t) :=
  decidable_of_iff' _ productsFit_iff

theorem chunk_eq_iff {b : RunPotentialParamsQueue} {n k : ℕ} :
    { b with myNumWorkItemsChunk := n } = { b with myNumWorkItemsChunk := k } ↔ n = k := by
  simp

/-- The block with the chunk size it has. -/
theorem eq_chunk_iff {b : RunPotentialParamsQueue} {n : ℕ} :
    b = { b with myNumWorkItemsChunk := n } ↔ b.myNumWorkItemsChunk = n := by
  cases b
  simp

theorem firstCount_le_INT_MAX (b : RunPotentialParamsQueue) (m t : ℤ) :
    b.firstCount m t ≤ INT_MAX := toInt_le_INT_MAX _

theorem updateWorkChunkSize_of_lt (b : RunPotentialParamsQueue) {m t : ℤ} (hm : IsDuration m)
    (h : t < m) : b.updateWorkChunkSize m t = some { b with myNumWorkItemsChunk := 1 } :=
  if_pos (hm.shorter_iff.mpr h)

theorem updateWorkChunkSize_of_le (b : RunPotentialParamsQueue) {m t : ℤ} (hm : IsDuration m)
    (h : m ≤ t) : b.updateWorkChunkSize m t
      = (times m (toInt b.myNumWorkItemsChunk)).bind fun _ =>
          (raise m t (INT_MAX - b.firstCount m t).toNat (b.firstCount m t)).map fun i =>
            { b with myNumWorkItemsChunk := ofInt i } := by
  rw [updateWorkChunkSize, if_neg (by rwa [hm.shorter_iff, not_lt])]
  refine Option.bind_congr fun full hfull => ?_
  obtain ⟨_, rfl⟩ := times_eq_some_iff.mp hfull
  rfl

/-- **The update, for a mean that is not longer than the target.** -/
theorem updateWorkChunkSize_eq_some_iff (b : RunPotentialParamsQueue) {m t : ℤ} (hpos : 0 < m)
    (hm : IsDuration m) (ht : IsDuration t) (hle : m ≤ t) {n : ℕ} (hn : IsLeast (reaching m t) n)
    {b' : RunPotentialParamsQueue} :
    b.updateWorkChunkSize m t = some b' ↔ (t ≤ m * INT_MAX ∧ b.ProductsFit m t) ∧
      b' = { b with myNumWorkItemsChunk := (max (b.firstCount m t) n).toNat } := by
  have hone : 1 ≤ n := hn.1.1
  have hstart := b.firstCount_le_INT_MAX m t
  have htpos : 0 < t := hpos.trans_le hle
  have hofInt : (n : ℤ) ≤ INT_MAX →
      ofInt (max (b.firstCount m t) n) = (max (b.firstCount m t) n).toNat := by
    intro hmax
    have hcast : (ofInt (max (b.firstCount m t) n) : ℤ) = max (b.firstCount m t) n :=
      ofInt_of_le ((Int.ofNat_le.mpr hone).trans (le_max_right _ _)) (max_le hstart hmax)
    exact (Int.toNat_natCast _).symm.trans (congrArg Int.toNat hcast)
  rw [b.updateWorkChunkSize_of_le hm hle, le_mul_iff_of_isLeast hpos htpos hn, productsFit_iff,
    ← mul_eq_of_isLeast hpos htpos hn, Option.bind_eq_some_iff]
  constructor
  · rintro ⟨full, hfull, hb'⟩
    obtain ⟨i, hi, rfl⟩ := Option.map_eq_some_iff.mp hb'
    obtain ⟨hend, hmax, hfirst, hlast⟩ :=
      (raise_eq_some_iff_of_isLeast hpos htpos ht hn hstart i).mp hi
    rw [hend, hofInt hmax]
    exact ⟨⟨hmax, (times_eq_some_iff.mp hfull).1, hfirst, hlast⟩, rfl⟩
  · rintro ⟨⟨hmax, hfits, hfirst, hlast⟩, rfl⟩
    refine ⟨_, times_eq_some_iff.mpr ⟨hfits, rfl⟩, ?_⟩
    rw [(raise_eq_some_iff_of_isLeast hpos htpos ht hn hstart _).mpr ⟨rfl, hmax, hfirst, hlast⟩,
      Option.map_some, hofInt hmax]

/-- **When the loop ends without overflow.** -/
theorem updateWorkChunkSize_isSome_iff (b : RunPotentialParamsQueue) {m t : ℤ} (hpos : 0 ≤ m)
    (hm : IsDuration m) (htpos : 0 < t) (ht : IsDuration t) :
    (b.updateWorkChunkSize m t).isSome ↔ t < m ∨ t ≤ m * INT_MAX ∧ b.ProductsFit m t := by
  rcases lt_or_ge t m with hlt | hle
  · rw [b.updateWorkChunkSize_of_lt hm hlt]
    exact iff_of_true rfl (Or.inl hlt)
  · rw [or_iff_right hle.not_gt]
    rcases hpos.eq_or_lt with rfl | hpos
    · -- no multiple of nothing reaches the target
      have hnone : b.updateWorkChunkSize 0 t = none := by
        rw [b.updateWorkChunkSize_of_le hm hle, Option.bind_eq_none_iff]
        intro full _
        rw [Option.map_eq_none_iff, Option.eq_none_iff_forall_ne_some]
        intro j hj
        have hreach := ((raise_eq_some_iff le_rfl ht _ _ j).mp hj).2.2.1
        omega
      rw [hnone]
      refine iff_of_false Bool.false_ne_true fun h => ?_
      have := h.1
      omega
    · obtain ⟨n, hn⟩ := exists_isLeast_reaching hpos htpos
      rw [Option.isSome_iff_exists]
      simp only [b.updateWorkChunkSize_eq_some_iff hpos hm ht hle hn]
      simp

theorem meanDuration_eq_zero_iff {timings : List ℕ} (h : timings ≠ []) :
    meanDuration timings = 0 ↔ timings.sum < timings.length := by
  have hpos : 0 < timings.length := List.length_pos_iff.mpr h
  rw [meanDuration, Nat.cast_eq_zero, Nat.div_eq_zero_iff]
  omega

/-- The mean of durations of which the sum is one. -/
theorem isDuration_meanDuration {timings : List ℕ} (h : IsDuration timings.sum) :
    IsDuration (meanDuration timings) := by
  have hpos : 0 ≤ meanDuration timings := Int.natCast_nonneg _
  have hle : meanDuration timings ≤ timings.sum := Int.ofNat_le.mpr (Nat.div_le_self _ _)
  exact ⟨by omega, hle.trans_lt h.2⟩

/-- With the default target the products of a mean that is not longer fit, for every chunk size. -/
theorem productsFit_default (b : RunPotentialParamsQueue) {m : ℤ} (hpos : 0 < m)
    (hle : m ≤ DEFAULT_TARGET_CHUNK_TIME) : b.ProductsFit m DEFAULT_TARGET_CHUNK_TIME := by
  have htarget : DEFAULT_TARGET_CHUNK_TIME = 600000000 := rfl
  have hfits : ∀ n, Fits (m * toInt n) := by
    intro n
    have hlow : -2147483648 ≤ toInt n := by
      rw [toInt_eq]
      split <;> omega
    have hhigh : toInt n ≤ 2147483647 := toInt_le_INT_MAX n
    rw [htarget] at hle
    refine ⟨?_, ?_⟩
    · nlinarith
    · nlinarith
  refine ⟨hfits _, hfits _, ?_⟩
  have hrem : -DEFAULT_TARGET_CHUNK_TIME % m < m := Int.emod_lt_of_pos _ hpos
  have hrem' : 0 ≤ -DEFAULT_TARGET_CHUNK_TIME % m := Int.emod_nonneg _ hpos.ne'
  rw [htarget] at hle hrem hrem' ⊢
  exact ⟨by omega, by omega⟩

/-- **When sizing the chunk ends,** for a history of durations whose sum is a duration.  With the
default target a mean of one microsecond is enough; with a mean of less, no count at all ends the
loop. -/
theorem chunk_ends_iff (b : RunPotentialParamsQueue) {timings : List ℕ} (hne : timings ≠ [])
    (hclock : IsDuration timings.sum) {target : ℤ} (htarget : 0 < target)
    (hduration : IsDuration target) :
    ((b.updateWorkChunkSize (meanDuration timings) target).isSome ↔
      target < meanDuration timings ∨
        target ≤ meanDuration timings * INT_MAX ∧ b.ProductsFit (meanDuration timings) target) ∧
    (1 ≤ meanDuration timings →
      (b.updateWorkChunkSize (meanDuration timings) DEFAULT_TARGET_CHUNK_TIME).isSome) ∧
    (timings.sum < timings.length → ∀ i : ℤ, meanDuration timings * i < target) := by
  have hmean : 0 ≤ meanDuration timings := Int.natCast_nonneg _
  have hdur := isDuration_meanDuration hclock
  refine ⟨b.updateWorkChunkSize_isSome_iff hmean hdur htarget hduration, fun hone => ?_,
    fun hshort i => ?_⟩
  · rw [b.updateWorkChunkSize_isSome_iff hmean hdur (by decide) (by decide)]
    rcases lt_or_ge DEFAULT_TARGET_CHUNK_TIME (meanDuration timings) with hlt | hle
    · exact Or.inl hlt
    · refine Or.inr ⟨?_, b.productsFit_default (by omega) hle⟩
      calc DEFAULT_TARGET_CHUNK_TIME
          ≤ 1 * INT_MAX := by decide
        _ ≤ meanDuration timings * INT_MAX := mul_le_mul_of_nonneg_right hone (by decide)
  · rw [(meanDuration_eq_zero_iff hne).mpr hshort, zero_mul]
    exact htarget

/-- Items of half a minute. -/
theorem chunk_ends_half_minute : [30000000] ≠ [] ∧ 0 < DEFAULT_TARGET_CHUNK_TIME ∧
    ((({} : RunPotentialParamsQueue).updateWorkChunkSize (meanDuration [30000000])
        DEFAULT_TARGET_CHUNK_TIME).isSome ↔
      DEFAULT_TARGET_CHUNK_TIME < meanDuration [30000000] ∨
        DEFAULT_TARGET_CHUNK_TIME ≤ meanDuration [30000000] * INT_MAX ∧
          ({} : RunPotentialParamsQueue).ProductsFit (meanDuration [30000000])
            DEFAULT_TARGET_CHUNK_TIME) ∧
    (({} : RunPotentialParamsQueue).updateWorkChunkSize (meanDuration [30000000])
      DEFAULT_TARGET_CHUNK_TIME).isSome := by
  have hne : [30000000] ≠ ([] : List ℕ) := by decide
  obtain ⟨hiff, hdefault, _⟩ := chunk_ends_iff {} hne (by decide)
    (by decide : 0 < DEFAULT_TARGET_CHUNK_TIME) (by decide)
  exact ⟨hne, by decide, hiff, hdefault (by decide)⟩

/-- Two items of less than a microsecond: with the first chunk size and the default target the loop
never ends. -/
theorem zero_mean_never_ends :
    ({} : RunPotentialParamsQueue).updateWorkChunkSize (meanDuration [0, 0])
      DEFAULT_TARGET_CHUNK_TIME = none ∧
    ∀ i : ℤ, meanDuration [0, 0] * i < DEFAULT_TARGET_CHUNK_TIME := by
  have hmean : meanDuration [0, 0] = 0 := by decide
  constructor
  · rw [hmean, ← Option.not_isSome_iff_eq_none,
      updateWorkChunkSize_isSome_iff _ le_rfl (by decide) (by decide) (by decide)]
    decide
  · intro i
    rw [hmean, zero_mul]
    decide

/-! ### The least count -/

/-- If a product is `not_a_date_time`, the next one overflows. -/
theorem not_fits_succ {m : ℤ} (hm : 0 < m) {n : ℕ} (h : m * toInt n = NOT_A_DATE_TIME) :
    ¬ Fits (m * toInt (n + 1)) := by
  have hspecial : NOT_A_DATE_TIME = 9223372036854775806 := rfl
  have hmax : INT_MAX = 2147483647 := rfl
  have hmin : INT_MIN = -2147483648 := rfl
  have hle := toInt_le_INT_MAX n
  have hlarge : 4294967298 ≤ m := by
    by_contra hsmall
    have hprod : m * toInt n ≤ 4294967297 * 2147483647 :=
      mul_le_mul (by omega) (by omega) (by
        by_contra hneg
        have : m * toInt n ≤ 0 := mul_nonpos_of_nonneg_of_nonpos hm.le (by omega)
        omega) (by omega)
    omega
  rintro ⟨hlow, hhigh⟩
  rw [toInt_succ] at hlow hhigh
  split at hlow
  · rw [hmin] at hlow
    omega
  · next hne =>
      rw [if_neg hne, mul_add, h, mul_one] at hhigh
      omega

/-- The first count is one if the present chunk takes longer than the target, else the next chunk. -/
theorem firstCount_cases (b : RunPotentialParamsQueue) {m t : ℤ} (ht : IsDuration t) :
    (t < m * toInt b.myNumWorkItemsChunk ∧ m * toInt b.myNumWorkItemsChunk ≠ NOT_A_DATE_TIME ∧
        b.firstCount m t = 1) ∨
      ((m * toInt b.myNumWorkItemsChunk ≤ t ∨
          m * toInt b.myNumWorkItemsChunk = NOT_A_DATE_TIME) ∧
        b.firstCount m t = toInt (b.myNumWorkItemsChunk + 1)) := by
  rw [firstCount]
  split
  · next hlong =>
      obtain ⟨hlt, hne⟩ := ht.shorter_right_iff.mp hlong
      exact Or.inl ⟨hlt, hne, by decide⟩
  · next hshort =>
      rw [ht.shorter_right_iff, not_and_or, not_lt, not_not] at hshort
      exact Or.inr ⟨hshort, rfl⟩

/-- A count that takes exactly the target is the least that reaches it. -/
theorem eq_of_isLeast {m t : ℤ} (hm : 0 < m) (ht : 0 < t) {n : ℕ}
    (hn : IsLeast (reaching m t) n) {i : ℤ} (hi : m * i = t) : i = n := by
  have hreach := le_mul_iff_of_isLeast hm ht hn
  have hle : n ≤ i := (hreach i).mp hi.ge
  have hbefore : ¬ t ≤ m * (i - 1) := by
    rw [mul_sub, hi]
    omega
  rw [hreach] at hbefore
  omega

/-- The count starts at or before the least one exactly if the present chunk does not take exactly the
target, the largest `int` apart. -/
theorem firstCount_le_iff (b : RunPotentialParamsQueue) {m t : ℤ} (hm : 0 < m) (hpos : 0 < t)
    (ht : IsDuration t) {n : ℕ} (hn : IsLeast (reaching m t) n)
    (hfits : Fits (m * b.firstCount m t)) : b.firstCount m t ≤ n ↔
      (m * toInt b.myNumWorkItemsChunk = t → toInt b.myNumWorkItemsChunk = INT_MAX) := by
  have hone : 1 ≤ n := hn.1.1
  have hmin : INT_MIN = -2147483648 := rfl
  rcases b.firstCount_cases (m := m) ht with ⟨hlt, _, hfirst⟩ | ⟨hle | hspecial, hfirst⟩
  · rw [hfirst]
    exact iff_of_true (by omega) fun hexact => absurd hexact hlt.ne'
  · rw [hfirst, toInt_succ]
    split
    · next hmax => exact iff_of_true (by omega) fun _ => hmax
    · next hmax =>
        rcases hle.eq_or_lt with hexact | hless
        · have hsame := eq_of_isLeast hm hpos hn hexact
          exact iff_of_false (by omega) fun h => hmax (h hexact)
        · rw [← not_le, le_mul_iff_of_isLeast hm hpos hn] at hless
          refine iff_of_true (by omega) fun hexact => absurd ?_ hless
          exact (eq_of_isLeast hm hpos hn hexact).ge
  · rw [hfirst] at hfits
    exact absurd hfits (not_fits_succ hm hspecial)

/-- **When the chunk becomes the least count.** -/
theorem updateWorkChunkSize_isLeast_iff (b : RunPotentialParamsQueue) {m t : ℤ} (hpos : 0 < m)
    (hm : IsDuration m) (htpos : 0 < t) (ht : IsDuration t) {n : ℕ}
    (hn : IsLeast (reaching m t) n) :
    b.updateWorkChunkSize m t = some { b with myNumWorkItemsChunk := n } ↔
      t ≤ m * INT_MAX ∧
        (m * toInt b.myNumWorkItemsChunk = t → toInt b.myNumWorkItemsChunk = INT_MAX) ∧
        (m ≤ t → b.ProductsFit m t) := by
  have hone : 1 ≤ n := hn.1.1
  rcases lt_or_ge t m with hlt | hle
  · have hn1 : n = 1 := le_antisymm (hn.2 ⟨le_rfl, by omega⟩) hone
    rw [b.updateWorkChunkSize_of_lt hm hlt, hn1]
    refine iff_of_true rfl ⟨?_, fun hexact => ?_, fun h => absurd h hlt.not_ge⟩
    · calc t ≤ m * 1 := by omega
        _ ≤ m * INT_MAX := mul_le_mul_of_nonneg_left (by decide) hpos.le
    · have := eq_of_isLeast hpos htpos hn hexact
      rw [this, hn1] at hexact
      omega
  · rw [b.updateWorkChunkSize_eq_some_iff hpos hm ht hle hn]
    constructor
    · rintro ⟨⟨hmax, hfit⟩, hsize⟩
      refine ⟨hmax, ?_, fun _ => hfit⟩
      have hsame := chunk_eq_iff.mp hsize
      rw [← b.firstCount_le_iff hpos htpos ht hn hfit.first]
      omega
    · rintro ⟨hmax, hexact, hfit⟩
      have hstart := (b.firstCount_le_iff hpos htpos ht hn (hfit hle).first).mpr hexact
      refine ⟨⟨hmax, hfit hle⟩, ?_⟩
      rw [max_eq_right hstart, Int.toNat_natCast]

/-- **When an update changes nothing,** for a chunk that reaches the target. -/
theorem updateWorkChunkSize_eq_self_iff (b : RunPotentialParamsQueue) {m t : ℤ} (hpos : 0 < m)
    (hm : IsDuration m) (htpos : 0 < t) (ht : IsDuration t) (hle : m ≤ t) {n : ℕ}
    (hn : IsLeast (reaching m t) n) (hge : n ≤ b.myNumWorkItemsChunk)
    (hmax : (b.myNumWorkItemsChunk : ℤ) ≤ INT_MAX) (hfits : Fits (m * b.myNumWorkItemsChunk)) :
    b.updateWorkChunkSize m t = some b ↔
      Fits (m * b.firstCount m t) ∧ (b.myNumWorkItemsChunk : ℤ) = max (b.firstCount m t) n := by
  have hcast : (n : ℤ) ≤ b.myNumWorkItemsChunk := Int.ofNat_le.mpr hge
  have htarget : t ≤ m * INT_MAX :=
    (le_mul_iff_of_isLeast hpos htpos hn INT_MAX).mpr (hcast.trans hmax)
  have hlast : Fits (t + -t % m) := by
    have hsmall : m * n ≤ m * b.myNumWorkItemsChunk := mul_le_mul_of_nonneg_left hcast hpos.le
    have hlow : t ≤ m * n := hn.1.2
    rw [← mul_eq_of_isLeast hpos htpos hn]
    exact ⟨by omega, hsmall.trans_lt hfits.2⟩
  rw [b.updateWorkChunkSize_eq_some_iff hpos hm ht hle hn, eq_chunk_iff]
  constructor
  · rintro ⟨⟨_, hproducts⟩, hsize⟩
    exact ⟨hproducts.first, by rw [hsize, natCast_toNat_max]⟩
  · rintro ⟨hfirst, hsize⟩
    have hfull : Fits (m * toInt b.myNumWorkItemsChunk) := by
      rw [toInt_of_le hmax]
      exact hfits
    refine ⟨⟨htarget, hfull, hfirst, hlast⟩, ?_⟩
    rw [← hsize, Int.toNat_natCast]

/-- **What the chunk is after an update:** it reaches the target, is an `int`, and its product fits. -/
theorem updated_chunk {b b' : RunPotentialParamsQueue} {m t : ℤ} (hpos : 0 < m) (hm : IsDuration m)
    (htpos : 0 < t) (ht : IsDuration t) (hle : m ≤ t) {n : ℕ} (hn : IsLeast (reaching m t) n)
    (h : b.updateWorkChunkSize m t = some b') :
    (t ≤ m * INT_MAX ∧ b.ProductsFit m t) ∧ n ≤ b'.myNumWorkItemsChunk ∧
      (b'.myNumWorkItemsChunk : ℤ) ≤ INT_MAX ∧ Fits (m * b'.myNumWorkItemsChunk) := by
  obtain ⟨⟨hmax, hfit⟩, hb'⟩ := (b.updateWorkChunkSize_eq_some_iff hpos hm ht hle hn).mp h
  have hnmax : (n : ℤ) ≤ INT_MAX := (le_mul_iff_of_isLeast hpos htpos hn _).mp hmax
  have hchunk : (b'.myNumWorkItemsChunk : ℤ) = max (b.firstCount m t) n := by
    have hsize := congrArg myNumWorkItemsChunk hb'
    rw [hsize, natCast_toNat_max]
  refine ⟨⟨hmax, hfit⟩, ?_, ?_, ?_⟩
  · rw [← Int.ofNat_le, hchunk]
    exact le_max_right _ _
  · rw [hchunk]
    exact max_le (b.firstCount_le_INT_MAX m t) hnmax
  · rw [hchunk]
    rcases max_choice (b.firstCount m t) (n : ℤ) with hsame | hsame
    · rw [hsame]
      exact hfit.first
    · rw [hsame, mul_eq_of_isLeast hpos htpos hn]
      exact hfit.last

/-- **When a second update changes nothing,** after one that has reached the target. -/
theorem updateWorkChunkSize_again_iff (b : RunPotentialParamsQueue) {m t : ℤ} (hpos : 0 < m)
    (hm : IsDuration m) (htpos : 0 < t) (ht : IsDuration t) (hle : m ≤ t) {n : ℕ}
    (hn : IsLeast (reaching m t) n) (hge : n ≤ b.myNumWorkItemsChunk)
    (hmax : (b.myNumWorkItemsChunk : ℤ) ≤ INT_MAX) (hfits : Fits (m * b.myNumWorkItemsChunk)) :
    b.updateWorkChunkSize m t = some b ↔ b.myNumWorkItemsChunk = n ∧
      t + -t % m ≠ NOT_A_DATE_TIME ∧ (m ∣ t → t = m * INT_MAX ∧ Fits (m * INT_MIN)) := by
  have hone : 1 ≤ n := hn.1.1
  have hmin : INT_MIN = -2147483648 := rfl
  have hspecial : NOT_A_DATE_TIME = 9223372036854775806 := rfl
  have hreach := le_mul_iff_of_isLeast hpos htpos hn
  have hchunk : toInt b.myNumWorkItemsChunk = b.myNumWorkItemsChunk := toInt_of_le hmax
  have hlast := mul_eq_of_isLeast hpos htpos hn
  have hexact : m ∣ t → m * n = t := by
    intro hdvd
    rw [hlast, Int.emod_eq_zero_of_dvd (Int.dvd_neg.mpr hdvd), add_zero]
  have hcases := b.firstCount_cases (m := m) ht
  rw [hchunk] at hcases
  rw [b.updateWorkChunkSize_eq_self_iff hpos hm htpos ht hle hn hge hmax hfits]
  rcases hcases with ⟨hlong, hne, hfirst⟩ | ⟨hle' | hnan, hfirst⟩
  · rw [hfirst, mul_one]
    constructor
    · rintro ⟨_, hsize⟩
      have hsame : b.myNumWorkItemsChunk = n := by omega
      rw [hsame] at hlong hne
      exact ⟨hsame, by rwa [← hlast], fun hdvd => absurd (hexact hdvd) hlong.ne'⟩
    · rintro ⟨hsame, _⟩
      exact ⟨⟨hm.1.le, by have := hm.2; omega⟩, by omega⟩
  · have hsame : b.myNumWorkItemsChunk = n := by
      have hfull : m * (b.myNumWorkItemsChunk : ℤ) = t :=
        le_antisymm hle' ((hreach _).mpr (by omega))
      have := eq_of_isLeast hpos htpos hn hfull
      omega
    rw [hsame] at hle'
    have hfull : m * n = t := le_antisymm hle' hn.1.2
    have hdvd : m ∣ t := ⟨n, hfull.symm⟩
    rw [hfirst, toInt_succ, hchunk]
    split
    · next hlargest =>
        rw [hsame] at hlargest
        constructor
        · rintro ⟨hlow, _⟩
          refine ⟨hsame, ?_, fun _ => ⟨by rw [← hfull, hlargest], hlow⟩⟩
          rw [← hlast, hfull]
          exact ht.ne
        · rintro ⟨_, _, hlow⟩
          exact ⟨(hlow hdvd).2, by omega⟩
    · next hsmaller =>
        refine iff_of_false (fun h => by omega) fun h => hsmaller ?_
        have hlargest := (h.2.2 hdvd).1
        rw [← hfull] at hlargest
        rw [hsame]
        exact mul_left_cancel₀ hpos.ne' hlargest
  · rw [hfirst]
    rw [← hchunk] at hnan
    refine iff_of_false (fun h => not_fits_succ hpos hnan h.1) fun h => ?_
    rw [hchunk, h.1, hlast] at hnan
    exact h.2.1 hnan

/-- **When the chunk is the least count that reaches the target,** for a positive mean and target: the
target is within the largest `int` of means, the present chunk does not take exactly the target, and
the products fit, unless one item takes longer than the target.  A second call changes nothing exactly
if, besides, no chunk takes exactly the target and the product at the target is not
`not_a_date_time`.  (The largest `int` is the exception: the search after it starts from below.) -/
theorem chunk_least_iff (b : RunPotentialParamsQueue) {m t : ℤ} (hpos : 0 < m)
    (hm : IsDuration m) (htpos : 0 < t) (ht : IsDuration t) :
    ((∃ n, b.updateWorkChunkSize m t = some { b with myNumWorkItemsChunk := n } ∧
        IsLeast {i : ℕ | 1 ≤ i ∧ t ≤ m * i} n) ↔
      t ≤ m * INT_MAX ∧
        (m * toInt b.myNumWorkItemsChunk = t → toInt b.myNumWorkItemsChunk = INT_MAX) ∧
        (m ≤ t → b.ProductsFit m t)) ∧
    ((∃ b', b.updateWorkChunkSize m t = some b' ∧ b'.updateWorkChunkSize m t = some b') ↔
      t ≤ m * INT_MAX ∧ (m ∣ t → t = m * INT_MAX ∧ Fits (m * INT_MIN)) ∧
        (m ≤ t → b.ProductsFit m t ∧ t + -t % m ≠ NOT_A_DATE_TIME)) := by
  obtain ⟨n, hn⟩ := exists_isLeast_reaching hpos htpos
  refine ⟨?_, ?_⟩
  · rw [← b.updateWorkChunkSize_isLeast_iff hpos hm htpos ht hn]
    constructor
    · rintro ⟨i, hi, hleast⟩
      rwa [hn.unique hleast]
    · intro hupdate
      exact ⟨n, hupdate, hn⟩
  · rcases lt_or_ge t m with hlt | hle
    · refine iff_of_true ⟨_, b.updateWorkChunkSize_of_lt hm hlt,
        updateWorkChunkSize_of_lt _ hm hlt⟩ ⟨?_, fun hdvd => ?_, fun h => absurd h hlt.not_ge⟩
      · calc t ≤ m * 1 := by omega
          _ ≤ m * INT_MAX := mul_le_mul_of_nonneg_left (by decide) hpos.le
      · exact absurd (Int.le_of_dvd htpos hdvd) hlt.not_ge
    · constructor
      · rintro ⟨b', hfirst, hagain⟩
        obtain ⟨⟨hmax, hfit⟩, hge, hint, hfits⟩ := updated_chunk hpos hm htpos ht hle hn hfirst
        obtain ⟨_, hne, hdvd⟩ :=
          (b'.updateWorkChunkSize_again_iff hpos hm htpos ht hle hn hge hint hfits).mp hagain
        exact ⟨hmax, hdvd, fun _ => ⟨hfit, hne⟩⟩
      · rintro ⟨hmax, hdvd, hfit⟩
        obtain ⟨hfit, hne⟩ := hfit hle
        have hnmax : (n : ℤ) ≤ INT_MAX := (le_mul_iff_of_isLeast hpos htpos hn _).mp hmax
        have hfirst : b.firstCount m t ≤ n := by
          rw [b.firstCount_le_iff hpos htpos ht hn hfit.first]
          intro hexact
          have hfull := (hdvd ⟨_, hexact.symm⟩).1
          exact mul_left_cancel₀ hpos.ne' (hexact.trans hfull)
        refine ⟨_, (b.updateWorkChunkSize_eq_some_iff hpos hm ht hle hn).mpr ⟨⟨hmax, hfit⟩, rfl⟩, ?_⟩
        rw [max_eq_right hfirst, Int.toNat_natCast]
        refine (updateWorkChunkSize_again_iff _ hpos hm htpos ht hle hn le_rfl hnmax ?_).mpr
          ⟨rfl, hne, hdvd⟩
        rw [mul_eq_of_isLeast hpos htpos hn]
        exact hfit.last

/-- Twenty items of half a minute take exactly ten minutes, and an item of seven seconds does not go
into them. -/
theorem chunk_least_half_minute : (0 : ℤ) < 30000000 ∧ 0 < DEFAULT_TARGET_CHUNK_TIME ∧
    ¬ (∃ b', ({} : RunPotentialParamsQueue).updateWorkChunkSize 30000000 DEFAULT_TARGET_CHUNK_TIME
        = some b' ∧ b'.updateWorkChunkSize 30000000 DEFAULT_TARGET_CHUNK_TIME = some b') ∧
    ∃ n, ({} : RunPotentialParamsQueue).updateWorkChunkSize 7000000 DEFAULT_TARGET_CHUNK_TIME
        = some { myNumWorkItemsChunk := n } ∧
      IsLeast {i : ℕ | 1 ≤ i ∧ DEFAULT_TARGET_CHUNK_TIME ≤ 7000000 * i} n := by
  refine ⟨by decide, by decide, ?_, ?_⟩
  · rw [(chunk_least_iff {} (m := 30000000) (by decide) (by decide)
      (by decide : 0 < DEFAULT_TARGET_CHUNK_TIME) (by decide)).2]
    decide
  · exact (chunk_least_iff {} (m := 7000000) (by decide) (by decide)
      (by decide : 0 < DEFAULT_TARGET_CHUNK_TIME) (by decide)).1.mpr (by decide)

/-- From a chunk of twenty the update goes to 21, and from there back to twenty. -/
theorem exact_fit_overshoots :
    ({} : RunPotentialParamsQueue).updateWorkChunkSize 30000000 DEFAULT_TARGET_CHUNK_TIME
      = some { myNumWorkItemsChunk := 21 } ∧
    ({ myNumWorkItemsChunk := 21 } : RunPotentialParamsQueue).updateWorkChunkSize 30000000
      DEFAULT_TARGET_CHUNK_TIME = some { myNumWorkItemsChunk := 20 } ∧
    20 ∈ {i : ℕ | 1 ≤ i ∧ DEFAULT_TARGET_CHUNK_TIME ≤ 30000000 * i} :=
  ⟨rfl, rfl, by decide⟩

end RunPotentialParamsQueue

end StructurePipe.Blocks
