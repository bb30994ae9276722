import Mathlib.Data.List.GetD
import Mathlib.Data.List.Nodup
import Mathlib.Tactic

/-!
# Names numbered in the order of first insertion

A vector of names together with a map from a name to its index is one object, a list without
repetitions: the map is the list zipped with its indices.  `register` adds a name unless it is
there, and an index once given is never changed.

* `lookup_zipIdx` — the map read back: the index of a name is its position, shifted by the start;
* `register` / `idxOf_register_of_mem` — **registering keeps every index already given;**
* `idxOf_inj` — different registered names have different indices;
* `resize` — a vector grown to a length with a filler.
-/

namespace FirstInsertion

section Register

variable {κ : Type*} [BEq κ] [LawfulBEq κ]

/-- Add a name at the end unless it is already there. -/
def register (ks : List κ) (k : κ) : List κ := if k ∈ ks then ks else ks ++ [k]

theorem register_of_mem {ks : List κ} {k : κ} (h : k ∈ ks) : register ks k = ks := if_pos h

theorem register_of_notMem {ks : List κ} {k : κ} (h : k ∉ ks) : register ks k = ks ++ [k] :=
  if_neg h

@[simp] theorem mem_register {ks : List κ} {k k' : κ} : k' ∈ register ks k ↔ k' ∈ ks ∨ k' = k := by
  by_cases h : k ∈ ks
  · rw [register_of_mem h]
    constructor
    · exact Or.inl
    · rintro (h' | rfl)
      · exact h'
      · exact h
  · simp [register_of_notMem h]

theorem register_nodup {ks : List κ} (h : ks.Nodup) (k : κ) : (register ks k).Nodup := by
  by_cases hk : k ∈ ks
  · rwa [register_of_mem hk]
  · rw [register_of_notMem hk]
    simpa using h.concat hk

/-- The registered names keep their order: the old list is a prefix of the new one. -/
theorem prefix_register (ks : List κ) (k : κ) : ks <+: register ks k := by
  by_cases hk : k ∈ ks
  · rw [register_of_mem hk]
  · rw [register_of_notMem hk]
    exact List.prefix_append _ _

/-- **An index once given is kept.** -/
theorem idxOf_register_of_mem {ks : List κ} {k' : κ} (h : k' ∈ ks) (k : κ) :
    (register ks k).idxOf k' = ks.idxOf k' := by
  obtain ⟨t, ht⟩ := prefix_register ks k
  rw [← ht, List.idxOf_append_of_mem h]

/-- A name that was not registered comes behind all that were. -/
theorem length_le_idxOf_register {ks : List κ} {k' : κ} (h : k' ∉ ks) (k : κ) :
    ks.length ≤ (register ks k).idxOf k' := by
  obtain ⟨t, ht⟩ := prefix_register ks k
  rw [← ht, List.idxOf_append_of_notMem h]
  exact Nat.le_add_right _ _

theorem idxOf_register_self (ks : List κ) (k : κ) : (register ks k).idxOf k = ks.idxOf k := by
  by_cases hk : k ∈ ks
  · exact idxOf_register_of_mem hk k
  · rw [register_of_notMem hk, List.idxOf_append_of_notMem hk, List.idxOf_of_notMem hk]
    simp

theorem idxOf_lt_register (ks : List κ) (k : κ) : ks.idxOf k < (register ks k).length := by
  rw [← idxOf_register_self]
  exact List.idxOf_lt_length_of_mem (by simp)

theorem idxOf_inj {ks : List κ} {a b : κ} (ha : a ∈ ks) (h : ks.idxOf a = ks.idxOf b) : a = b :=
  (List.idxOf_inj ha).mp h

/-- The map from a name to its index, read back. -/
theorem lookup_zipIdx (ks : List κ) (k : κ) (n : ℕ) :
    (ks.zipIdx n).lookup k = if k ∈ ks then some (n + ks.idxOf k) else none := by
  induction ks generalizing n with
  | nil => simp
  | cons k' ks ih =>
      rw [List.zipIdx_cons, List.lookup_cons]
      by_cases hk : k = k'
      · simp [hk]
      · have hbeq : (k == k') = false := beq_false_of_ne hk
        rw [hbeq, ih, List.idxOf_cons_ne _ (Ne.symm hk)]
        simp only [List.mem_cons, hk, false_or]
        split
        · congr 1; omega
        · rfl

/-- The names in the order of their first use. -/
def registerAll (names : List κ) : List κ := names.foldl register []

theorem registerAll_concat (names : List κ) (name : κ) :
    registerAll (names ++ [name]) = register (registerAll names) name := by
  rw [registerAll, List.foldl_append]
  rfl

theorem mem_registerAll {names : List κ} {name : κ} : name ∈ registerAll names ↔ name ∈ names := by
  induction names using List.reverseRecOn with
  | nil => simp [registerAll]
  | append_singleton names last ih => simp [registerAll_concat, ih]

theorem registerAll_nodup (names : List κ) : (registerAll names).Nodup := by
  induction names using List.reverseRecOn with
  | nil => exact List.nodup_nil
  | append_singleton names name ih =>
      rw [registerAll_concat]
      exact register_nodup ih name

/-- Names that are all different are registered as they come. -/
theorem registerAll_of_nodup {names : List κ} (h : names.Nodup) : registerAll names = names := by
  induction names using List.reverseRecOn with
  | nil => rfl
  | append_singleton names name ih =>
      have hlast : name ∉ names := by
        rw [List.nodup_append] at h
        exact fun hmem => h.2.2 name hmem name (List.mem_singleton_self _) rfl
      rw [registerAll_concat, ih h.of_append_left, register_of_notMem hlast]

/-- A name that is used several times in a row is registered once. -/
theorem registerAll_append_replicate {n : ℕ} (hn : 0 < n) (names : List κ) (name : κ) :
    registerAll (names ++ List.replicate n name) = register (registerAll names) name := by
  induction n with
  | zero => exact absurd hn (Nat.lt_irrefl 0)
  | succ n ih =>
      rw [List.replicate_succ', ← List.append_assoc, registerAll_concat]
      rcases Nat.eq_zero_or_pos n with rfl | hpos
      · rw [List.replicate_zero, List.append_nil]
      · rw [ih hpos, register_of_mem (mem_register.mpr (Or.inr rfl))]

/-- **The first few of the same names, once more.** -/
theorem registerAll_append_take {all : List κ} (h : all.Nodup) {names : List κ} {m : ℕ}
    (hnames : registerAll names = all.take m) (n : ℕ) :
    registerAll (names ++ all.take n) = all.take (max m n) := by
  induction n with
  | zero => simpa using hnames
  | succ n ih =>
      rcases Nat.lt_or_ge n all.length with hlt | hge
      · rw [List.take_succ_eq_append_getElem hlt, ← List.append_assoc, registerAll_concat, ih]
        rcases Nat.lt_or_ge n m with hnm | hmn
        · rw [Nat.max_eq_left hnm.le, Nat.max_eq_left hnm]
          exact register_of_mem (List.mem_take_iff_getElem.mpr ⟨n, by omega, rfl⟩)
        · have hnew : all[n] ∉ all.take n := by
            intro hmem
            obtain ⟨i, hi, heq⟩ := List.mem_take_iff_getElem.mp hmem
            have := (List.Nodup.getElem_inj_iff h).mp heq
            omega
          rw [Nat.max_eq_right hmn, Nat.max_eq_right (by omega), register_of_notMem hnew,
            List.take_succ_eq_append_getElem hlt]
      · have hsame : all.take (n + 1) = all.take n := by
          rw [List.take_of_length_le hge, List.take_of_length_le (by omega)]
        rw [hsame, ih, List.take_of_length_le (le_max_of_le_right hge),
          List.take_of_length_le (le_max_of_le_right (by omega))]

/-- Names that are registered already. -/
theorem registerAll_append_of_mem (names : List κ) {later : List κ} (h : ∀ name ∈ later, name ∈ names) :
    registerAll (names ++ later) = registerAll names := by
  induction later using List.reverseRecOn with
  | nil => rw [List.append_nil]
  | append_singleton later name ih =>
      have hname : name ∈ registerAll names := mem_registerAll.mpr (h name (by simp))
      rw [← List.append_assoc, registerAll_concat, ih fun n hn => h n (List.mem_append_left _ hn),
        register_of_mem hname]

/-- Other names come behind those that are registered, in the order they have among themselves. -/
theorem registerAll_append_of_notMem {first names rest : List κ}
    (h : registerAll names = first ++ registerAll rest) {later : List κ}
    (hlater : ∀ name ∈ later, name ∉ first) :
    registerAll (names ++ later) = first ++ registerAll (rest ++ later) := by
  induction later using List.reverseRecOn with
  | nil => rwa [List.append_nil, List.append_nil]
  | append_singleton later name ih =>
      have hname : name ∉ first := hlater name (by simp)
      rw [← List.append_assoc, ← List.append_assoc, registerAll_concat, registerAll_concat,
        ih fun n hn => hlater n (List.mem_append_left _ hn)]
      by_cases hmem : name ∈ registerAll (rest ++ later)
      · rw [register_of_mem hmem, register_of_mem (List.mem_append_right _ hmem)]
      · have hboth : name ∉ first ++ registerAll (rest ++ later) := by
          rw [List.mem_append]
          exact fun h => h.elim hname hmem
        rw [register_of_notMem hmem, register_of_notMem hboth, List.append_assoc]

/-- **The same names first, each time, and then others.** -/
theorem registerAll_flatMap {ι : Type*} {first : List κ} (hfirst : first.Nodup) {items : List ι}
    (hne : items ≠ []) {more : ι → List κ} (hmore : ∀ i ∈ items, ∀ name ∈ more i, name ∉ first) :
    registerAll (items.flatMap fun i => first ++ more i)
      = first ++ registerAll (items.flatMap more) := by
  induction items using List.reverseRecOn with
  | nil => exact absurd rfl hne
  | append_singleton items i ih =>
      rw [List.flatMap_append, List.flatMap_singleton, List.flatMap_append, List.flatMap_singleton,
        ← List.append_assoc]
      refine registerAll_append_of_notMem ?_ (hmore i (by simp))
      cases items with
      | nil =>
          show registerAll ([] ++ first) = first ++ registerAll []
          rw [List.nil_append, registerAll_of_nodup hfirst]
          exact (List.append_nil first).symm
      | cons j items =>
          have hnames : ∀ name ∈ first,
              name ∈ (j :: items).flatMap fun i => first ++ more i := fun name hname =>
            List.mem_flatMap.mpr ⟨j, List.mem_cons_self, List.mem_append_left _ hname⟩
          rw [registerAll_append_of_mem _ hnames]
          exact ih (List.cons_ne_nil j items) fun k hk => hmore k (List.mem_append_left _ hk)

end Register

section Vector

variable {α : Type*}

theorem zipIdx_concat (ks : List α) (k : α) (n : ℕ) :
    (ks ++ [k]).zipIdx n = ks.zipIdx n ++ [(k, n + ks.length)] := by
  simp [List.zipIdx_append]

/-- A vector grown to length `n`, the new places holding `d`; a longer vector is cut. -/
def resize (l : List α) (n : ℕ) (d : α) : List α := l.take n ++ List.replicate (n - l.length) d

@[simp] theorem length_resize (l : List α) (n : ℕ) (d : α) : (resize l n d).length = n := by
  rw [resize, List.length_append, List.length_take, List.length_replicate]
  omega

theorem resize_of_le {l : List α} {n : ℕ} (h : l.length ≤ n) (d : α) :
    resize l n d = l ++ List.replicate (n - l.length) d := by
  rw [resize, List.take_of_length_le h]

theorem take_resize {l : List α} {n m : ℕ} (h : l.length ≤ n) (hm : m ≤ l.length) (d : α) :
    (resize l n d).take m = l.take m := by
  rw [resize_of_le h, List.take_append_of_le_length hm]

/-- Growing a vector changes no cell, if a missing cell counts as the filler. -/
theorem getD_resize {l : List α} {n : ℕ} (h : l.length ≤ n) (d : α) (i : ℕ) :
    (resize l n d).getD i d = l.getD i d := by
  rw [resize_of_le h]
  rcases Nat.lt_or_ge i l.length with hi | hi
  · rw [List.getD_append _ _ _ _ hi]
  · rw [List.getD_append_right _ _ _ _ hi, List.getD_eq_default _ _ hi]
    simp only [List.getD_eq_getElem?_getD, List.getElem?_replicate]
    split <;> rfl

theorem getD_set (l : List α) {i : ℕ} (hi : i < l.length) (j : ℕ) (a d : α) :
    (l.set i a).getD j d = if i = j then a else l.getD j d := by
  rw [List.getD_eq_getElem?_getD, List.getElem?_set, List.getD_eq_getElem?_getD]
  by_cases hij : i = j
  · rw [if_pos hij, if_pos hij, if_pos (hij ▸ hi)]
    rfl
  · rw [if_neg hij, if_neg hij]

/-- Write one place of a vector that is grown first if it is too short. -/
def setGrown (l : List α) (i : ℕ) (a d : α) : List α :=
  (if l.length ≤ i then resize l (i + 1) d else l).set i a

theorem length_setGrown (l : List α) (i : ℕ) (a d : α) :
    (setGrown l i a d).length = max l.length (i + 1) := by
  rw [setGrown, List.length_set]
  split
  · rw [length_resize]; omega
  · omega

/-- **The other places keep their content**, a missing place counting as the filler. -/
theorem getD_setGrown (l : List α) (i j : ℕ) (a d : α) :
    (setGrown l i a d).getD j d = if j = i then a else l.getD j d := by
  have hlen : i < (if l.length ≤ i then resize l (i + 1) d else l).length := by
    split
    · rw [length_resize]; omega
    · omega
  have hold : ∀ k, (if l.length ≤ i then resize l (i + 1) d else l).getD k d = l.getD k d := by
    intro k
    split
    · exact getD_resize (by omega) d k
    · rfl
  rw [setGrown, List.getD_eq_getElem?_getD, List.getElem?_set]
  by_cases hji : i = j
  · subst hji
    simp [hlen]
  · rw [if_neg hji, if_neg (Ne.symm hji), ← List.getD_eq_getElem?_getD, hold]

theorem getElem?_setGrown_self (l : List α) (i : ℕ) (a d : α) :
    (setGrown l i a d)[i]? = some a := by
  have hlen : i < (setGrown l i a d).length := by rw [length_setGrown]; omega
  have h := getD_setGrown l i i a d
  rw [if_pos rfl, List.getD_eq_getElem _ _ hlen] at h
  rw [List.getElem?_eq_getElem hlen, h]

theorem getElem?_setGrown_of_ne {l : List α} {i j : ℕ} (hij : j ≠ i) (hj : j < l.length) (a d : α) :
    (setGrown l i a d)[j]? = l[j]? := by
  have hlen : j < (setGrown l i a d).length := by rw [length_setGrown]; omega
  have h := getD_setGrown l i j a d
  rw [if_neg hij, List.getD_eq_getElem _ _ hlen, List.getD_eq_getElem _ _ hj] at h
  rw [List.getElem?_eq_getElem hlen, List.getElem?_eq_getElem hj, h]

/-- The part of the vector in front of the written place is untouched. -/
theorem take_setGrown {l : List α} {i n : ℕ} (hn : n ≤ i) (hl : n ≤ l.length) (a d : α) :
    (setGrown l i a d).take n = l.take n := by
  rw [setGrown, List.take_set_of_le hn]
  split
  · exact take_resize (by omega) hl d
  · rfl

theorem head?_setGrown {l : List α} {i : ℕ} (hi : 0 < i) (hl : 0 < l.length) (a d : α) :
    (setGrown l i a d).head? = l.head? := by
  have h := congrArg List.head? (take_setGrown hi hl a d)
  simpa [List.head?_take] using h

end Vector

end FirstInsertion
