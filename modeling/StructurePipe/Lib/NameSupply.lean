import Mathlib.Data.List.Nodup
import Mathlib.Logic.Function.Iterate
import Mathlib.Tactic

/-!
# Name supplies

A supply makes a name and the supply that is left.  `Drawn` says of some names that they were taken
from a supply one after the other, where others may have been taken in between.

* `Drawn.append` — names drawn in two goes;
* `Drawn.nodup` — **names drawn from a supply that makes no name twice are different.**
-/

namespace NameSupply

variable {ρ ν : Type*} (make : ρ → ν × ρ)

/-- What is left after some names were made. -/
def after (n : ℕ) (s : ρ) : ρ := (fun s => (make s).2)^[n] s

/-- The name that is made next then. -/
def nameAt (s : ρ) (n : ℕ) : ν := (make (after make n s)).1

/-- No name is made twice. -/
def Fresh (s : ρ) : Prop := Function.Injective (nameAt make s)

/-- The names are some of those made between two states of a supply, in order. -/
def Drawn (s s' : ρ) (names : List ν) : Prop :=
  ∃ (is : List ℕ) (m : ℕ), is.Pairwise (· < ·) ∧ (∀ i ∈ is, i < m) ∧
    names = is.map (nameAt make s) ∧ s' = after make m s

variable {make}

theorem after_add (m n : ℕ) (s : ρ) : after make (m + n) s = after make n (after make m s) := by
  rw [after, after, after, Nat.add_comm, Function.iterate_add_apply]

theorem nameAt_after (m n : ℕ) (s : ρ) :
    nameAt make (after make m s) n = nameAt make s (m + n) := by
  rw [nameAt, nameAt, after_add]

theorem Drawn.nil (s : ρ) : Drawn make s s [] :=
  ⟨[], 0, List.Pairwise.nil, List.forall_mem_nil _, rfl, rfl⟩

/-- A name that is made and used. -/
theorem Drawn.single (s : ρ) : Drawn make s (make s).2 [(make s).1] :=
  ⟨[0], 1, List.pairwise_singleton _ _, by simp, rfl, rfl⟩

/-- A name that is made and not used. -/
theorem Drawn.skip (s : ρ) : Drawn make s (make s).2 [] :=
  ⟨[], 1, List.Pairwise.nil, List.forall_mem_nil _, rfl, rfl⟩

theorem Drawn.append {s s' s'' : ρ} {names names' : List ν} (h : Drawn make s s' names)
    (h' : Drawn make s' s'' names') : Drawn make s s'' (names ++ names') := by
  obtain ⟨is, m, hlt, hbound, rfl, rfl⟩ := h
  obtain ⟨is', m', hlt', hbound', rfl, rfl⟩ := h'
  refine ⟨is ++ is'.map (m + ·), m + m', ?_, ?_, ?_, (after_add m m' s).symm⟩
  · refine List.pairwise_append.mpr ⟨hlt, ?_, ?_⟩
    · rw [List.pairwise_map]
      exact hlt'.imp fun h => Nat.add_lt_add_left h m
    · intro i hi j hj
      obtain ⟨j, _, rfl⟩ := List.mem_map.mp hj
      exact (hbound i hi).trans_le (Nat.le_add_right m j)
  · intro i hi
    rcases List.mem_append.mp hi with hi | hi
    · exact (hbound i hi).trans_le (Nat.le_add_right m m')
    · obtain ⟨j, hj, rfl⟩ := List.mem_map.mp hi
      exact Nat.add_lt_add_left (hbound' j hj) m
  · rw [List.map_append, List.map_map]
    refine congrArg _ (List.map_congr_left fun i _ => ?_)
    exact nameAt_after m i s

/-- **Drawn names are different.** -/
theorem Drawn.nodup {s s' : ρ} {names : List ν} (hfresh : Fresh make s)
    (h : Drawn make s s' names) : names.Nodup := by
  obtain ⟨is, m, hlt, _, rfl, _⟩ := h
  exact (List.nodup_map_iff hfresh).mpr (hlt.imp fun h => h.ne)

/-- A drawn name is one of the supply's. -/
theorem Drawn.exists_nameAt {s s' : ρ} {names : List ν} (h : Drawn make s s' names) :
    ∀ name ∈ names, ∃ n, name = nameAt make s n := by
  obtain ⟨is, m, _, _, rfl, _⟩ := h
  intro name hname
  obtain ⟨i, _, rfl⟩ := List.mem_map.mp hname
  exact ⟨i, rfl⟩

end NameSupply
