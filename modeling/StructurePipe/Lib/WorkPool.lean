import Mathlib.Data.List.Basic
import Mathlib.Tactic

/-!
# A pool of work shared by several parties

A list of items, from the front of which any party takes any number at a time.  The pool remembers
who took what, in the order of taking.

* `items_take` — **taking neither loses nor repeats an item nor changes their order:** what was taken
  followed by what is left is always the list at the start;
* `share_take_self`, `share_take_of_ne` — what a take adds to the share of each party;
* `perm_of_entries` — a log of who did what is determined by the parts of the parties, up to order.
-/

namespace WorkPool

variable {ι α : Type*}

/-- What is left, and what was taken by whom. -/
structure Pool (ι α : Type*) where
  todo : List α
  taken : List (ι × α) := []

namespace Pool

/-- The party `i` takes the first `n` items. -/
def take (p : Pool ι α) (i : ι) (n : ℕ) : Pool ι α where
  todo := p.todo.drop n
  taken := p.taken ++ (p.todo.take n).map fun a => (i, a)

/-- All items, the taken ones first. -/
def items (p : Pool ι α) : List α := p.taken.map Prod.snd ++ p.todo

theorem items_take (p : Pool ι α) (i : ι) (n : ℕ) : (p.take i n).items = p.items := by
  have hsnd : ((p.todo.take n).map fun a => (i, a)).map Prod.snd = p.todo.take n := by
    simp [List.map_map, Function.comp_def]
  rw [items, take, List.map_append, hsnd, List.append_assoc, List.take_append_drop, items]

section Share

variable [BEq ι] [LawfulBEq ι]

/-- What the party `i` has taken. -/
def share (p : Pool ι α) (i : ι) : List α := (p.taken.filter fun e => e.1 == i).map Prod.snd

theorem share_take_self (p : Pool ι α) (i : ι) (n : ℕ) :
    (p.take i n).share i = p.share i ++ p.todo.take n := by
  have hall : ((p.todo.take n).map fun a => (i, a)).filter (fun e => e.1 == i)
      = (p.todo.take n).map fun a => (i, a) := by
    rw [List.filter_eq_self]
    intro e he
    obtain ⟨a, _, rfl⟩ := List.mem_map.mp he
    simp
  rw [share, take, List.filter_append, hall, List.map_append, share]
  simp [List.map_map, Function.comp_def]

theorem share_take_of_ne (p : Pool ι α) {i j : ι} (h : j ≠ i) (n : ℕ) :
    (p.take i n).share j = p.share j := by
  have hnone : ((p.todo.take n).map fun a => (i, a)).filter (fun e => e.1 == j) = [] := by
    rw [List.filter_eq_nil_iff]
    intro e he
    obtain ⟨a, _, rfl⟩ := List.mem_map.mp he
    simpa using Ne.symm h
  rw [share, take, List.filter_append, hnone, List.append_nil, share]

end Share

end Pool

/-! ### One batch after the other -/

/-- A batch of at most `n` items follows the first `k`. -/
theorem take_batch (l : List α) (k n : ℕ) :
    l.take k ++ (l.drop k).take n = l.take (k + ((l.drop k).take n).length) := by
  rw [List.take_add]
  congr 1
  rw [List.length_take, List.take_eq_take_iff]
  simp

theorem drop_batch (l : List α) (k n : ℕ) :
    (l.drop k).drop n = l.drop (k + ((l.drop k).take n).length) := by
  rw [List.drop_drop, List.length_take, List.length_drop, List.drop_eq_drop_iff]
  omega

/-! ### Who did what -/

section Entries

open scoped List

variable [BEq ι]

/-- The part of one party in a log. -/
def entries (i : ι) (log : List (ι × α)) : List α := (log.filter fun e => e.1 == i).map Prod.snd

@[simp] theorem entries_nil (i : ι) : entries i ([] : List (ι × α)) = [] := rfl

variable [LawfulBEq ι]

/-- A log that grows is a pool from which everything is taken. -/
theorem entries_append_self (i : ι) (log : List (ι × α)) (as : List α) :
    entries i (log ++ as.map fun a => (i, a)) = entries i log ++ as := by
  have h := Pool.share_take_self ⟨as, log⟩ i as.length
  rwa [Pool.take, List.take_length] at h

theorem entries_append_of_ne {i j : ι} (h : j ≠ i) (log : List (ι × α)) (as : List α) :
    entries j (log ++ as.map fun a => (i, a)) = entries j log := by
  have h := Pool.share_take_of_ne ⟨as, log⟩ h as.length
  rwa [Pool.take, List.take_length] at h

/-- **Logs with the same parts are permutations of each other.** -/
theorem perm_of_entries [DecidableEq α] {log log' : List (ι × α)}
    (h : ∀ i, entries i log = entries i log') : log ~ log' := by
  have hcount : ∀ (l : List (ι × α)) (i : ι) (a : α), l.count (i, a) = (entries i l).count a := by
    intro l i a
    rw [entries, List.count, List.count, List.countP_map, List.countP_filter]
    refine List.countP_congr fun e _ => ?_
    cases e with
    | mk j b => simp [and_comm]
  rw [List.perm_iff_count]
  intro e
  cases e with
  | mk i a => rw [hcount, hcount, h i]

end Entries

end WorkPool
