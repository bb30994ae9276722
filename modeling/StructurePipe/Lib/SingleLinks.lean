import Mathlib.Data.List.Nodup
import Mathlib.Tactic

/-!
# Nodes with a single outgoing link

A collection of nodes, each of which has at most one link to another node; `connect` sets the link of
a node and forgets the one it had.  How the links are kept is left open: `Links` is any
representation that behaves like this.

* `path` — connecting the nodes of a list one after the other;
* `Visits` — following the links from a node passes the given nodes, in order, and then ends;
* `visits_path_iff` — **a path can be followed as it was made if and only if no node occurs on it
  twice.**
-/

namespace SingleLinks

/-- Links between nodes of a type `α`, kept in a value of type `σ`. -/
structure Links (α σ : Type*) where
  empty : σ
  connect : σ → α → α → σ
  next : σ → α → Option α
  next_empty : ∀ a, next empty a = none
  next_connect_self : ∀ s a b, next (connect s a b) a = some b
  next_connect_of_ne : ∀ s {a c} b, c ≠ a → next (connect s a b) c = next s c

variable {α σ : Type*} (L : Links α σ)

/-- Connect `a` to the first node of a list, and each node of the list to the one after it. -/
def path (s : σ) (a : α) : List α → σ
  | [] => s
  | b :: bs => path (L.connect s a b) b bs

/-- The nodes that are passed on the way from a node along the links, to the end. -/
def Visits (s : σ) : Option α → List α → Prop
  | none, [] => True
  | some a, b :: bs => a = b ∧ Visits s (L.next s a) bs
  | _, _ => False

/-- The links of a list of pairs, the latest one first. -/
def ofPairs (α : Type*) [DecidableEq α] : Links α (List (α × α)) where
  empty := []
  connect s a b := (a, b) :: s
  next s a := s.lookup a
  next_empty _ := rfl
  next_connect_self s a b := List.lookup_cons_self
  next_connect_of_ne s a c b h := by
    have hca : (c == a) = false := beq_eq_false_iff_ne.mpr h
    rw [List.lookup_cons, hca]

variable {L}

theorem next_path_of_notMem {s : σ} {a c : α} {bs : List α} (h : c ∉ a :: bs) :
    L.next (path L s a bs) c = L.next s c := by
  induction bs generalizing s a with
  | nil => rfl
  | cons b bs ih =>
      obtain ⟨hca, hc⟩ := List.ne_and_not_mem_of_not_mem_cons h
      rw [path, ih hc, L.next_connect_of_ne s b hca]

/-- A way that passes `b` goes on from there as from any other visit of `b`. -/
theorem Visits.suffix {s : σ} {o : Option α} {as bs : List α} {b : α}
    (h : Visits L s o (as ++ b :: bs)) : Visits L s (some b) (b :: bs) := by
  induction as generalizing o with
  | nil =>
      cases o with
      | none => exact h.elim
      | some a =>
          obtain ⟨rfl, h⟩ := h
          exact ⟨rfl, h⟩
  | cons a as ih =>
      cases o with
      | none => exact h.elim
      | some c => exact ih h.2

theorem Visits.unique {s : σ} {o : Option α} {as bs : List α} (ha : Visits L s o as)
    (hb : Visits L s o bs) : as = bs := by
  induction as generalizing o bs with
  | nil =>
      cases o with
      | some a => exact ha.elim
      | none =>
          cases bs with
          | nil => rfl
          | cons b bs => exact hb.elim
  | cons a as ih =>
      cases o with
      | none => exact ha.elim
      | some c =>
          cases bs with
          | nil => exact hb.elim
          | cons b bs =>
              obtain ⟨rfl, ha⟩ := ha
              obtain ⟨rfl, hb⟩ := hb
              rw [ih ha hb]

/-- A way that ends passes no node twice: it would come back to it for ever. -/
theorem Visits.nodup {s : σ} {o : Option α} {bs : List α} (h : Visits L s o bs) : bs.Nodup := by
  induction bs generalizing o with
  | nil => exact List.nodup_nil
  | cons b bs ih =>
      have hwhole : Visits L s (some b) (b :: bs) := @Visits.suffix _ _ L s o [] bs b h
      refine List.nodup_cons.mpr ⟨fun hmem => ?_, ih hwhole.2⟩
      obtain ⟨cs, ds, rfl⟩ := List.append_of_mem hmem
      have hagain : Visits L s (some b) (b :: ds) := Visits.suffix hwhole.2
      have hlen := congrArg List.length (hagain.unique hwhole)
      simp only [List.length_cons, List.length_append] at hlen
      omega

theorem visits_path {s : σ} {a : α} {bs : List α} (hnodup : (a :: bs).Nodup)
    (hfresh : ∀ c ∈ a :: bs, L.next s c = none) : Visits L (path L s a bs) (some a) (a :: bs) := by
  induction bs generalizing s a with
  | nil =>
      refine ⟨rfl, ?_⟩
      rw [path, hfresh a (by simp)]
      trivial
  | cons b bs ih =>
      obtain ⟨ha, hb⟩ := List.nodup_cons.mp hnodup
      refine ⟨rfl, ?_⟩
      rw [path, next_path_of_notMem ha, L.next_connect_self]
      refine ih hb fun c hc => ?_
      rw [L.next_connect_of_ne s b (ne_of_mem_of_not_mem hc ha)]
      exact hfresh c (List.mem_cons_of_mem a hc)

theorem visits_path_iff {a : α} {bs : List α} :
    Visits L (path L L.empty a bs) (some a) (a :: bs) ↔ (a :: bs).Nodup :=
  ⟨Visits.nodup, fun h => visits_path h fun c _ => L.next_empty c⟩

end SingleLinks
