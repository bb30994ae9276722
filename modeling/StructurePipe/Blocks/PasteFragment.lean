import StructurePipe.Blocks.CutAndPaste

/-!
# PasteFragment, and pipes that change atoms

`PasteFragment` appends the atoms of a fragment, which a transformation has moved.  A pipe of such blocks
and of `CutAndPaste` blocks can do nothing to the atoms but move them, append those of its fragments and
take away those that lie in a shape whose block does not paste.

* `input_eq` — what is pasted;
* `apply_accounts`, `apply_sublist` — one block of either kind;
* `run_accounts` — **every atom is accounted for, through any pipe of such blocks.**
-/

namespace StructurePipe.Blocks

open CutAndPaste (Atom Structure GeneratorShape Settings PointSeparator)
open scoped List

/-- The block, with the fragment that it has read. -/
structure PasteFragment (π α γ : Type*) where
  myTransform : π → π
  myFragment : Structure π α γ

namespace PasteFragment

variable {π α γ δ σ ρ : Type*}

/-- One turn of the loop of `in`. -/
def pasteAtom (b : PasteFragment π α γ) (s : Structure π α γ) (atom : Atom π α) :
    Structure π α γ :=
  s.newAtom (atom.setPosition (b.myTransform atom.position))

def input (b : PasteFragment π α γ) (s : Structure π α γ) : Structure π α γ :=
  if b.myFragment.atoms.length ≠ 0 then b.myFragment.atoms.foldl b.pasteAtom s else s

/-- The atoms of the fragment, where they are pasted. -/
def pasted (b : PasteFragment π α γ) : List (Atom π α) :=
  b.myFragment.atoms.map fun atom => atom.setPosition (b.myTransform atom.position)

/-- **What is pasted:** the moved atoms of the fragment, behind those that are there. -/
theorem input_eq (b : PasteFragment π α γ) (s : Structure π α γ) :
    b.input s = { s with atoms := s.atoms ++ b.pasted } := by
  have hloop : ∀ (atoms : List (Atom π α)) (s : Structure π α γ), atoms.foldl b.pasteAtom s
      = { s with atoms := s.atoms ++ atoms.map fun atom =>
          atom.setPosition (b.myTransform atom.position) } := by
    intro atoms
    induction atoms with
    | nil => intro s; simp
    | cons atom atoms ih =>
        intro s
        rw [List.foldl_cons, ih]
        simp [pasteAtom, Structure.newAtom]
  rw [input]
  split
  · exact hloop _ s
  · next hempty =>
      have hnil : b.myFragment.atoms = [] := by simpa using hempty
      simp [pasted, hnil]

end PasteFragment

/-! ### Pipes -/

/-- A block that changes atoms, with all that it works with. -/
inductive AtomsBlock (π α γ δ σ ρ : Type*) where
  | pasteFragment (b : PasteFragment π α γ)
  | cutAndPaste (shape : GeneratorShape π ρ) (settings : Settings)
      (separator : PointSeparator π α γ δ σ) (speciesDb : δ)

namespace AtomsBlock

variable {π α γ δ σ ρ : Type*}

def apply : AtomsBlock π α γ δ σ ρ → Structure π α γ × ρ → Structure π α γ × ρ
  | pasteFragment b, state => (b.input state.1, state.2)
  | cutAndPaste shape settings separator speciesDb, state =>
      CutAndPaste.input shape settings separator speciesDb state.1 state.2

/-- A structure that goes through a pipe. -/
def run (blocks : List (AtomsBlock π α γ δ σ ρ)) (state : Structure π α γ × ρ) :
    Structure π α γ × ρ :=
  blocks.foldl (fun state b => b.apply state) state

/-- What a block appends, positions apart. -/
def appended : AtomsBlock π α γ δ σ ρ → List α
  | pasteFragment b => b.myFragment.atoms.map Atom.attributes
  | cutAndPaste _ _ _ _ => []

/-- The atoms that a block takes away from a structure. -/
def takenAway : AtomsBlock π α γ δ σ ρ → Structure π α γ → List (Atom π α)
  | pasteFragment _, _ => []
  | cutAndPaste shape settings _ _, s =>
      if settings.paste then [] else CutAndPaste.inside shape s.atoms

/-- What all blocks of a pipe take away, positions apart. -/
def lost : List (AtomsBlock π α γ δ σ ρ) → Structure π α γ × ρ → List α
  | [], _ => []
  | b :: blocks, state =>
      (b.takenAway state.1).map Atom.attributes ++ lost blocks (b.apply state)

/-- The block takes no atoms away. -/
def Keeps : AtomsBlock π α γ δ σ ρ → Prop
  | pasteFragment _ => True
  | cutAndPaste _ settings _ _ => settings.paste = true

/-- An atom that the block has nothing to do with. -/
def Spares (atom : Atom π α) : AtomsBlock π α γ δ σ ρ → Prop
  | pasteFragment _ => True
  | cutAndPaste shape _ _ _ => shape.isInShape atom.position = false

/-- The block does not let the separator move atoms outside its shape. -/
def Steady : AtomsBlock π α γ δ σ ρ → Prop
  | pasteFragment _ => True
  | cutAndPaste _ settings _ _ =>
      settings.paste = true → settings.separate = true → settings.fixUntouched = true

/-! ### One block -/

/-- Positions apart, atoms are appended, taken away, or neither. -/
theorem apply_accounts (b : AtomsBlock π α γ δ σ ρ) (state : Structure π α γ × ρ) :
    (b.apply state).1.atoms.map Atom.attributes ++ (b.takenAway state.1).map Atom.attributes
        ~ state.1.atoms.map Atom.attributes ++ b.appended ∧
      (b.apply state).1.rest = state.1.rest := by
  obtain ⟨s, rng⟩ := state
  cases b with
  | pasteFragment b =>
      have hattributes : b.pasted.map Atom.attributes = b.myFragment.atoms.map Atom.attributes := by
        rw [PasteFragment.pasted, List.map_map]
        rfl
      have hrest : (b.input s).rest = s.rest := by rw [PasteFragment.input_eq]
      refine ⟨?_, hrest⟩
      show (b.input s).atoms.map Atom.attributes ++ [] ~ _
      rw [PasteFragment.input_eq, List.map_append, hattributes, List.append_nil]
      exact List.Perm.refl _
  | cutAndPaste shape settings separator speciesDb =>
      have hsplit : CutAndPaste.outside shape s.atoms ++ CutAndPaste.inside shape s.atoms
          ~ s.atoms := by
        have hperm := List.filter_append_perm (fun atom : Atom π α => !shape.isInShape atom.position)
          s.atoms
        simpa [CutAndPaste.outside, CutAndPaste.inside] using hperm
      have hall := hsplit.map Atom.attributes
      rw [List.map_append] at hall
      show (CutAndPaste.input shape settings separator speciesDb s rng).1.atoms.map Atom.attributes
          ++ (if settings.paste then [] else CutAndPaste.inside shape s.atoms).map Atom.attributes
          ~ s.atoms.map Atom.attributes ++ [] ∧
        (CutAndPaste.input shape settings separator speciesDb s rng).1.rest = s.rest
      rw [List.append_nil]
      refine ⟨?_, CutAndPaste.input_rest shape settings separator speciesDb s rng⟩
      cases hpaste : settings.paste with
      | false =>
          rw [CutAndPaste.input_of_not_paste shape settings separator speciesDb hpaste]
          exact hall
      | true =>
          obtain ⟨pasted, hattributes, hinput⟩ :=
            CutAndPaste.input_of_paste shape settings separator speciesDb hpaste s rng
          rw [hinput, if_pos rfl, List.map_nil, List.append_nil]
          split
          · rw [(CutAndPaste.separate_atoms settings separator speciesDb _ _).1, List.map_append,
              hattributes]
            exact hall
          · rw [List.map_append, hattributes]
            exact hall

theorem takenAway_of_keeps {b : AtomsBlock π α γ δ σ ρ} (h : b.Keeps) (s : Structure π α γ) :
    b.takenAway s = [] := by
  cases b with
  | pasteFragment b => rfl
  | cutAndPaste shape settings separator speciesDb => exact if_pos h

/-- Atoms that the block has nothing to do with stay where they are, in their order. -/
theorem apply_sublist {b : AtomsBlock π α γ δ σ ρ} (hsteady : b.Steady)
    {state : Structure π α γ × ρ} {atoms : List (Atom π α)} (hsub : atoms.Sublist state.1.atoms)
    (hspares : ∀ atom ∈ atoms, b.Spares atom) : atoms.Sublist (b.apply state).1.atoms := by
  obtain ⟨s, rng⟩ := state
  cases b with
  | pasteFragment b =>
      show atoms.Sublist (b.input s).atoms
      rw [PasteFragment.input_eq]
      exact hsub.trans (List.sublist_append_left _ _)
  | cutAndPaste shape settings separator speciesDb =>
      have houtside : atoms.Sublist (CutAndPaste.outside shape s.atoms) := by
        have hself : CutAndPaste.outside shape atoms = atoms :=
          List.filter_eq_self.mpr fun atom hatom => by
            rw [show shape.isInShape atom.position = false from hspares atom hatom]
            rfl
        rw [← hself]
        exact hsub.filter _
      refine houtside.trans ?_
      show (CutAndPaste.outside shape s.atoms).Sublist
        (CutAndPaste.input shape settings separator speciesDb s rng).1.atoms
      cases hpaste : settings.paste with
      | false => rw [CutAndPaste.input_of_not_paste shape settings separator speciesDb hpaste]
      | true =>
          obtain ⟨pasted, _, hinput⟩ :=
            CutAndPaste.input_of_paste shape settings separator speciesDb hpaste s rng
          rw [hinput]
          split
          · next hseparate =>
              have hfixed := (CutAndPaste.separate_atoms settings separator speciesDb
                { s with atoms := CutAndPaste.outside shape s.atoms ++ pasted }
                (CutAndPaste.outside shape s.atoms).length).2 (hsteady hpaste hseparate)
              rw [List.take_left] at hfixed
              nth_rewrite 1 [← hfixed]
              exact List.take_sublist _ _
          · exact List.sublist_append_left _ _

/-! ### Pipes of blocks -/

/-- **Every atom is accounted for.**  A structure goes through any pipe of these blocks.  Positions
apart, its atoms and those of the fragments are, all together, those that come out and those that were
taken away, which are none if every `CutAndPaste` block pastes.  If no separator may move atoms outside
the shape of its block, the atoms that lie in none of the shapes stay where they are, in their order.
The rest of the structure is as it was. -/
theorem run_accounts (blocks : List (AtomsBlock π α γ δ σ ρ)) (s : Structure π α γ) (rng : ρ) :
    (run blocks (s, rng)).1.atoms.map Atom.attributes ++ lost blocks (s, rng)
        ~ s.atoms.map Atom.attributes ++ blocks.flatMap appended ∧
      ((∀ b ∈ blocks, b.Keeps) → lost blocks (s, rng) = []) ∧
      ((∀ b ∈ blocks, b.Steady) → ∀ atoms : List (Atom π α), atoms.Sublist s.atoms →
        (∀ atom ∈ atoms, ∀ b ∈ blocks, b.Spares atom) →
        atoms.Sublist (run blocks (s, rng)).1.atoms) ∧
      (run blocks (s, rng)).1.rest = s.rest := by
  generalize hstate : (s, rng) = state
  obtain rfl : s = state.1 := congrArg Prod.fst hstate
  clear hstate
  induction blocks generalizing state with
  | nil =>
      exact ⟨List.Perm.refl _, fun _ => rfl, fun _ _ hsub _ => hsub, rfl⟩
  | cons b blocks ih =>
      obtain ⟨haccounts, hnone, hsub, hrest⟩ := ih (b.apply state)
      obtain ⟨hone, honeRest⟩ := b.apply_accounts state
      have hrun : run (b :: blocks) state = run blocks (b.apply state) := rfl
      rw [hrun, lost, List.flatMap_cons]
      refine ⟨?_, fun hkeeps => ?_, fun hsteady atoms hatoms hspares => ?_, hrest.trans honeRest⟩
      · calc (run blocks (b.apply state)).1.atoms.map Atom.attributes
              ++ ((b.takenAway state.1).map Atom.attributes ++ lost blocks (b.apply state))
            ~ (run blocks (b.apply state)).1.atoms.map Atom.attributes
              ++ (lost blocks (b.apply state) ++ (b.takenAway state.1).map Atom.attributes) :=
              List.perm_append_comm.append_left _
          _ ~ (b.apply state).1.atoms.map Atom.attributes ++ blocks.flatMap appended
              ++ (b.takenAway state.1).map Atom.attributes := by
              rw [← List.append_assoc]
              exact haccounts.append_right _
          _ ~ (b.apply state).1.atoms.map Atom.attributes
              ++ (b.takenAway state.1).map Atom.attributes ++ blocks.flatMap appended := by
              rw [List.append_assoc, List.append_assoc]
              exact List.perm_append_comm.append_left _
          _ ~ state.1.atoms.map Atom.attributes ++ (b.appended ++ blocks.flatMap appended) := by
              rw [← List.append_assoc]
              exact hone.append_right _
      · rw [takenAway_of_keeps (hkeeps b (by simp)), hnone fun b' hb' => hkeeps b' (by simp [hb'])]
        rfl
      · exact hsub (fun b' hb' => hsteady b' (by simp [hb'])) atoms
          (apply_sublist (hsteady b (by simp)) hatoms fun atom hatom => hspares atom hatom b (by simp))
          fun atom hatom b' hb' => hspares atom hatom b' (by simp [hb'])

/-- A fragment that is pasted into the half line of the negative numbers, and taken away again. -/
theorem run_accounts_at :
    let blocks : List (AtomsBlock ℤ Char Unit Unit Unit ℕ) :=
      [pasteFragment ⟨fun x => -x, ⟨[⟨5, 'e'⟩], ()⟩⟩,
        cutAndPaste CutAndPaste.negatives {} CutAndPaste.idleSeparator ()]
    let atoms : List (Atom ℤ Char) := [⟨3, 'b'⟩, ⟨4, 'd'⟩]
    atoms.Sublist (run blocks (⟨atoms, ()⟩, 0)).1.atoms ∧
      (run blocks (⟨atoms, ()⟩, 0)).1.atoms.map Atom.attributes ++ ['e'] ~ ['b', 'd', 'e'] := by
  intro blocks atoms
  obtain ⟨haccounts, _, hsub, _⟩ := run_accounts blocks ⟨atoms, ()⟩ 0
  have hlost : lost blocks (⟨atoms, ()⟩, 0) = ['e'] := rfl
  refine ⟨hsub (by simp [blocks, Steady]) atoms (List.Sublist.refl atoms) ?_, ?_⟩
  · simp [blocks, atoms, Spares, CutAndPaste.negatives]
  · rw [hlost] at haccounts
    exact haccounts

end AtomsBlock

end StructurePipe.Blocks
