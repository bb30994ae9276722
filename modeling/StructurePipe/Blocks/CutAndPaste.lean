import Mathlib.Data.Finset.Insert
import Mathlib.Data.List.Basic
import Mathlib.Tactic

/-!
# CutAndPaste

The block takes the atoms that lie in a shape out of a structure.  With `paste` on it puts each of
them back at a random point of the shape, after the atoms that were left alone, and with `separate`
on it lets the point separator move atoms that are too close to each other; `fixUntouched` tells the
separator which positions to leave alone, by their indices.

* `cut_eq` — **erasing in the middle of the loop splits the atoms into those outside and those
  inside the shape, each part in its order;**
* `paste_atoms` — pasting appends, and changes positions only;
* `separate_eq` — the separation writes positions back, and with `fixUntouched` the first ones as they
  were;
* `conserves_atoms` — no atom is lost, doubled, reordered or changed in more than its position.
-/

namespace StructurePipe.Blocks

namespace CutAndPaste

/-- An atom: where it is, and everything else about it. -/
structure Atom (π α : Type*) where
  position : π
  attributes : α
deriving DecidableEq, Repr

/-- A structure: its atoms in order, and everything else about it. -/
structure Structure (π α γ : Type*) where
  atoms : List (Atom π α)
  rest : γ
deriving DecidableEq, Repr

/-- A shape with its source of random numbers. -/
structure GeneratorShape (π ρ : Type*) where
  isInShape : π → Bool
  randomPoint : ρ → π × ρ

structure Settings where
  paste : Bool := false
  separate : Bool := true
  fixUntouched : Bool := true
deriving DecidableEq, Repr

/-- What the separator works on: the points, the indices of those that stay, and the distances
asked for. -/
structure SeparationData (π σ : Type*) where
  points : List π
  fixedPoints : Finset ℕ
  separations : σ

variable {π α γ δ σ ρ : Type*}

def Atom.setPosition (atom : Atom π α) (point : π) : Atom π α := { atom with position := point }

@[simp] theorem Atom.setPosition_position (atom : Atom π α) :
    atom.setPosition atom.position = atom := rfl

@[simp] theorem Atom.setPosition_attributes (atom : Atom π α) (point : π) :
    (atom.setPosition point).attributes = atom.attributes := rfl

/-- The point separator, and how a structure is given the positions it has found.  The data lists the
positions in the order of the atoms; separating keeps the number of points and does not move the fixed
ones; and as many positions as there are atoms become those of the atoms, one after the other. -/
structure PointSeparator (π α γ δ σ : Type*) where
  separationData : Structure π α γ → δ → SeparationData π σ
  separatePoints : SeparationData π σ → SeparationData π σ
  setAtomPositions : Structure π α γ → List π → Structure π α γ
  points_eq : ∀ s db, (separationData s db).points = s.atoms.map Atom.position
  length_eq : ∀ data, (separatePoints data).points.length = data.points.length
  fixed_eq : ∀ data, ∀ i ∈ data.fixedPoints, (separatePoints data).points[i]? = data.points[i]?
  setAtomPositions_eq : ∀ s points, points.length = s.atoms.length →
    setAtomPositions s points = { s with atoms := List.zipWith Atom.setPosition s.atoms points }

namespace Structure

/-- The structure without one atom, and the iterator to the atom that came after it. -/
def eraseAtom (s : Structure π α γ) (it : ℕ) : Structure π α γ × ℕ :=
  ({ s with atoms := s.atoms.eraseIdx it }, it)

def newAtom (s : Structure π α γ) (atom : Atom π α) : Structure π α γ :=
  { s with atoms := s.atoms ++ [atom] }

end Structure

/-! ### The block -/

/-- The first loop of `in`, from the atom at the iterator on. -/
def cut (shape : GeneratorShape π ρ) (s : Structure π α γ) (it : ℕ) (cutAtoms : List (Atom π α)) :
    Structure π α γ × List (Atom π α) :=
  if h : it < s.atoms.length then
    if shape.isInShape s.atoms[it].position then
      cut shape (s.eraseAtom it).1 (s.eraseAtom it).2 (cutAtoms ++ [s.atoms[it]])
    else
      cut shape s (it + 1) cutAtoms
  else
    (s, cutAtoms)
termination_by s.atoms.length - it
decreasing_by
  · simp only [Structure.eraseAtom, List.length_eraseIdx_of_lt h]
    omega
  · omega

/-- One turn of the second loop: the atom gets a random point and is appended. -/
def pasteAtom (shape : GeneratorShape π ρ) (state : Structure π α γ × ρ) (atom : Atom π α) :
    Structure π α γ × ρ :=
  let (point, rng) := shape.randomPoint state.2
  (state.1.newAtom (atom.setPosition point), rng)

/-- The first points are not to be moved. -/
def fixPoints (data : SeparationData π σ) (numUntouched : ℕ) : SeparationData π σ :=
  { data with
    fixedPoints := (List.range numUntouched).foldl (fun fixed i => insert i fixed) data.fixedPoints }

/-- What `in` does if `separate` is on, with the number of atoms left after the cut. -/
def separate (settings : Settings) (separator : PointSeparator π α γ δ σ) (speciesDb : δ)
    (s : Structure π α γ) (numUntouched : ℕ) : Structure π α γ :=
  let sepData := separator.separationData s speciesDb
  let sepData := if settings.fixUntouched then fixPoints sepData numUntouched else sepData
  separator.setAtomPositions s (separator.separatePoints sepData).points

/-- `CutAndPaste::in`: the structure that is sent out, and the random numbers after it. -/
def input (shape : GeneratorShape π ρ) (settings : Settings) (separator : PointSeparator π α γ δ σ)
    (speciesDb : δ) (s : Structure π α γ) (rng : ρ) : Structure π α γ × ρ :=
  let (s, cutAtoms) := cut shape s 0 []
  if settings.paste then
    let numUntouched := s.atoms.length
    let (s, rng) := cutAtoms.foldl (pasteAtom shape) (s, rng)
    if settings.separate then
      (separate settings separator speciesDb s numUntouched, rng)
    else
      (s, rng)
  else
    (s, rng)

/-! ### The two loops -/

/-- The atoms outside the shape. -/
def outside (shape : GeneratorShape π ρ) (atoms : List (Atom π α)) : List (Atom π α) :=
  atoms.filter fun atom => !shape.isInShape atom.position

/-- The atoms inside the shape. -/
def inside (shape : GeneratorShape π ρ) (atoms : List (Atom π α)) : List (Atom π α) :=
  atoms.filter fun atom => shape.isInShape atom.position

/-- From any point of the loop on: the atoms passed so far stay, of the others those inside the
shape are moved to the cut atoms. -/
theorem cut_append (shape : GeneratorShape π ρ) (atoms : List (Atom π α)) :
    ∀ (passed : List (Atom π α)) (rest : γ) (cutAtoms : List (Atom π α)),
      cut shape ⟨passed ++ atoms, rest⟩ passed.length cutAtoms
        = (⟨passed ++ outside shape atoms, rest⟩, cutAtoms ++ inside shape atoms) := by
  induction atoms with
  | nil =>
      intro passed rest cutAtoms
      rw [cut]
      simp [outside, inside]
  | cons atom atoms ih =>
      intro passed rest cutAtoms
      have hlt : passed.length < (passed ++ atom :: atoms).length := by simp
      have hget : (passed ++ atom :: atoms)[passed.length] = atom := by simp
      rw [cut, dif_pos hlt]
      simp only [hget]
      by_cases hin : shape.isInShape atom.position
      · -- the atom is erased: the iterator stands on the next one without moving
        have herase : (passed ++ atom :: atoms).eraseIdx passed.length = passed ++ atoms := by
          simp [List.eraseIdx_append_of_length_le]
        rw [if_pos hin, Structure.eraseAtom, herase, ih]
        simp [outside, inside, hin]
      · have hpassed : passed ++ atom :: atoms = (passed ++ [atom]) ++ atoms := by simp
        have hlength : passed.length + 1 = (passed ++ [atom]).length := by simp
        rw [if_neg hin, hpassed, hlength, ih]
        simp [outside, inside, hin]

/-- **The cut.** -/
theorem cut_eq (shape : GeneratorShape π ρ) (s : Structure π α γ) :
    cut shape s 0 [] = ({ s with atoms := outside shape s.atoms }, inside shape s.atoms) := by
  simpa using cut_append shape s.atoms [] s.rest []

/-- **The paste.**  The atoms are appended; positions apart they are the ones that were cut. -/
theorem paste_atoms (shape : GeneratorShape π ρ) (cutAtoms : List (Atom π α)) :
    ∀ (s : Structure π α γ) (rng : ρ), ∃ pasted,
      (cutAtoms.foldl (pasteAtom shape) (s, rng)).1 = { s with atoms := s.atoms ++ pasted } ∧
        pasted.map Atom.attributes = cutAtoms.map Atom.attributes := by
  induction cutAtoms with
  | nil => exact fun s _ => ⟨[], by simp, rfl⟩
  | cons atom cutAtoms ih =>
      intro s rng
      cases hpoint : shape.randomPoint rng with
      | mk point rng' =>
          obtain ⟨pasted, hstructure, hattributes⟩ := ih (s.newAtom (atom.setPosition point)) rng'
          refine ⟨atom.setPosition point :: pasted, ?_, ?_⟩
          · rw [List.foldl_cons, pasteAtom, hpoint, hstructure]
            simp [Structure.newAtom]
          · simp [hattributes]

theorem mem_foldl_insert {i : ℕ} (indices : List ℕ) (fixed : Finset ℕ) :
    i ∈ indices.foldl (fun fixed i => insert i fixed) fixed ↔ i ∈ indices ∨ i ∈ fixed := by
  induction indices generalizing fixed with
  | nil => simp
  | cons j indices ih =>
      rw [List.foldl_cons, ih, Finset.mem_insert, List.mem_cons]
      tauto

theorem mem_fixPoints (data : SeparationData π σ) {numUntouched i : ℕ} (hi : i < numUntouched) :
    i ∈ (fixPoints data numUntouched).fixedPoints :=
  (mem_foldl_insert _ _).mpr (Or.inl (List.mem_range.mpr hi))

/-! ### Writing the positions back -/

/-- As many points as atoms: every atom keeps everything but its position. -/
theorem zipWith_setPosition_attributes {atoms : List (Atom π α)} {points : List π}
    (hlength : points.length = atoms.length) :
    (List.zipWith Atom.setPosition atoms points).map Atom.attributes
      = atoms.map Atom.attributes := by
  induction atoms generalizing points with
  | nil => simp
  | cons atom atoms ih =>
      cases points with
      | nil => simp at hlength
      | cons point points =>
          simp only [List.length_cons, Nat.add_right_cancel_iff] at hlength
          simp [ih hlength]

/-- Atoms whose positions are written back unchanged are unchanged. -/
theorem zipWith_setPosition_take {atoms : List (Atom π α)} {points : List π} {n : ℕ}
    (hfixed : ∀ i < n, points[i]? = (atoms.map Atom.position)[i]?) :
    (List.zipWith Atom.setPosition atoms points).take n = atoms.take n := by
  refine List.ext_getElem? fun i => ?_
  rw [List.getElem?_take, List.getElem?_take]
  split
  · rename_i hi
    rw [List.getElem?_zipWith, hfixed i hi, List.getElem?_map]
    cases atoms[i]? <;> simp
  · rfl

/-! ### The block as a whole -/

section Input

variable (shape : GeneratorShape π ρ) (settings : Settings) (separator : PointSeparator π α γ δ σ)
  (speciesDb : δ)

/-- **The separation** writes one position for each atom, and with `fixUntouched` leaves the first
ones. -/
theorem separate_eq (s : Structure π α γ) (numUntouched : ℕ) :
    ∃ points, points.length = s.atoms.length ∧
      (settings.fixUntouched = true →
        ∀ i < numUntouched, points[i]? = (s.atoms.map Atom.position)[i]?) ∧
      separate settings separator speciesDb s numUntouched
        = { s with atoms := List.zipWith Atom.setPosition s.atoms points } := by
  generalize hdata : (if settings.fixUntouched
    then fixPoints (separator.separationData s speciesDb) numUntouched
    else separator.separationData s speciesDb) = sepData
  have hpoints : sepData.points = s.atoms.map Atom.position := by
    rw [← hdata]
    split
    · exact separator.points_eq s speciesDb
    · exact separator.points_eq s speciesDb
  have hlength : (separator.separatePoints sepData).points.length = s.atoms.length := by
    rw [separator.length_eq, hpoints, List.length_map]
  refine ⟨(separator.separatePoints sepData).points, hlength, fun hfix i hi => ?_, ?_⟩
  · have hmem : i ∈ sepData.fixedPoints := by
      rw [← hdata, if_pos hfix]
      exact mem_fixPoints _ hi
    rw [separator.fixed_eq sepData i hmem, hpoints]
  · rw [separate, hdata]
    exact separator.setAtomPositions_eq s _ hlength

/-- The separation changes positions only, and with `fixUntouched` none of the first ones. -/
theorem separate_atoms (s : Structure π α γ) (numUntouched : ℕ) :
    (separate settings separator speciesDb s numUntouched).atoms.map Atom.attributes
        = s.atoms.map Atom.attributes ∧
      (settings.fixUntouched = true →
        (separate settings separator speciesDb s numUntouched).atoms.take numUntouched
          = s.atoms.take numUntouched) := by
  obtain ⟨points, hlength, hfixed, hseparate⟩ :=
    separate_eq settings separator speciesDb s numUntouched
  rw [hseparate]
  exact ⟨zipWith_setPosition_attributes hlength, fun hfix => zipWith_setPosition_take (hfixed hfix)⟩

theorem separate_rest (s : Structure π α γ) (numUntouched : ℕ) :
    (separate settings separator speciesDb s numUntouched).rest = s.rest := by
  obtain ⟨points, _, _, hseparate⟩ := separate_eq settings separator speciesDb s numUntouched
  rw [hseparate]

/-- With `paste` on: what is sent out is the structure after the paste, or the separated one. -/
theorem input_of_paste (hpaste : settings.paste = true) (s : Structure π α γ) (rng : ρ) :
    ∃ pasted, pasted.map Atom.attributes = (inside shape s.atoms).map Atom.attributes ∧
      (input shape settings separator speciesDb s rng).1
        = if settings.separate
          then separate settings separator speciesDb
            { s with atoms := outside shape s.atoms ++ pasted } (outside shape s.atoms).length
          else { s with atoms := outside shape s.atoms ++ pasted } := by
  obtain ⟨pasted, hpasted, hattributes⟩ :=
    paste_atoms shape (inside shape s.atoms) { s with atoms := outside shape s.atoms } rng
  refine ⟨pasted, hattributes, ?_⟩
  rw [input, cut_eq]
  simp only [if_pos hpaste, hpasted]
  split
  · rfl
  · rfl

/-- Without `paste` the atoms outside the shape are sent out. -/
theorem input_of_not_paste (hpaste : settings.paste = false) (s : Structure π α γ) (rng : ρ) :
    (input shape settings separator speciesDb s rng).1
      = { s with atoms := outside shape s.atoms } := by
  rw [input, cut_eq]
  simp [hpaste]

/-- Nothing but the atoms is changed. -/
theorem input_rest (s : Structure π α γ) (rng : ρ) :
    (input shape settings separator speciesDb s rng).1.rest = s.rest := by
  cases hpaste : settings.paste with
  | false => rw [input_of_not_paste shape settings separator speciesDb hpaste]
  | true =>
      obtain ⟨pasted, _, hinput⟩ := input_of_paste shape settings separator speciesDb hpaste s rng
      rw [hinput]
      split
      · exact separate_rest settings separator speciesDb _ _
      · rfl

/-- **CutAndPaste conserves atoms.**  Without `paste` it sends out the atoms outside the shape,
unchanged and in their order.  With it the atoms are those outside the shape followed by those
inside, each part in its order, and nothing but positions has changed.  With `fixUntouched`, or
without `separate`, no atom outside the shape has moved.  The rest of the structure is as it was. -/
theorem conserves_atoms (s : Structure π α γ) (rng : ρ) :
    (settings.paste = false →
        (input shape settings separator speciesDb s rng).1.atoms = outside shape s.atoms) ∧
      (settings.paste = true →
        (input shape settings separator speciesDb s rng).1.atoms.map Atom.attributes
          = (outside shape s.atoms ++ inside shape s.atoms).map Atom.attributes) ∧
      ((settings.fixUntouched = true ∨ settings.separate = false) →
        (input shape settings separator speciesDb s rng).1.atoms.take
          (outside shape s.atoms).length = outside shape s.atoms) ∧
      (input shape settings separator speciesDb s rng).1.rest = s.rest := by
  have hrest := input_rest shape settings separator speciesDb s rng
  cases hpaste : settings.paste with
  | false => simp [input_of_not_paste shape settings separator speciesDb hpaste]
  | true =>
      obtain ⟨pasted, hattributes, hinput⟩ :=
        input_of_paste shape settings separator speciesDb hpaste s rng
      have hfront : (outside shape s.atoms ++ pasted).take (outside shape s.atoms).length
          = outside shape s.atoms := List.take_left
      rw [hinput] at hrest ⊢
      refine ⟨by simp, fun _ => ?_, fun hfix => ?_, hrest⟩
      · split
        · rw [(separate_atoms settings separator speciesDb _ _).1]
          simp [hattributes]
        · simp [hattributes]
      · split
        · rename_i hseparate
          have hfixed : settings.fixUntouched = true := by simpa [hseparate] using hfix
          rw [(separate_atoms settings separator speciesDb _ _).2 hfixed, hfront]
        · exact hfront

end Input

/-- The separator on points that are far enough apart: nothing is to be done. -/
def idleSeparator : PointSeparator ℤ Char Unit Unit Unit where
  separationData s _ := ⟨s.atoms.map Atom.position, ∅, ()⟩
  separatePoints data := data
  setAtomPositions s points := { s with atoms := List.zipWith Atom.setPosition s.atoms points }
  points_eq _ _ := rfl
  length_eq _ := rfl
  fixed_eq _ _ _ := rfl
  setAtomPositions_eq _ _ _ := rfl

/-- The half line of the negative numbers, with random points `-1`, `-2`, ... -/
def negatives : GeneratorShape ℤ ℕ where
  isInShape x := decide (x < 0)
  randomPoint n := (-(n + 1 : ℤ), n + 1)

/-- Atoms inside and outside in turn. -/
theorem conserves_atoms_at :
    (input negatives { paste := true } idleSeparator ()
        ⟨[⟨-5, 'a'⟩, ⟨3, 'b'⟩, ⟨-7, 'c'⟩, ⟨4, 'd'⟩], ()⟩ 0).1.atoms.map Atom.attributes
      = ['b', 'd', 'a', 'c'] :=
  (conserves_atoms negatives { paste := true } idleSeparator ()
    ⟨[⟨-5, 'a'⟩, ⟨3, 'b'⟩, ⟨-7, 'c'⟩, ⟨4, 'd'⟩], ()⟩ 0).2.1 rfl

end CutAndPaste

end StructurePipe.Blocks
