import StructurePipe.Common.Strings
import StructurePipe.Lib.LastWrites

/-!
# Parameters in the global data

`GlobalData` keeps sets of parameters under tags.  A block that produces parameters stores them with
`setParameters`, where an empty set stands for none; a block that uses them asks with
`updateParameterisable` for those of its tag and hands them to a parameterisable object.  The map of
the tags is only searched and changed, never traversed, and is kept here as the list of its entries.

* `WellFormed` — the tags are different and no empty set is stored;
* `lookup_calls` — what a tag holds is what was set last under it, if that was not empty;
* `updateParameterisable_gives_last` — **what an object is given after any sequence of calls.**
-/

namespace StructurePipe.Common

open LastWrites

/-- `GlobalData::Parameters`. -/
abbrev Parameters := List Str

/-- The parameters in `GlobalData`. -/
structure GlobalParameters where
  myParameters : List (Str × Parameters) := []
deriving DecidableEq, Repr

/-- `IParameterisable`: an object with a state that takes parameters, or does not, and tells which it
has. -/
structure IParameterisable (ψ : Type*) where
  setParams : Parameters → ψ → Bool × ψ
  getParams : ψ → Parameters

namespace GlobalParameters

/-- The map without a tag. -/
def erase (g : GlobalParameters) (tag : Str) : GlobalParameters :=
  { g with myParameters := g.myParameters.filter fun e => e.1 ≠ tag }

/-- An empty set erases what is stored under the tag, if there is anything. -/
def setParameters (g : GlobalParameters) (tag : Str) (params : Parameters) : GlobalParameters :=
  if params.isEmpty then
    match g.myParameters.lookup tag with
    | none => g
    | some _ => g.erase tag
  else { g with myParameters := (tag, params) :: (g.erase tag).myParameters }

/-- `updateParameterisable`: its result, and the object after it. -/
def updateParameterisable {ψ : Type*} (g : GlobalParameters) (tag : Str)
    (parameterisable : IParameterisable ψ) (object : ψ) : Bool × ψ :=
  if tag.isEmpty then (false, object)
  else
    match g.myParameters.lookup tag with
    | none => (false, object)
    | some params => parameterisable.setParams params object

/-- The parameters stored under a tag. -/
def find (g : GlobalParameters) (tag : Str) : Option Parameters := g.myParameters.lookup tag

/-! ### The map -/

theorem find_erase (g : GlobalParameters) (tag tag' : Str) :
    (g.erase tag).find tag' = if tag' = tag then none else g.find tag' := by
  rw [find, erase, find]
  induction g.myParameters with
  | nil => simp
  | cons e m ih =>
      by_cases he : e.1 = tag
      · rw [List.filter_cons_of_neg (by simp [he]), ih, List.lookup_cons, he]
        by_cases ht : tag' = tag
        · simp [ht]
        · simp [ht, beq_eq_false_iff_ne.mpr ht]
      · rw [List.filter_cons_of_pos (by simp [he]), List.lookup_cons, ih, List.lookup_cons]
        by_cases ht : tag' = tag
        · simp [ht, beq_eq_false_iff_ne.mpr (Ne.symm he)]
        · simp [ht]

/-- An empty set stands for none. -/
def stored (params : Parameters) : Option Parameters := if params.isEmpty then none else some params

/-- **One call changes its own tag, and no other.** -/
theorem find_setParameters (g : GlobalParameters) (tag tag' : Str) (params : Parameters) :
    (g.setParameters tag params).find tag'
      = if tag' = tag then stored params else g.find tag' := by
  rw [setParameters, stored]
  split
  · split
    · next hnone =>
        by_cases ht : tag' = tag
        · rw [if_pos ht, ht]
          exact hnone
        · rw [if_neg ht]
    · exact find_erase g tag tag'
  · rw [find, List.lookup_cons]
    by_cases ht : tag' = tag
    · simp [ht]
    · have hrest := find_erase g tag tag'
      rw [if_neg ht, find] at hrest
      simp [ht, beq_eq_false_iff_ne.mpr ht, hrest]

/-- The tags are different, and no empty set is stored. -/
structure WellFormed (g : GlobalParameters) : Prop where
  nodup : (g.myParameters.map Prod.fst).Nodup
  nonempty : ∀ e ∈ g.myParameters, e.2 ≠ []

theorem wellFormed_empty : WellFormed {} := ⟨List.nodup_nil, by simp⟩

theorem WellFormed.erase {g : GlobalParameters} (h : g.WellFormed) (tag : Str) :
    (g.erase tag).WellFormed :=
  ⟨h.nodup.sublist ((List.filter_sublist).map Prod.fst),
    fun e he => h.nonempty e (List.mem_of_mem_filter he)⟩

theorem WellFormed.setParameters {g : GlobalParameters} (h : g.WellFormed) (tag : Str)
    (params : Parameters) : (g.setParameters tag params).WellFormed := by
  rw [GlobalParameters.setParameters]
  split
  · split
    · exact h
    · exact h.erase tag
  · next hne =>
      refine ⟨List.nodup_cons.mpr ⟨?_, (h.erase tag).nodup⟩,
        List.forall_mem_cons.mpr ⟨fun hnil => hne (List.isEmpty_iff.mpr hnil), (h.erase tag).nonempty⟩⟩
      simp [GlobalParameters.erase]

/-! ### Sequences of calls -/

/-- Calls of `setParameters`, with their tags and parameters, one after the other. -/
def setAll (g : GlobalParameters) (calls : List (Str × Parameters)) : GlobalParameters :=
  calls.foldl (fun g call => g.setParameters call.1 call.2) g

theorem setAll_concat (g : GlobalParameters) (calls : List (Str × Parameters))
    (call : Str × Parameters) :
    g.setAll (calls ++ [call]) = (g.setAll calls).setParameters call.1 call.2 := by
  rw [setAll, List.foldl_append]
  rfl

theorem wellFormed_setAll {g : GlobalParameters} (h : g.WellFormed)
    (calls : List (Str × Parameters)) : (g.setAll calls).WellFormed := by
  induction calls using List.reverseRecOn with
  | nil => exact h
  | append_singleton calls call ih =>
      rw [setAll_concat]
      exact ih.setParameters call.1 call.2

/-- **The last call decides.** -/
theorem lookup_calls (calls : List (Str × Parameters)) (tag : Str) :
    (setAll {} calls).find tag = (last tag calls).bind stored := by
  induction calls using List.reverseRecOn with
  | nil => rfl
  | append_singleton calls call ih =>
      rw [setAll_concat, find_setParameters, ih, last_append, last_singleton]
      by_cases ht : tag = call.1
      · simp [ht]
      · simp [ht]

/-- **What an object is given.**  After any sequence of calls of `setParameters` on global data
without parameters: the tags are different and no empty set is stored, so that an object is never
given an empty set; and an object that asks for the parameters of a tag is given what was last set
under it.  It is left alone, and the answer is no, if the last set was empty, if there was none, or
if the tag is the empty string, whatever is stored under that. -/
theorem updateParameterisable_gives_last {ψ : Type*} (calls : List (Str × Parameters))
    (parameterisable : IParameterisable ψ) (object : ψ) :
    ((setAll {} calls).myParameters.map Prod.fst).Nodup ∧
      (∀ e ∈ (setAll {} calls).myParameters, e.2 ≠ []) ∧
      ∀ tag, (setAll {} calls).updateParameterisable tag parameterisable object
        = match last tag calls with
          | none => (false, object)
          | some params =>
              if tag = [] ∨ params = [] then (false, object)
              else parameterisable.setParams params object := by
  have hwell := wellFormed_setAll wellFormed_empty calls
  refine ⟨hwell.nodup, hwell.nonempty, fun tag => ?_⟩
  have hfind := lookup_calls calls tag
  rw [find] at hfind
  rw [updateParameterisable, hfind]
  cases last tag calls with
  | none => simp
  | some params =>
      by_cases ht : tag = []
      · simp [ht]
      · by_cases hp : params = []
        · simp [hp, stored]
        · simp [ht, hp, stored]

end GlobalParameters

end StructurePipe.Common
