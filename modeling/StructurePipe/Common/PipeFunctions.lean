import Mathlib.Logic.Function.Basic
import StructurePipe.Common.Strings

/-!
# Functions that blocks share

The names of output files and of structures are made of the seed name of the run.

Blocks leave objects of any type for each other in two stores: one shared by the blocks of a pipeline,
one for the whole run.  `setObject` writes to the store it is told to; `getObject` is meant to look in
the shared store first and in the global one only if nothing is found there.

`getObject` decides by the location of its result where it should decide by the pointer.  The location
is still `NONE` at that point, so what the shared store returned is always replaced by what the global
store returns.

* `find_setObjects` — what a store holds after a sequence of calls is what was last set there;
* `getObject_setObjects` — **the answer comes from the global store alone;**
* `shared_shadows_global_iff` — **it is the right one exactly if the key was never set in the shared
  store.**
-/

namespace StructurePipe.Common

/-- The seed name of the run, with the name of the instance if both are set. -/
def getOutputFileStem (instanceName seedName : Str) : Str :=
  if !seedName.isEmpty && !instanceName.isEmpty then seedName ++ ['-'] ++ instanceName else seedName

/-- A unique name behind the seed name. -/
def generateStructureName {ρ : Type*} (generateUniqueName : ρ → Str × ρ) (seedName : Str) (rng : ρ) :
    Str × ρ :=
  let name := if seedName.isEmpty then seedName else seedName ++ ['-']
  let (uniqueName, rng) := generateUniqueName rng
  (name ++ uniqueName, rng)

/-- A structure with a name that can be set. -/
structure NamedStructure (γ : Type*) where
  name : Str
  rest : γ
deriving DecidableEq, Repr

/-- The blocks give a structure a name if it has none. -/
def NamedStructure.setNameIfNeeded {γ ρ : Type*} (generateUniqueName : ρ → Str × ρ) (seedName : Str)
    (structure_ : NamedStructure γ) (rng : ρ) : NamedStructure γ × ρ :=
  if structure_.name.isEmpty then
    let (name, rng) := generateStructureName generateUniqueName seedName rng
    ({ structure_ with name := name }, rng)
  else (structure_, rng)

theorem NamedStructure.setNameIfNeeded_of_named {γ ρ : Type*} (generateUniqueName : ρ → Str × ρ)
    (seedName : Str) {structure_ : NamedStructure γ} (hname : structure_.name ≠ []) (rng : ρ) :
    structure_.setNameIfNeeded generateUniqueName seedName rng = (structure_, rng) := by
  rw [setNameIfNeeded, if_neg (by simpa using hname)]

/-! ### Shared and global objects -/

namespace DataLocation

inductive Value where
  | NONE
  | STRUCTURE
  | SHARED
  | GLOBAL
deriving DecidableEq, Repr

/-- The number of an enumerator, which is what a condition reads. -/
def Value.toNat : Value → ℕ
  | .NONE => 0
  | .STRUCTURE => 1
  | .SHARED => 2
  | .GLOBAL => 3

end DataLocation

open DataLocation (Value)
open DataLocation.Value

/-- A map from keys to values whose type depends on the key. -/
structure HeterogeneousMap (κ : Type*) (T : κ → Type*) where
  Store : Type*
  empty : Store
  find : (key : κ) → Store → Option (T key)
  set : (key : κ) → T key → Store → Store
  find_empty : ∀ key, find key empty = none
  find_set_self : ∀ key value store, find key (set key value store) = some value
  find_set_of_ne : ∀ key key' value store, key' ≠ key →
    find key' (set key value store) = find key' store

/-- A location and a pointer, `none` for the null pointer.  The default is what the constructor
without arguments makes. -/
structure ObjectData (τ : Type*) where
  first : Value := NONE
  second : Option τ := none
deriving DecidableEq, Repr

variable {κ : Type*} {T : κ → Type*}

/-- The stores of `SharedData` and `GlobalData`. -/
structure ObjectStores (M : HeterogeneousMap κ T) where
  shared : M.Store
  global : M.Store

/-- The arguments of a call of `setObject`, the stores apart. -/
structure SetObject (T : κ → Type*) where
  key : κ
  location : Value
  value : T key

section Functions

variable (M : HeterogeneousMap κ T)

/-- The common body of `getObject` and `getObjectConst`, which differ in the type of the pointer. -/
def lookUp (key : κ) (stores : ObjectStores M) : ObjectData (T key) :=
  let result : ObjectData (T key) := {}
  let result := { result with second := M.find key stores.shared }
  -- the condition is on `first`, which nothing has been assigned to yet
  if result.first.toNat ≠ 0 then
    { result with first := SHARED }
  else
    let result := { result with second := M.find key stores.global }
    if result.second.isSome then { result with first := GLOBAL } else result

def getObject (key : κ) (stores : ObjectStores M) : ObjectData (T key) := lookUp M key stores

def getObjectConst (key : κ) (stores : ObjectStores M) : ObjectData (T key) := lookUp M key stores

/-- `setObject`: whether the value was stored, and the stores after it. -/
def setObject (call : SetObject T) (stores : ObjectStores M) : Bool × ObjectStores M :=
  if call.location = SHARED then
    (true, { stores with shared := M.set call.key call.value stores.shared })
  else if call.location = GLOBAL then
    (true, { stores with global := M.set call.key call.value stores.global })
  else
    (false, stores)

/-- The stores after a sequence of calls, both empty at first. -/
def setObjects (calls : List (SetObject T)) : ObjectStores M :=
  calls.foldl (fun stores call => (setObject M call stores).2) ⟨M.empty, M.empty⟩

end Functions

/-! ### What was last set -/

variable [DecidableEq κ]

/-- The value of a call, if it is for the key and the location. -/
def SetObject.valueFor (location : Value) (key : κ) (call : SetObject T) : Option (T key) :=
  if h : call.key = key then
    if call.location = location then some (h ▸ call.value) else none
  else none

/-- The value last set for a key at a location. -/
def lastSet (location : Value) (key : κ) : List (SetObject T) → Option (T key)
  | [] => none
  | call :: calls => (lastSet location key calls).or (call.valueFor location key)

/-- What the functions should return: the shared object if there is one, otherwise the global one. -/
def shadowed (key : κ) (calls : List (SetObject T)) : ObjectData (T key) :=
  match lastSet SHARED key calls with
  | some value => ⟨SHARED, some value⟩
  | none =>
      match lastSet GLOBAL key calls with
      | some value => ⟨GLOBAL, some value⟩
      | none => ⟨NONE, none⟩

theorem valueFor_eq_none_iff {location : Value} {key : κ} {call : SetObject T} :
    call.valueFor location key = none ↔ ¬ (call.key = key ∧ call.location = location) := by
  rw [SetObject.valueFor]
  split
  · next hkey => simp [hkey]
  · next hkey => simp [hkey]

/-- Nothing was set exactly if no call was for the key and the location. -/
theorem lastSet_eq_none_iff {location : Value} {key : κ} {calls : List (SetObject T)} :
    lastSet location key calls = none ↔
      ∀ call ∈ calls, ¬ (call.key = key ∧ call.location = location) := by
  induction calls with
  | nil => simp [lastSet]
  | cons call calls ih =>
      rw [lastSet, Option.or_eq_none_iff, ih, valueFor_eq_none_iff, List.forall_mem_cons, and_comm]

section Stores

variable (M : HeterogeneousMap κ T)

theorem find_set (key : κ) (location : Value) (call : SetObject T) (store : M.Store)
    (hlocation : call.location = location) :
    M.find key (M.set call.key call.value store)
      = (call.valueFor location key).or (M.find key store) := by
  by_cases hkey : call.key = key
  · subst hkey
    have hvalue : call.valueFor location call.key = some call.value := by
      rw [SetObject.valueFor, dif_pos rfl, if_pos hlocation]
    rw [hvalue, M.find_set_self, Option.some_or]
  · rw [SetObject.valueFor, dif_neg hkey, M.find_set_of_ne _ _ _ _ (Ne.symm hkey), Option.none_or]

theorem valueFor_of_location_ne {key : κ} {location : Value} {call : SetObject T}
    (hlocation : call.location ≠ location) : call.valueFor location key = none :=
  valueFor_eq_none_iff.mpr fun h => hlocation h.2

/-- **One call.**  Each store takes the value if the call is for it, and is untouched otherwise. -/
theorem find_setObject (key : κ) (call : SetObject T) (stores : ObjectStores M) :
    M.find key (setObject M call stores).2.shared
        = (call.valueFor SHARED key).or (M.find key stores.shared) ∧
      M.find key (setObject M call stores).2.global
        = (call.valueFor GLOBAL key).or (M.find key stores.global) := by
  rw [setObject]
  by_cases hshared : call.location = SHARED
  · have hglobal : call.location ≠ GLOBAL := by simp [hshared]
    rw [if_pos hshared, valueFor_of_location_ne hglobal, Option.none_or]
    exact ⟨find_set M key SHARED call stores.shared hshared, rfl⟩
  · rw [if_neg hshared, valueFor_of_location_ne hshared, Option.none_or]
    by_cases hglobal : call.location = GLOBAL
    · rw [if_pos hglobal]
      exact ⟨rfl, find_set M key GLOBAL call stores.global hglobal⟩
    · rw [if_neg hglobal, valueFor_of_location_ne hglobal, Option.none_or]
      exact ⟨rfl, rfl⟩

theorem find_foldl_setObject (key : κ) (calls : List (SetObject T)) :
    ∀ stores : ObjectStores M,
      let after := calls.foldl (fun stores call => (setObject M call stores).2) stores
      M.find key after.shared = (lastSet SHARED key calls).or (M.find key stores.shared) ∧
        M.find key after.global = (lastSet GLOBAL key calls).or (M.find key stores.global) := by
  induction calls with
  | nil => exact fun stores => ⟨rfl, rfl⟩
  | cons call calls ih =>
      intro stores
      obtain ⟨hshared, hglobal⟩ := ih (setObject M call stores).2
      obtain ⟨hshared', hglobal'⟩ := find_setObject M key call stores
      simp only [List.foldl_cons, lastSet]
      rw [hshared, hglobal, hshared', hglobal', Option.or_assoc, Option.or_assoc]
      exact ⟨rfl, rfl⟩

/-- **Any sequence of calls.**  Each store holds what was last set there. -/
theorem find_setObjects (key : κ) (calls : List (SetObject T)) :
    M.find key (setObjects M calls).shared = lastSet SHARED key calls ∧
      M.find key (setObjects M calls).global = lastSet GLOBAL key calls := by
  have h := find_foldl_setObject M key calls ⟨M.empty, M.empty⟩
  simpa only [setObjects, M.find_empty, Option.or_none] using h

omit [DecidableEq κ] in
/-- What the shared store returned is always replaced. -/
theorem lookUp_eq (key : κ) (stores : ObjectStores M) :
    lookUp M key stores = match M.find key stores.global with
      | some value => ⟨GLOBAL, some value⟩
      | none => ⟨NONE, none⟩ := by
  cases hfind : M.find key stores.global with
  | none => simp [lookUp, hfind, Value.toNat]
  | some value => simp [lookUp, hfind, Value.toNat]

/-- **The answer comes from the global store alone.** -/
theorem getObject_setObjects (key : κ) (calls : List (SetObject T)) :
    getObject M key (setObjects M calls) = match lastSet GLOBAL key calls with
      | some value => ⟨GLOBAL, some value⟩
      | none => ⟨NONE, none⟩ := by
  rw [getObject, lookUp_eq, (find_setObjects M key calls).2]

/-- **When shared objects shadow global ones.**  For each key: exactly if it was never set in the
shared store. -/
theorem shared_shadows_global_iff (key : κ) (calls : List (SetObject T)) :
    (getObject M key (setObjects M calls) = shadowed key calls ∧
        getObjectConst M key (setObjects M calls) = shadowed key calls) ↔
      ∀ call ∈ calls, ¬ (call.key = key ∧ call.location = SHARED) := by
  have hsame : getObjectConst M key (setObjects M calls) = getObject M key (setObjects M calls) :=
    rfl
  rw [hsame, and_self, getObject_setObjects, shadowed, ← lastSet_eq_none_iff]
  cases hshared : lastSet SHARED key calls with
  | none => simp
  | some value => cases lastSet GLOBAL key calls with
      | none => simp
      | some value' => simp

end Stores

/-- Functions with an update in one place: a map as the functions above expect it. -/
def functionMap (κ : Type) [DecidableEq κ] (T : κ → Type) : HeterogeneousMap κ T where
  Store := (key : κ) → Option (T key)
  empty := fun _ => none
  find key store := store key
  set key value store := Function.update store key (some value)
  find_empty _ := rfl
  find_set_self key value store := Function.update_self key (some value) store
  find_set_of_ne _ _ value store h := Function.update_of_ne h (some value) store

/-- **A shared object is never seen.**  With the same key set in both stores the global value is
returned, with the shared one alone nothing. -/
theorem shared_object_is_hidden :
    getObject (functionMap Bool fun _ => ℕ) true
        (setObjects _ [⟨true, SHARED, 1⟩, ⟨true, GLOBAL, 2⟩]) = ⟨GLOBAL, some 2⟩ ∧
      getObject (functionMap Bool fun _ => ℕ) true (setObjects _ [⟨true, SHARED, 1⟩])
        = ⟨NONE, none⟩ ∧
      ¬ (∀ (key : Bool) (calls : List (SetObject fun _ : Bool => ℕ)),
        (∀ call ∈ calls, call.location = SHARED ∨ call.location = GLOBAL) →
        getObject (functionMap Bool fun _ => ℕ) key (setObjects _ calls) = shadowed key calls ∧
          getObjectConst (functionMap Bool fun _ => ℕ) key (setObjects _ calls)
            = shadowed key calls) := by
  refine ⟨by decide, by decide, fun hall => ?_⟩
  have hone := (hall true [⟨true, SHARED, 1⟩] (by simp)).1
  exact absurd hone (by decide)

end StructurePipe.Common
