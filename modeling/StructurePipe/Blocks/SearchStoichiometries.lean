import StructurePipe.Common.Paths
import StructurePipe.Lib.FixedLabels
import StructurePipe.Lib.OrderedMap
import Mathlib.Data.Char
import Mathlib.Data.List.Lex

/-!
# Searching stoichiometries

`SearchStoichiometries` runs a sub-pipe once for each stoichiometry in a box.  Before each run it puts
the numbers of atoms into the global data and gives the sub-pipe a working directory; the structures
that the sub-pipe finishes are buffered.  After the run it writes a row of its table and sends the
buffered structures on.

What `start` does is modelled as the list of the calls it makes, one list for each round of its loop:
runs of the sub-pipe, inserts into the table, structures sent out.  The sub-pipe is any function of
its own state, its working directory and the global data; it may change the latter two.

* `loop_spec` — what a round of the loop does, and that it leaves the buffer empty;
* `visitsOf_spec` — the runs of the sub-pipe account for all calls;
* `mem_visited_iff` — the stoichiometries for which the sub-pipe is run.
-/

namespace StructurePipe.Blocks

open OrderedMap

/-! ### What the block works with -/

/-- `Range<int>`. -/
structure CountRange where
  min : ℤ
  max : ℤ
deriving DecidableEq, Repr

/-- The options.  `atomRanges` is a `std::map`. -/
structure SearchOptions where
  atomRanges : List (Str × CountRange) := []
  maxAtoms : ℕ := 2 ^ 64 - 1
  useSeparateDirectories : Bool := false
  ordered : Ordered atomRanges

/-- `MultiIdxRange<unsigned int>(lower, upper)` as it is traversed: each index of the half-open box
once. -/
structure MultiIdxRange where
  indices : List ℕ → List ℕ → List (List ℕ)
  nodup : ∀ lower upper, (indices lower upper).Nodup
  mem_iff : ∀ {lower upper}, lower.length = upper.length → ∀ idx,
    idx ∈ indices lower upper ↔ List.Forall₂ (fun n b => b.1 ≤ n ∧ n < b.2) idx (lower.zip upper)

/-- What the block asks of a structure `α`, a resource locator `ρ` and an energy `ε`. -/
structure StructureLibrary (α ρ ε : Type*) where
  lastAbsFilePath : α → Option ρ
  spacegroupNumber : α → Option ℕ
  energyInternal : α → Option ε
  numAtoms : α → ℕ
  /-- `ResourceLocator()`. -/
  noLocator : ρ
  isEmpty : ρ → Bool
  locatorString : ρ → Str
  path : ρ → Path
  setPath : ρ → Path → ρ
  makeRelative : Path → Path → Path
  /-- `toString(energy / numAtoms)`. -/
  energyPerAtom : ε → ℕ → Str

structure GenerationSettings where
  atomsSettings : List (Str × ℕ) := []
deriving DecidableEq, Repr

structure GlobalData where
  workingDir : Path
  generationSettings : Option GenerationSettings := none
deriving DecidableEq, Repr

/-- The block with the engine it is attached to: the working directory in the shared data, and the
sub-pipe, which from its state, its working directory and the global data makes the structures it
finishes, its next state and the next global data. -/
structure SearchStoichiometries (α ρ ε ω : Type*) where
  myOptions : SearchOptions
  library : StructureLibrary α ρ ε
  multiIdxRange : MultiIdxRange
  isAbsolute : Path → Bool
  sharedWorkingDir : Path
  subpipe : ω → Path → GlobalData → List α × ω × GlobalData

/-- What changes while `start` is running. -/
structure Sweep (α ω : Type*) where
  globalData : GlobalData
  subpipe : ω
  myBuffer : List α := []

/-- `globalData().objectsStore[GENERATION_SETTINGS] = settings`. -/
def Sweep.setGenerationSettings {α ω : Type*} (s : Sweep α ω) (settings : GenerationSettings) :
    Sweep α ω :=
  { s with globalData := { s.globalData with generationSettings := some settings } }

/-- A run of the sub-pipe: the global data it finds, its working directory, the structures it passes
to `finished`, and the global data it leaves. -/
structure SubpipeRun (α : Type*) where
  found : GlobalData
  workingDir : Path
  finished : List α
  left : GlobalData
deriving DecidableEq, Repr

inductive SweepCall (α : Type*) where
  | run (r : SubpipeRun α)
  | insert (key colName value : Str)
  | out (structureData : α)
deriving DecidableEq, Repr

/-- The conversion of an `int` to `unsigned int`. -/
def toUnsigned (n : ℤ) : ℕ := (n % 2 ^ 32).toNat

/-- `currentIdx.sum()`. -/
def totalAtoms (currentIdx : List ℕ) : ℕ := currentIdx.sum % 2 ^ 32

namespace SearchOptions

variable (o : SearchOptions)

/-- The atoms of all species are inserted, one after the other. -/
def generationSettings (currentIdx : List ℕ) : GenerationSettings where
  atomsSettings := o.atomRanges.zipIdx.foldl
    (fun settings (range, i) => OrderedMap.set range.1 (currentIdx.getD i 0) settings) []

/-- Counts and symbols, with a delimiter apart from after the last species. -/
def stoichString (currentIdx : List ℕ) : Str :=
  o.atomRanges.zipIdx.flatMap fun (range, i) =>
    (decimal (currentIdx.getD i 0) ++ range.1) ++ if i + 1 < currentIdx.length then ['-'] else []

def sweepPath (workingDir : Path) (currentIdx : List ℕ) : Path :=
  if o.useSeparateDirectories then workingDir.append (o.stoichString currentIdx) else workingDir

/-- The name of a species column: the label, or the number of a species without a label. -/
def speciesTableColumn (label : Str) (i : ℕ) : Str := if label.isEmpty then decimal i else label

/-- The cells that `updateTable` writes. -/
def countCells (currentIdx : List ℕ) : List (Str × Str) :=
  o.atomRanges.zipIdx.map fun (range, i) =>
    (speciesTableColumn range.1 i, decimal (currentIdx.getD i 0))

/-- `"."` stands for the empty path. -/
def tableKey (sweepPath : Path) : Str := if sweepPath.isEmpty then ['.'] else sweepPath

/-- The loop goes on with the next index unless this holds. -/
def Visits (currentIdx : List ℕ) : Prop :=
  ¬ (totalAtoms currentIdx = 0 ∨ o.maxAtoms < totalAtoms currentIdx)

instance (currentIdx : List ℕ) : Decidable (o.Visits currentIdx) :=
  inferInstanceAs (Decidable (¬ _))

end SearchOptions

/-- The path of the last file of a structure, relative to a directory. -/
def StructureLibrary.getRelativeSavePath {α ρ ε : Type*} (lib : StructureLibrary α ρ ε)
    (structureData : α) (relativeTo : Path) : ρ :=
  match lib.lastAbsFilePath structureData with
  | none => lib.noLocator
  | some lastSaved => lib.setPath lastSaved (lib.makeRelative relativeTo (lib.path lastSaved))

namespace SearchStoichiometries

variable {α ρ ε ω : Type*} (b : SearchStoichiometries α ρ ε ω)

/-- `workingDir()` of the block. -/
def workingDir (globalData : GlobalData) : Path :=
  getWorkingDir b.isAbsolute b.sharedWorkingDir globalData.workingDir

/-- The upper bounds of a half-open box are one more than the largest counts. -/
def getStoichRange : List (List ℕ) :=
  b.multiIdxRange.indices (b.myOptions.atomRanges.map fun range => toUnsigned range.2.min)
    (b.myOptions.atomRanges.map fun range => toUnsigned (range.2.max + 1))

def updateTable (key : Str) (currentIdx : List ℕ) : List (SweepCall α) :=
  (b.myOptions.countCells currentIdx).map fun cell => .insert key cell.1 cell.2

/-- The cells written for one of the buffered structures. -/
def resultCells (globalData : GlobalData) (structureData : α) : List (Str × Str) :=
  let lastSavedRelative :=
    b.library.getRelativeSavePath structureData (b.workingDir globalData)
  (if b.library.isEmpty lastSavedRelative then []
    else [(['l', 'o', 'w', 'e', 's', 't'], b.library.locatorString lastSavedRelative)])
  ++ (match b.library.spacegroupNumber structureData with
    | none => []
    | some spacegroup => [(['s', 'g'], decimal spacegroup)])
  ++ (match b.library.energyInternal structureData with
    | none => []
    | some energy =>
        if b.library.numAtoms structureData = 0 then []
        else [("energy/atom".toList,
          b.library.energyPerAtom energy (b.library.numAtoms structureData))])

/-- The calls for one of the buffered structures. -/
def releaseStructure (key : Str) (globalData : GlobalData) (structureData : α) :
    List (SweepCall α) :=
  (b.resultCells globalData structureData).map (fun cell => .insert key cell.1 cell.2)
    ++ [.out structureData]

def releaseBufferedStructures (key : Str) (s : Sweep α ω) : List (SweepCall α) × Sweep α ω :=
  (s.myBuffer.flatMap (b.releaseStructure key s.globalData), { s with myBuffer := [] })

/-- `mySubpipeEngine->run()`: every structure passed to `finished` goes to the buffer. -/
def runSubpipe (workingDir : Path) (s : Sweep α ω) : SubpipeRun α × Sweep α ω :=
  let result := b.subpipe s.subpipe workingDir s.globalData
  (⟨s.globalData, workingDir, result.1, result.2.2⟩,
    ⟨result.2.2, result.2.1, s.myBuffer ++ result.1⟩)

/-- The body of the loop. -/
def round (workingDir : Path) (s : Sweep α ω) (currentIdx : List ℕ) :
    List (SweepCall α) × Sweep α ω :=
  if b.myOptions.Visits currentIdx then
    let s := s.setGenerationSettings (b.myOptions.generationSettings currentIdx)
    let sweepPath := b.myOptions.sweepPath workingDir currentIdx
    let (r, s) := b.runSubpipe sweepPath s
    let counts := b.updateTable (SearchOptions.tableKey sweepPath) currentIdx
    let (released, s) := b.releaseBufferedStructures sweepPath s
    (.run r :: (counts ++ released), s)
  else ([], s)

/-- The loop: the calls of each round with its index. -/
def loop (workingDir : Path) (s : Sweep α ω) :
    List (List ℕ) → List (List ℕ × List (SweepCall α)) × Sweep α ω
  | [] => ([], s)
  | currentIdx :: rest =>
      let (calls, s) := b.round workingDir s currentIdx
      let (rounds, s) := loop workingDir s rest
      ((currentIdx, calls) :: rounds, s)

def start (s : Sweep α ω) : List (List ℕ × List (SweepCall α)) × Sweep α ω :=
  b.loop (b.workingDir s.globalData) s b.getStoichRange

/-! ### One round -/

/-- The calls of a round in which the sub-pipe is run. -/
def callsOf (workingDir : Path) (currentIdx : List ℕ) (r : SubpipeRun α) : List (SweepCall α) :=
  let sweepPath := b.myOptions.sweepPath workingDir currentIdx
  .run r :: (b.updateTable (SearchOptions.tableKey sweepPath) currentIdx
    ++ r.finished.flatMap (b.releaseStructure sweepPath r.left))

/-- What can happen in a round: nothing, if its index is not visited, or a run with the settings and
the directory of its index. -/
def IsRound (workingDir : Path) (currentIdx : List ℕ) (calls : List (SweepCall α)) : Prop :=
  ¬ b.myOptions.Visits currentIdx ∧ calls = [] ∨
    b.myOptions.Visits currentIdx ∧ ∃ r : SubpipeRun α,
      r.found.generationSettings = some (b.myOptions.generationSettings currentIdx) ∧
      r.workingDir = b.myOptions.sweepPath workingDir currentIdx ∧
      calls = b.callsOf workingDir currentIdx r

theorem isRound_round (workingDir : Path) {s : Sweep α ω} (hbuffer : s.myBuffer = [])
    (currentIdx : List ℕ) :
    b.IsRound workingDir currentIdx (b.round workingDir s currentIdx).1 ∧
      (b.round workingDir s currentIdx).2.myBuffer = [] := by
  rw [round]
  split
  · next hvisits =>
      refine ⟨Or.inr ⟨hvisits, (b.runSubpipe (b.myOptions.sweepPath workingDir currentIdx)
        (s.setGenerationSettings (b.myOptions.generationSettings currentIdx))).1, rfl, rfl, ?_⟩, rfl⟩
      have hempty : (s.setGenerationSettings
          (b.myOptions.generationSettings currentIdx)).myBuffer = [] := hbuffer
      simp only [runSubpipe, releaseBufferedStructures, hempty, List.nil_append]
      rfl
  · next hskip => exact ⟨Or.inl ⟨hskip, rfl⟩, hbuffer⟩

/-- **All rounds.** -/
theorem loop_spec (workingDir : Path) {s : Sweep α ω} (hbuffer : s.myBuffer = [])
    (indices : List (List ℕ)) :
    (b.loop workingDir s indices).1.map Prod.fst = indices ∧
      (∀ round ∈ (b.loop workingDir s indices).1, b.IsRound workingDir round.1 round.2) ∧
      (b.loop workingDir s indices).2.myBuffer = [] := by
  induction indices generalizing s with
  | nil => exact ⟨rfl, by simp [loop], hbuffer⟩
  | cons currentIdx rest ih =>
      obtain ⟨hround, hempty⟩ := b.isRound_round workingDir hbuffer currentIdx
      obtain ⟨hindices, hrounds, hend⟩ := ih hempty
      refine ⟨congrArg (currentIdx :: ·) hindices, fun round hmem => ?_, hend⟩
      rcases List.mem_cons.mp hmem with rfl | hmem
      · exact hround
      · exact hrounds round hmem

end SearchStoichiometries

/-! ### The box -/

namespace SearchOptions

variable (o : SearchOptions)

theorem nodup_labels : (o.atomRanges.map Prod.fst).Nodup := o.ordered.nodup_keys

/-- A number of atoms of the species with a range. -/
def Counts (n : ℕ) (range : Str × CountRange) : Prop := range.2.min ≤ n ∧ n ≤ range.2.max

/-- A tuple of the box: one number for each species, from the smallest to the largest count. -/
def InBox (currentIdx : List ℕ) : Prop := List.Forall₂ Counts currentIdx o.atomRanges

/-- Bounds that the conversions to `unsigned int` keep, with a total that `sum` can hold. -/
structure Bounded : Prop where
  ranges : ∀ range ∈ o.atomRanges,
    0 ≤ range.2.min ∧ range.2.min ≤ range.2.max ∧ range.2.max < 2 ^ 31 - 1
  total : (o.atomRanges.map fun range => range.2.max).sum < 2 ^ 32

variable {o}

theorem InBox.length_eq {currentIdx : List ℕ} (h : o.InBox currentIdx) :
    currentIdx.length = o.atomRanges.length := List.Forall₂.length_eq h

/-- The total of a tuple does not wrap around. -/
theorem InBox.totalAtoms_eq (hbounded : o.Bounded) {currentIdx : List ℕ} (h : o.InBox currentIdx) :
    totalAtoms currentIdx = currentIdx.sum := by
  have hsum : ∀ {ns : List ℕ} {ranges : List (Str × CountRange)},
      List.Forall₂ Counts ns ranges →
        (ns.sum : ℤ) ≤ (ranges.map fun range => range.2.max).sum := by
    intro ns ranges hall
    induction hall with
    | nil => simp
    | cons hn _ ih =>
        rw [List.sum_cons, List.map_cons, List.sum_cons, Nat.cast_add]
        exact add_le_add hn.2 ih
  have hlt : (currentIdx.sum : ℤ) < 2 ^ 32 := (hsum h).trans_lt hbounded.total
  exact Nat.mod_eq_of_lt (by exact_mod_cast hlt)

/-- **The settings hold each number under the label of its species.** -/
theorem find_generationSettings {currentIdx : List ℕ}
    (hlength : currentIdx.length = o.atomRanges.length) (label : Str) (n : ℕ) :
    find label (o.generationSettings currentIdx).atomsSettings = some n
      ↔ (label, n) ∈ (o.atomRanges.map Prod.fst).zip currentIdx := by
  have hentries : (o.generationSettings currentIdx).atomsSettings
      = ((o.atomRanges.map Prod.fst).zip currentIdx).foldl
          (fun settings e => OrderedMap.set e.1 e.2 settings) [] := by
    rw [← FixedLabels.zipIdx_map_getD (by simpa using hlength) 0, List.foldl_map, List.zipIdx_map,
      List.foldl_map]
    rfl
  rw [hentries, find_foldl_set]
  rw [List.map_fst_zip (by simpa using hlength.ge)]
  exact o.nodup_labels

end SearchOptions

namespace SearchStoichiometries

variable {α ρ ε ω : Type*} (b : SearchStoichiometries α ρ ε ω)

/-- **The half-open box of unsigned numbers is the box of the options.** -/
theorem mem_getStoichRange_iff (hbounded : b.myOptions.Bounded) (currentIdx : List ℕ) :
    currentIdx ∈ b.getStoichRange ↔ b.myOptions.InBox currentIdx := by
  have hcongr : ∀ {ranges : List (Str × CountRange)} {ns : List ℕ},
      (∀ range ∈ ranges, 0 ≤ range.2.min ∧ range.2.min ≤ range.2.max ∧
        range.2.max < 2 ^ 31 - 1) →
      (List.Forall₂ (fun n (range : Str × CountRange) =>
          toUnsigned range.2.min ≤ n ∧ n < toUnsigned (range.2.max + 1)) ns ranges ↔
        List.Forall₂ SearchOptions.Counts ns ranges) := by
    intro ranges ns hranges
    induction ranges generalizing ns with
    | nil => simp
    | cons range ranges ih =>
        obtain ⟨hmin, hle, hmax⟩ := hranges range List.mem_cons_self
        have hrest := fun ns => @ih ns fun r hr => hranges r (List.mem_cons_of_mem _ hr)
        have hhead : ∀ n : ℕ, (toUnsigned range.2.min ≤ n ∧ n < toUnsigned (range.2.max + 1)) ↔
            SearchOptions.Counts n range := by
          intro n
          simp only [toUnsigned, SearchOptions.Counts]
          omega
        simp only [List.forall₂_cons_right_iff, hhead, hrest]
  rw [getStoichRange, b.multiIdxRange.mem_iff (by simp), List.zip_map', List.forall₂_map_right_iff,
    hcongr hbounded.ranges]
  rfl

end SearchStoichiometries

/-! ### The sweep -/

def SweepCall.isInsert {α : Type*} : SweepCall α → Bool
  | .insert _ _ _ => true
  | _ => false

def SweepCall.run? {α : Type*} : SweepCall α → Option (SubpipeRun α)
  | .run r => some r
  | _ => none

theorem SweepCall.run?_eq_some_iff {α : Type*} {call : SweepCall α} {r : SubpipeRun α} :
    call.run? = some r ↔ call = .run r := by
  cases call <;> simp [run?]

namespace SearchStoichiometries

variable {α ρ ε ω : Type*} (b : SearchStoichiometries α ρ ε ω)

/-- Beside inserts, a round in which the sub-pipe is run consists of the run and of the structures
that it finished. -/
theorem filter_callsOf (workingDir : Path) (currentIdx : List ℕ) (r : SubpipeRun α) :
    (b.callsOf workingDir currentIdx r).filter (fun call => !call.isInsert)
      = .run r :: r.finished.map .out := by
  have hcells : ∀ (key : Str) (cells : List (Str × Str)),
      (cells.map fun cell => (SweepCall.insert key cell.1 cell.2 : SweepCall α)).filter
        (fun call => !call.isInsert) = [] := by
    intro key cells
    rw [List.filter_map, List.map_eq_nil_iff, List.filter_eq_nil_iff]
    simp [SweepCall.isInsert]
  have hrelease : ∀ (key : Str) (structures : List α),
      (structures.flatMap (b.releaseStructure key r.left)).filter (fun call => !call.isInsert)
        = structures.map .out := by
    intro key structures
    induction structures with
    | nil => rfl
    | cons structureData structures ih =>
        rw [List.flatMap_cons, List.filter_append, ih, releaseStructure, List.filter_append, hcells]
        rfl
  have hrun : ∀ calls : List (SweepCall α), (SweepCall.run r :: calls).filter
      (fun call => !call.isInsert) = .run r :: calls.filter fun call => !call.isInsert :=
    fun calls => rfl
  rw [callsOf, hrun, List.filter_append, updateTable, hcells, List.nil_append, hrelease]

theorem run_mem_callsOf {workingDir : Path} {currentIdx : List ℕ} {r r' : SubpipeRun α} :
    .run r' ∈ b.callsOf workingDir currentIdx r ↔ r' = r := by
  simp [callsOf, updateTable, releaseStructure]

/-- What a run says about its round. -/
theorem IsRound.of_run_mem {workingDir : Path} {currentIdx : List ℕ} {calls : List (SweepCall α)}
    (h : b.IsRound workingDir currentIdx calls) {r : SubpipeRun α} (hr : .run r ∈ calls) :
    b.myOptions.Visits currentIdx ∧
      r.found.generationSettings = some (b.myOptions.generationSettings currentIdx) ∧
      calls = b.callsOf workingDir currentIdx r := by
  rcases h with ⟨_, rfl⟩ | ⟨hvisits, r', hfound, _, rfl⟩
  · exact absurd hr List.not_mem_nil
  · obtain rfl := b.run_mem_callsOf.mp hr
    exact ⟨hvisits, hfound, rfl⟩

theorem IsRound.workingDir_of_run_mem {workingDir : Path} {currentIdx : List ℕ}
    {calls : List (SweepCall α)} (h : b.IsRound workingDir currentIdx calls) {r : SubpipeRun α}
    (hr : .run r ∈ calls) : r.workingDir = b.myOptions.sweepPath workingDir currentIdx := by
  rcases h with ⟨_, rfl⟩ | ⟨_, r', _, hdir, rfl⟩
  · exact absurd hr List.not_mem_nil
  · obtain rfl := b.run_mem_callsOf.mp hr
    exact hdir

/-- The runs of the sub-pipe, with their indices. -/
def visitsOf (rounds : List (List ℕ × List (SweepCall α))) : List (List ℕ × SubpipeRun α) :=
  rounds.flatMap fun round => (round.2.filterMap SweepCall.run?).map fun r => (round.1, r)

theorem mem_visitsOf {rounds : List (List ℕ × List (SweepCall α))} {currentIdx : List ℕ}
    {r : SubpipeRun α} :
    (currentIdx, r) ∈ visitsOf rounds ↔ ∃ calls, (currentIdx, calls) ∈ rounds ∧ .run r ∈ calls := by
  simp only [visitsOf, List.mem_flatMap, List.mem_map, List.mem_filterMap,
    SweepCall.run?_eq_some_iff, exists_eq_right, Prod.mk.injEq]
  constructor
  · rintro ⟨round, hround, _, hr, rfl, rfl⟩
    exact ⟨round.2, hround, hr⟩
  · rintro ⟨calls, hround, hr⟩
    exact ⟨_, hround, r, hr, rfl, rfl⟩

theorem runs_callsOf (workingDir : Path) (currentIdx : List ℕ) (r : SubpipeRun α) :
    (b.callsOf workingDir currentIdx r).filterMap SweepCall.run? = [r] := by
  have hinserts : ∀ calls : List (SweepCall α), calls.filterMap SweepCall.run?
      = (calls.filter fun call => !call.isInsert).filterMap SweepCall.run? := by
    intro calls
    rw [List.filterMap_filter]
    congr
    funext call
    cases call <;> rfl
  have hout : (r.finished.map SweepCall.out).filterMap SweepCall.run? = [] := by
    rw [List.filterMap_eq_nil_iff]
    simp [SweepCall.run?]
  rw [hinserts, filter_callsOf]
  exact congrArg (r :: ·) hout

/-- **The rounds in which the sub-pipe is run**, and all that is called in them. -/
theorem visitsOf_spec {workingDir : Path} {rounds : List (List ℕ × List (SweepCall α))}
    (h : ∀ round ∈ rounds, b.IsRound workingDir round.1 round.2) :
    (visitsOf rounds).map Prod.fst
        = (rounds.map Prod.fst).filter (fun idx => b.myOptions.Visits idx) ∧
      rounds.flatMap Prod.snd
        = (visitsOf rounds).flatMap fun visit => b.callsOf workingDir visit.1 visit.2 := by
  induction rounds with
  | nil => exact ⟨rfl, rfl⟩
  | cons round rounds ih =>
      obtain ⟨hidx, hcalls⟩ := ih fun r hr => h r (List.mem_cons_of_mem _ hr)
      have hcons : visitsOf (round :: rounds)
          = ((round.2.filterMap SweepCall.run?).map fun r => (round.1, r)) ++ visitsOf rounds := rfl
      rw [hcons, List.map_append, List.flatMap_append, hidx, ← hcalls, List.map_cons,
        List.flatMap_cons]
      rcases h round List.mem_cons_self with ⟨hskip, hnil⟩ | ⟨hvisits, r, _, _, hround⟩
      · rw [List.filter_cons_of_neg (by simpa using hskip), hnil]
        exact ⟨rfl, rfl⟩
      · rw [List.filter_cons_of_pos (by simpa using hvisits), hround, b.runs_callsOf]
        simp

/-- The indices in whose rounds the sub-pipe is run. -/
def visited : List (List ℕ) := b.getStoichRange.filter fun idx => b.myOptions.Visits idx

theorem nodup_visited : b.visited.Nodup := (b.multiIdxRange.nodup _ _).filter _

/-- **Which stoichiometries are visited**: those of the box with a total from one to the limit. -/
theorem mem_visited_iff (hbounded : b.myOptions.Bounded) (currentIdx : List ℕ) :
    currentIdx ∈ b.visited ↔
      b.myOptions.InBox currentIdx ∧ 0 < currentIdx.sum ∧ currentIdx.sum ≤ b.myOptions.maxAtoms := by
  rw [visited, List.mem_filter, b.mem_getStoichRange_iff hbounded, decide_eq_true_iff]
  refine and_congr_right fun hbox => ?_
  rw [SearchOptions.Visits, hbox.totalAtoms_eq hbounded]
  omega

end SearchStoichiometries

/-! ### A small sweep -/

/-- The indices of a box, the last component fastest. -/
def boxIndices : List (ℕ × ℕ) → List (List ℕ)
  | [] => [[]]
  | bounds :: rest =>
      (List.range' bounds.1 (bounds.2 - bounds.1)).flatMap fun n => (boxIndices rest).map (n :: ·)

theorem nodup_boxIndices (box : List (ℕ × ℕ)) : (boxIndices box).Nodup := by
  induction box with
  | nil => exact List.nodup_singleton []
  | cons bounds rest ih =>
      refine List.nodup_flatMap.mpr ⟨fun n _ => ih.map (List.cons_injective), ?_⟩
      have hrange : (List.range' bounds.1 (bounds.2 - bounds.1)).Nodup := List.nodup_range'
      refine hrange.imp fun {n m} hne idx hn hm => ?_
      obtain ⟨_, _, rfl⟩ := List.mem_map.mp hn
      obtain ⟨_, _, heq⟩ := List.mem_map.mp hm
      exact hne (List.cons.inj heq).1.symm

theorem mem_boxIndices_iff (box : List (ℕ × ℕ)) (idx : List ℕ) :
    idx ∈ boxIndices box ↔ List.Forall₂ (fun n bounds => bounds.1 ≤ n ∧ n < bounds.2) idx box := by
  induction box generalizing idx with
  | nil => simp [boxIndices]
  | cons bounds rest ih =>
      have hrange : ∀ n, n ∈ List.range' bounds.1 (bounds.2 - bounds.1) ↔
          bounds.1 ≤ n ∧ n < bounds.2 := by
        intro n
        rw [List.mem_range'_1]
        omega
      simp only [boxIndices, List.mem_flatMap, List.mem_map, hrange, ih,
        List.forall₂_cons_right_iff]
      constructor
      · rintro ⟨n, hn, ns, hns, rfl⟩
        exact ⟨n, ns, hn, hns, rfl⟩
      · rintro ⟨n, ns, hn, hns, rfl⟩
        exact ⟨n, hn, ns, hns, rfl⟩

def boxRange : MultiIdxRange where
  indices lower upper := boxIndices (lower.zip upper)
  nodup lower upper := nodup_boxIndices (lower.zip upper)
  mem_iff _ idx := mem_boxIndices_iff _ idx

/-- Structures that have at most a space group. -/
def spacegroupLibrary : StructureLibrary (Option ℕ) Path ℕ where
  lastAbsFilePath _ := none
  spacegroupNumber structureData := structureData
  energyInternal _ := none
  numAtoms _ := 0
  noLocator := []
  isEmpty locator := locator.isEmpty
  locatorString locator := locator
  path locator := locator
  setPath _ path := path
  makeRelative _ path := path
  energyPerAtom _ _ := []

/-- A sweep over two species, with at most two atoms, whose sub-pipe finishes one structure a run:
the first without a space group, each later one with the next. -/
def twoSpecies (useSeparateDirectories : Bool) (sharedWorkingDir : Path) :
    SearchStoichiometries (Option ℕ) Path ℕ (Option ℕ) where
  myOptions :=
    { atomRanges := [(['A'], ⟨0, 1⟩), (['B'], ⟨1, 2⟩)]
      maxAtoms := 2
      useSeparateDirectories := useSeparateDirectories
      ordered := List.pairwise_pair.mpr (by decide) }
  library := spacegroupLibrary
  multiIdxRange := boxRange
  isAbsolute path := path.head? == some '/'
  sharedWorkingDir := sharedWorkingDir
  subpipe last _ globalData := ([last], some (last.elim 1 (· + 1)), globalData)

theorem bounded_twoSpecies (useSeparateDirectories : Bool) (sharedWorkingDir : Path) :
    (twoSpecies useSeparateDirectories sharedWorkingDir).myOptions.Bounded where
  ranges := by simp [twoSpecies]
  total := by simp [twoSpecies]

end StructurePipe.Blocks
