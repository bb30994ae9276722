import StructurePipe.Common.Paths
import StructurePipe.Blocks.SearchStoichiometries

/-!
# Sweeps inside sweeps

A sweep block sets the directory of its sub-pipe, `setWorkingDir(sweepPath)`, and a block of the
sub-pipe asks for its own with `workingDir()`.  What is stored in the shared data of the sub-pipe
already has the global directory in front, and `workingDir()` puts it there again unless the stored
path is absolute.

Which paths are absolute is decided by the platform; all that is used is that the front of a path
decides.

* `getWorkingDir_eq_self_iff` — when a stored directory is what `workingDir()` returns;
* `settled_enter` — one level down nothing changes;
* `nested_workingDir_iff` — **when every sub-pipe works where its parent said**, at any depth.
-/

namespace StructurePipe.Blocks

/-- A sweep block while it runs its sub-pipe: for one index, or for one parameter set with its unique
directory name. -/
inductive SweepBlock where
  | searchStoichiometries (options : SearchOptions) (currentIdx : List ℕ)
  | runPotentialParamsQueue (paramDirName : Str)

namespace SweepBlock

/-- The directory of this run, which is also the key of its table row. -/
def sweepPath (workingDir : Path) : SweepBlock → Path
  | .searchStoichiometries options currentIdx => options.sweepPath workingDir currentIdx
  | .runPotentialParamsQueue paramDirName => workingDir.append paramDirName

variable (isAbsolute : Path → Bool) (global : Path)

/-- The shared working directory of the sub-pipe, from that of the pipe the block is in. -/
def enter (shared : Path) (b : SweepBlock) : Path :=
  b.sweepPath (getWorkingDir isAbsolute shared global)

/-- No directory is put in front of what is stored, here or further down. -/
def Settled (shared : Path) : Prop := global = [] ∨ isAbsolute global ∨ shared ≠ [] ∧ isAbsolute shared

/-- For a stoichiometry search this is the directory its sub-pipe is run in. -/
theorem enter_searchStoichiometries {α ρ ε ω : Type*} (b : SearchStoichiometries α ρ ε ω)
    (g : GlobalData) (currentIdx : List ℕ) :
    enter b.isAbsolute g.workingDir b.sharedWorkingDir
        (.searchStoichiometries b.myOptions currentIdx)
      = b.myOptions.sweepPath (b.workingDir g) currentIdx := rfl

/-! ### One level -/

theorem append_ne_self {p q : Path} (hp : p ≠ []) (hq : q ≠ []) : p.append q ≠ q := by
  have hlen : 0 < p.length := List.length_pos_iff.mpr hp
  have hsep : p.length ≤ p.withSeparator.length := by
    rw [Path.withSeparator]
    split
    · exact le_rfl
    · simp
  intro heq
  have hlength := congrArg List.length heq
  rw [Path.append, if_neg (by simpa using hq)] at hlength
  split at hlength
  · rw [List.length_append] at hlength
    omega
  · rw [List.length_append] at hlength
    omega

/-- A directory is what `workingDir()` returns for it if it is absolute or nothing stands in front. -/
theorem getWorkingDir_eq_self_iff {isAbsolute : Path → Bool} {dir global : Path} :
    getWorkingDir isAbsolute dir global = dir ↔
      global = [] ∨ dir ≠ [] ∧ isAbsolute dir = true := by
  rw [getWorkingDir]
  split
  · next h =>
      rw [Bool.and_eq_true] at h
      exact iff_of_true rfl (Or.inr ⟨by simpa using h.1, h.2⟩)
  · next h =>
      have hnot : ¬ (dir ≠ [] ∧ isAbsolute dir = true) := by simpa using h
      rw [or_iff_left hnot]
      constructor
      · intro heq
        by_contra hglobal
        rcases eq_or_ne dir [] with rfl | hdir
        · exact hglobal (by simpa [Path.append] using heq)
        · exact append_ne_self hglobal hdir heq
      · rintro rfl
        rcases eq_or_ne dir [] with rfl | hdir
        · rfl
        · rw [Path.append, if_neg (by simpa using hdir)]
          simp [Path.withSeparator]

variable {isAbsolute global}

section Front

variable (hfront : ∀ p q : Path, p ≠ [] → isAbsolute (p.append q) = isAbsolute p)

include hfront

theorem isAbsolute_sweepPath (b : SweepBlock) {workingDir : Path} (h : workingDir ≠ []) :
    b.sweepPath workingDir ≠ [] ∧ isAbsolute (b.sweepPath workingDir) = isAbsolute workingDir := by
  have happend : ∀ q : Path, workingDir.append q ≠ [] ∧
      isAbsolute (workingDir.append q) = isAbsolute workingDir := by
    intro q
    refine ⟨?_, hfront workingDir q h⟩
    rcases eq_or_ne q [] with rfl | hq
    · simpa [Path.append] using h
    · exact Path.append_ne_nil hq workingDir
  cases b with
  | searchStoichiometries options currentIdx =>
      rw [sweepPath, SearchOptions.sweepPath]
      split
      · exact happend _
      · exact ⟨h, rfl⟩
  | runPotentialParamsQueue paramDirName => exact happend paramDirName

/-- Behind a global directory, a working directory is absolute if either of its parts is. -/
theorem isAbsolute_getWorkingDir {shared : Path} (hglobal : global ≠ []) :
    isAbsolute (getWorkingDir isAbsolute shared global) = true ↔
      isAbsolute global ∨ shared ≠ [] ∧ isAbsolute shared := by
  rw [getWorkingDir]
  split
  · next h =>
      rw [Bool.and_eq_true] at h
      exact iff_of_true h.2 (Or.inr ⟨by simpa using h.1, h.2⟩)
  · next h =>
      have hnot : ¬ (shared ≠ [] ∧ isAbsolute shared = true) := by simpa using h
      rw [hfront global shared hglobal, or_iff_left hnot]

/-- **The sub-pipe works where its parent said**, exactly if the outer directories are settled. -/
theorem getWorkingDir_enter_iff (shared : Path) (b : SweepBlock) :
    getWorkingDir isAbsolute (enter isAbsolute global shared b) global
        = enter isAbsolute global shared b ↔
      Settled isAbsolute global shared := by
  rw [getWorkingDir_eq_self_iff, Settled]
  rcases eq_or_ne global [] with rfl | hglobal
  · simp
  · have hne : getWorkingDir isAbsolute shared global ≠ [] := fun h =>
      hglobal (getWorkingDir_eq_nil_iff.mp h).1
    obtain ⟨hsweep, habs⟩ := isAbsolute_sweepPath hfront b hne
    rw [or_iff_right hglobal, or_iff_right hglobal, enter, habs,
      isAbsolute_getWorkingDir hfront hglobal, and_iff_right hsweep]

/-- **One level down** the directories are settled as they were. -/
theorem settled_enter (shared : Path) (b : SweepBlock) :
    Settled isAbsolute global (enter isAbsolute global shared b) ↔
      Settled isAbsolute global shared := by
  rw [← getWorkingDir_enter_iff hfront shared b, getWorkingDir_eq_self_iff, Settled]
  constructor
  · rintro (hglobal | habs | hdir)
    · exact Or.inl hglobal
    · have hsettled : Settled isAbsolute global shared := Or.inr (Or.inl habs)
      exact getWorkingDir_eq_self_iff.mp ((getWorkingDir_enter_iff hfront shared b).mpr hsettled)
    · exact Or.inr hdir
  · rintro (hglobal | hdir)
    · exact Or.inl hglobal
    · exact Or.inr (Or.inr hdir)

theorem settled_foldl (shared : Path) (levels : List SweepBlock) :
    Settled isAbsolute global (levels.foldl (enter isAbsolute global) shared) ↔
      Settled isAbsolute global shared := by
  induction levels generalizing shared with
  | nil => rfl
  | cons b levels ih => rw [List.foldl_cons, ih, settled_enter hfront]

/-! ### Any depth -/

/-- With settled directories each level adds its own component to the directory, and nothing else. -/
theorem getWorkingDir_foldl {shared : Path} (h : Settled isAbsolute global shared)
    (levels : List SweepBlock) :
    getWorkingDir isAbsolute (levels.foldl (enter isAbsolute global) shared) global
      = levels.foldl (fun dir b => b.sweepPath dir) (getWorkingDir isAbsolute shared global) := by
  induction levels generalizing shared with
  | nil => rfl
  | cons b levels ih =>
      rw [List.foldl_cons, List.foldl_cons, ih ((settled_enter hfront shared b).mpr h),
        (getWorkingDir_enter_iff hfront shared b).mpr h]
      rfl

/-- **When a sub-pipe works in the directory its parent chose.**  At every depth of nested sweep blocks
`workingDir()` in a sub-pipe is the sweep path its parent has set, and each level adds its own
component and nothing else, if and only if the global directory is empty or absolute, or the outer
pipe has an absolute directory of its own. -/
theorem nested_workingDir_iff (global shared : Path) {levels : List SweepBlock} (hne : levels ≠ []) :
    ((∀ outer b, outer ++ [b] <+: levels →
        getWorkingDir isAbsolute ((outer ++ [b]).foldl (enter isAbsolute global) shared) global
          = b.sweepPath
              (getWorkingDir isAbsolute (outer.foldl (enter isAbsolute global) shared) global)) ∧
      getWorkingDir isAbsolute (levels.foldl (enter isAbsolute global) shared) global
        = levels.foldl (fun dir b => b.sweepPath dir) (getWorkingDir isAbsolute shared global)) ↔
    global = [] ∨ isAbsolute global ∨ shared ≠ [] ∧ isAbsolute shared := by
  constructor
  · rintro ⟨hall, -⟩
    obtain ⟨b, levels, rfl⟩ := List.exists_cons_of_ne_nil hne
    exact (getWorkingDir_enter_iff hfront shared b).mp (hall [] b ⟨levels, rfl⟩)
  · intro hsettled
    refine ⟨fun outer b _ => ?_, getWorkingDir_foldl hfront hsettled levels⟩
    rw [List.foldl_append]
    exact (getWorkingDir_enter_iff hfront _ b).mpr ((settled_foldl hfront shared outer).mpr hsettled)

end Front

/-- POSIX: a path is absolute if it starts with a slash. -/
def startsWithSlash (p : Path) : Bool := p.head? == some '/'

theorem startsWithSlash_append (p q : Path) (h : p ≠ []) :
    startsWithSlash (p.append q) = startsWithSlash p := by
  obtain ⟨c, p, rfl⟩ := List.exists_cons_of_ne_nil h
  rw [Path.append, Path.withSeparator]
  split
  · rfl
  · split
    · rfl
    · split <;> rfl

/-- A parameter sweep inside another one, below `/data`. -/
theorem nested_workingDir_at :
    [runPotentialParamsQueue ['a'], runPotentialParamsQueue ['b']] ≠ [] ∧
    getWorkingDir startsWithSlash
        ([runPotentialParamsQueue ['a'], runPotentialParamsQueue ['b']].foldl
          (enter startsWithSlash "/data".toList) []) "/data".toList
      = "/data/a/b".toList :=
  ⟨by simp, ((nested_workingDir_iff startsWithSlash_append "/data".toList [] (by simp)).mpr
    (Or.inr (Or.inl rfl))).2⟩

/-- **Below a relative directory** the sub-pipe of a sweep in `data` works in `data/data/a`. -/
theorem relative_global_doubled :
    sweepPath (getWorkingDir startsWithSlash [] "data".toList) (runPotentialParamsQueue ['a'])
      = "data/a".toList ∧
    getWorkingDir startsWithSlash
        (enter startsWithSlash "data".toList [] (runPotentialParamsQueue ['a'])) "data".toList
      = "data/data/a".toList := by
  decide

end SweepBlock

end StructurePipe.Blocks
