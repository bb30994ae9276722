import StructurePipe.Common.Strings
import StructurePipe.Lib.Tokens

/-!
# Paths

A `boost::filesystem::path` is the string it was made of.  `operator/` puts a separator between the
two parts unless there is one already; nothing is normalised.  Two paths are equal if they have the
same elements: the root, and the names behind it, however many separators stand between them.

* `Path.elements_append` — the elements of a path behind a directory;
* `Path.elements_append_eq_iff` — **when two paths behind the same one are equal;**
* `getWorkingDir_eq_nil_iff` — when the working directory is empty.
-/

namespace StructurePipe

/-- A `boost::filesystem::path`, as `string()` returns it. -/
abbrev Path := Str

/-- Where a structure is: a path, and which of the structures there it is. -/
structure ResourceLocator where
  path : Path
  id : Str := []
deriving DecidableEq, Repr

namespace Path

/-- `m_append_separator_if_needed`. -/
def withSeparator (p : Path) : Path :=
  if p.isEmpty || p.getLast? == some '/' then p else p ++ ['/']

/-- `operator/`. -/
def append (p q : Path) : Path :=
  if q.isEmpty then p
  else if q.head? == some '/' then p ++ q
  else p.withSeparator ++ q

/-- A name behind a path. -/
theorem append_of_name {q : Path} (hne : q ≠ []) (hname : q.head? ≠ some '/') (p : Path) :
    p.append q = p.withSeparator ++ q := by
  rw [append, if_neg (by simpa using hne), if_neg (by simpa using hname)]

theorem append_ne_nil {q : Path} (hne : q ≠ []) (p : Path) : p.append q ≠ [] := by
  rw [append, if_neg (by simpa using hne)]
  split <;> simp [hne]

/-- What is added at the end of a path is added to the name there. -/
theorem append_append {q : Path} (hne : q ≠ []) (p r : Path) :
    p.append q ++ r = p.append (q ++ r) := by
  have hhead : (q ++ r).head? = q.head? := List.head?_append_of_ne_nil q hne
  have hempty : q.isEmpty = false := by simpa using hne
  have hempty' : (q ++ r).isEmpty = false := by simpa using fun h => absurd h hne
  simp only [append, hhead, hempty, hempty', Bool.false_eq_true, if_false]
  split <;> rw [List.append_assoc]

/-! ### Equality -/

/-- The names in the part of a path behind its root.  A separator at the end stands for a dot. -/
def names (rest : Path) : List Str :=
  Tokens.tokens (· == '/') rest ++ if rest.getLast? = some '/' then [['.']] else []

/-- The elements of the root of a path, and the part behind it.  Exactly two separators in front of a
name make it the name of a host. -/
def splitRoot (p : Path) : List Str × Path :=
  if p.head? ≠ some '/' then ([], p)
  else if p[1]? = some '/' ∧ p[2]? ≠ some '/' then
    let host := p.take 2 ++ (p.drop 2).takeWhile (· != '/')
    let rest := (p.drop 2).dropWhile (· != '/')
    (if rest.isEmpty then [host] else [host, ['/']], rest)
  else ([['/']], p.drop 1)

/-- Whether there is a name behind the root. -/
def hasNames (p : Path) : Bool := (splitRoot p).2.any (· != '/')

/-- The elements that an iterator goes through, which `operator==` compares. -/
def elements (p : Path) : List Str :=
  (splitRoot p).1 ++ if p.hasNames then names (splitRoot p).2 else []

/-- What shows of `q` behind `p`: the names, if `p` has names itself, else the whole path. -/
def behind (p q : Path) : List Str := if p.hasNames then names q else elements (p.append q)

theorem names_cons_separator {q : Path} (hq : q ≠ []) : names ('/' :: q) = names q := by
  obtain ⟨c, rest, rfl⟩ := List.exists_cons_of_ne_nil hq
  rw [names, names, Tokens.tokens_cons_of_sep rfl, List.getLast?_cons_cons]

/-- Names in front of a separator. -/
theorem names_append {p q : Path} (hq : q ≠ []) (hsep : p.getLast? = some '/' ∨ q.head? = some '/') :
    names (p ++ q) = Tokens.tokens (· == '/') p ++ names q := by
  have hlast : (p ++ q).getLast? = q.getLast? := List.getLast?_append_of_ne_nil p hq
  have htokens : Tokens.tokens (· == '/') (p ++ q)
      = Tokens.tokens (· == '/') p ++ Tokens.tokens (· == '/') q := by
    rcases hsep with hp | hq'
    · obtain ⟨front, rfl⟩ := List.getLast?_eq_some_iff.mp hp
      rw [List.append_assoc, List.singleton_append, Tokens.tokens_append_cons front q rfl,
        Tokens.tokens_append_cons front [] rfl, Tokens.tokens_nil, List.append_nil]
    · obtain ⟨rest, rfl⟩ := List.head?_eq_some_iff.mp hq'
      rw [Tokens.tokens_append_cons p rest rfl, Tokens.tokens_cons_of_sep rfl]
  rw [names, names, htokens, hlast, List.append_assoc]

theorem splitRoot_of_name {p : Path} (h : p.head? ≠ some '/') : splitRoot p = ([], p) := if_pos h

theorem splitRoot_of_root {rest : Path} (h : rest.head? = some '/' → rest[1]? = some '/') :
    splitRoot ('/' :: rest) = ([['/']], rest) := by
  rw [splitRoot, if_neg (by simp), if_neg ?_]
  · rfl
  · rintro ⟨hhead, hne⟩
    have hhead' : rest.head? = some '/' := by simpa [List.head?_eq_getElem?] using hhead
    exact hne (h hhead')

theorem splitRoot_of_host {rest : Path} (h : rest.head? ≠ some '/') :
    splitRoot ('/' :: '/' :: rest) =
      (if (rest.dropWhile (· != '/')).isEmpty then ['/' :: '/' :: rest.takeWhile (· != '/')]
        else ['/' :: '/' :: rest.takeWhile (· != '/'), ['/']], rest.dropWhile (· != '/')) := by
  rw [splitRoot, if_neg (by simp), if_pos ⟨rfl, by simpa [List.head?_eq_getElem?] using h⟩]
  rfl

/-- The name of a host ends with the separator behind it. -/
theorem splitRoot_append_of_host {rest : Path} (hrest : rest.head? ≠ some '/')
    (hbehind : rest.dropWhile (· != '/') ≠ []) (q : Path) :
    splitRoot ('/' :: '/' :: (rest ++ q))
      = ((splitRoot ('/' :: '/' :: rest)).1, (splitRoot ('/' :: '/' :: rest)).2 ++ q) := by
  have hne : rest ≠ [] := by
    rintro rfl
    exact hbehind rfl
  have hshort : (rest.takeWhile (· != '/')).length ≠ rest.length := by
    intro hlength
    have hall : rest.takeWhile (· != '/') ++ rest.dropWhile (· != '/') = rest :=
      List.takeWhile_append_dropWhile
    have hsum := congrArg List.length hall
    rw [List.length_append, hlength] at hsum
    exact hbehind (List.length_eq_zero_iff.mp (by omega))
  have hhead : (rest ++ q).head? ≠ some '/' := by rwa [List.head?_append_of_ne_nil _ hne]
  have hdrop : (rest ++ q).dropWhile (· != '/') = rest.dropWhile (· != '/') ++ q := by
    rw [List.dropWhile_append, if_neg (by simpa using hbehind)]
  have htake : (rest ++ q).takeWhile (· != '/') = rest.takeWhile (· != '/') := by
    rw [List.takeWhile_append, if_neg hshort]
  rw [splitRoot_of_host hhead, splitRoot_of_host hrest, hdrop, htake]
  simp [hbehind]

/-- Behind a name the root does not change. -/
theorem splitRoot_append {p : Path} (h : p.hasNames) (q : Path) :
    splitRoot (p ++ q) = ((splitRoot p).1, (splitRoot p).2 ++ q) := by
  rw [hasNames] at h
  cases p with
  | nil => exact absurd h (by simp [splitRoot])
  | cons c p =>
      by_cases hc : c = '/'
      · subst hc
        by_cases hhost : p.head? = some '/' → p[1]? = some '/'
        · rw [splitRoot_of_root hhost] at h ⊢
          refine splitRoot_of_root fun hhead => ?_
          cases p with
          | nil => exact absurd h (by simp)
          | cons d p =>
              have hnext := hhost hhead
              cases p with
              | nil => exact absurd hnext (by simp)
              | cons e p => exact hnext
        · obtain ⟨hhead, hnext⟩ := Classical.not_imp.mp hhost
          obtain ⟨rest, rfl⟩ := List.head?_eq_some_iff.mp hhead
          have hrest : rest.head? ≠ some '/' := by simpa [List.head?_eq_getElem?] using hnext
          refine splitRoot_append_of_host hrest (fun hnil => ?_) q
          rw [splitRoot_of_host hrest, hnil] at h
          exact absurd h (by simp)
      · have hhead : ∀ rest : Path, (c :: rest).head? ≠ some '/' := fun rest hsame =>
          hc (Option.some.inj hsame)
        rw [splitRoot_of_name (hhead p)]
        exact splitRoot_of_name (hhead (p ++ q))

/-- The part behind the root is the end of a path. -/
theorem getLast?_splitRoot {p : Path} (h : p.hasNames) : (splitRoot p).2.getLast? = p.getLast? := by
  have hsuffix : (splitRoot p).2 <:+ p := by
    rw [splitRoot]
    split
    · exact List.suffix_rfl
    · split
      · exact (List.dropWhile_suffix _).trans (List.drop_suffix 2 p)
      · exact List.drop_suffix 1 p
  obtain ⟨front, hfront⟩ := hsuffix
  have hne : (splitRoot p).2 ≠ [] := by
    intro hnil
    rw [hasNames, hnil] at h
    exact absurd h (by simp)
  conv_rhs => rw [← hfront]
  rw [List.getLast?_append_of_ne_nil front hne]

theorem hasNames_append {p : Path} (h : p.hasNames) (q : Path) : (p ++ q).hasNames := by
  rw [hasNames, splitRoot_append h, List.any_append, Bool.or_eq_true]
  exact Or.inl h

/-- **The elements of a path behind a directory** are those of the directory and the names behind it. -/
theorem elements_append {p q : Path} (h : p.hasNames) (hq : q ≠ []) :
    elements (p.append q)
      = (splitRoot p).1 ++ (Tokens.tokens (· == '/') (splitRoot p).2 ++ names q) := by
  -- a separator is put in, or there is one already
  have happend : ∃ q', p.append q = p ++ q' ∧ q' ≠ [] ∧ names q' = names q ∧
      ((splitRoot p).2.getLast? = some '/' ∨ q'.head? = some '/') := by
    by_cases hhead : q.head? = some '/'
    · refine ⟨q, ?_, hq, rfl, Or.inr hhead⟩
      rw [append, if_neg (by simpa using hq), if_pos (by simpa using hhead)]
    · rw [append_of_name hq hhead, withSeparator]
      split
      · next hself =>
          rw [Bool.or_eq_true, List.isEmpty_iff, beq_iff_eq] at hself
          refine ⟨q, rfl, hq, rfl, Or.inl ?_⟩
          rcases hself with hnil | hlast
          · rw [hnil] at h
            exact absurd h (by decide)
          · rwa [getLast?_splitRoot h]
      · exact ⟨'/' :: q, by simp, by simp, names_cons_separator hq, Or.inr rfl⟩
  obtain ⟨q', happend, hq', hnames, hsep⟩ := happend
  rw [happend, elements, if_pos (hasNames_append h q'), splitRoot_append h, names_append hq' hsep,
    hnames]

/-- **When two paths behind the same one are equal:** what shows of them there is the same. -/
theorem elements_append_eq_iff {q r : Path} (hq : q ≠ []) (hr : r ≠ []) (p : Path) :
    elements (p.append q) = elements (p.append r) ↔ p.behind q = p.behind r := by
  by_cases h : p.hasNames
  · rw [elements_append h hq, elements_append h hr, List.append_cancel_left_eq,
      List.append_cancel_left_eq, behind, behind, if_pos h, if_pos h]
  · rw [behind, behind, if_neg h, if_neg h]

end Path

/-- `getWorkingDir`: an absolute directory in the shared data stands alone, any other is relative to
the global one.  Which paths are absolute is a matter of the platform. -/
def getWorkingDir (isAbsolute : Path → Bool) (shared global : Path) : Path :=
  if !shared.isEmpty && isAbsolute shared then shared else global.append shared

/-- The working directory is empty if both directories are unset, and only then. -/
theorem getWorkingDir_eq_nil_iff {isAbsolute : Path → Bool} {shared global : Path} :
    getWorkingDir isAbsolute shared global = [] ↔ global = [] ∧ shared = [] := by
  by_cases hshared : shared = []
  · rw [hshared]
    simp [getWorkingDir, Path.append]
  · refine iff_of_false ?_ fun h => hshared h.2
    rw [getWorkingDir]
    split
    · exact hshared
    · exact Path.append_ne_nil hshared global

end StructurePipe
