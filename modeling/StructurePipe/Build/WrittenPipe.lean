import StructurePipe.Build.BlockLoaderType
import StructurePipe.Build.ConfiguredBlocks

/-!
# Writing a pipe down

The loader's own account of its input is `blockType [name]: [block info]`, where a block without a
name goes by its type.  `WrittenPipe` is a pipe that is written down in this way, with the names of the
blocks in the order in which they run; `toYaml` is the node that says so.

* `blockEntries_toYaml` — the loader reads in the keys what was written;
* `names_of_runText` — both builders read the names in the text under `run`;
* `written_pipe_is_built` — **what is written down is what is built,** at the top and in a nested pipe.
-/

namespace StructurePipe.Build

open Tokens SingleLinks BlockLoader

/-- A block as it is written down. -/
structure BlockDecl where
  type : BlockType
  name : Option Str
  info : YamlNode

namespace BlockDecl

/-- What the block goes by. -/
def goesBy (d : BlockDecl) : Str := d.name.getD d.type.name

/-- The key of the block: its type, and its name if it has one. -/
def key (d : BlockDecl) : Str :=
  match d.name with
  | none => d.type.name
  | some name => d.type.name ++ ' ' :: name

def entry (d : BlockDecl) : YamlNode × YamlNode := (.scalar d.key, d.info)

/-- What the loader is to read in the key. -/
def read (d : BlockDecl) : BlockEntry := ⟨d.type.name, d.goesBy, d.info⟩

end BlockDecl

/-- A pipe as it is written down: blocks of registered types before and after the `run` entry, and the
names in this entry.  The blocks go by different names, which are words without bars, and each runs at
most once. -/
structure WrittenPipe (SPL_USE_CGAL : Bool) where
  before : List BlockDecl
  after : List BlockDecl
  run : List Str
  registered : ∀ d ∈ before ++ after, d.type ∈ BlockType.registered SPL_USE_CGAL
  words : ∀ d ∈ before ++ after, Word isspace d.goesBy
  no_bars : ∀ d ∈ before ++ after, '|' ∉ d.goesBy
  nodup : ((before ++ after).map BlockDecl.goesBy).Nodup
  run_nodup : run.Nodup
  run_ne_nil : run ≠ []
  run_declared : ∀ name ∈ run, ∃ d ∈ before ++ after, d.goesBy = name

/-- The text under `run`. -/
def runText (names : List Str) : Str := join names [' ', '|', ' ']

namespace WrittenPipe

variable {SPL_USE_CGAL : Bool}

def decls (w : WrittenPipe SPL_USE_CGAL) : List BlockDecl := w.before ++ w.after

def toYaml (w : WrittenPipe SPL_USE_CGAL) : YamlNode :=
  .map (w.before.map BlockDecl.entry ++ (.scalar RUN, .scalar (runText w.run)) ::
    w.after.map BlockDecl.entry)

end WrittenPipe

/-! ### The names -/

/-- A name: a word without bars. -/
def Name (name : Str) : Prop := Word isspace name ∧ '|' ∉ name

theorem Name.padded {name : Str} (h : Name name) {pad pad' : Str} (hpad : ∀ c ∈ pad, c = ' ')
    (hpad' : ∀ c ∈ pad', c = ' ') :
    tokens SEP (pad ++ name ++ pad') = [pad ++ name ++ pad'] ∧
      trim isspace (pad ++ name ++ pad') = name ∧ trim (· == ' ') (pad ++ name ++ pad') = name := by
  have hspace : ∀ {l : Str}, (∀ c ∈ l, c = ' ') → ∀ c ∈ l, isspace c = true := fun hl c hc => by
    rw [hl c hc]
    rfl
  have hblank : ∀ {l : Str}, (∀ c ∈ l, c = ' ') → ∀ c ∈ l, (c == ' ') = true := fun hl c hc =>
    beq_iff_eq.mpr (hl c hc)
  refine ⟨tokens_of_plain ?_ ?_, trim_append (hspace hpad) h.1 (hspace hpad'),
    trim_append (hblank hpad) (h.1.mono isspace_of_blank) (hblank hpad')⟩
  · simp [h.1.1]
  · intro c hc
    have hne : c ≠ '|' := by
      rintro rfl
      rcases List.mem_append.mp hc with hc | hc
      · rcases List.mem_append.mp hc with hc | hc
        · exact absurd (hpad _ hc) (by decide)
        · exact h.2 hc
      · exact absurd (hpad' _ hc) (by decide)
    exact beq_eq_false_iff_ne.mpr hne

/-- **Both builders read the names** in the text under `run`. -/
theorem names_of_runText {names : List Str} (hne : names ≠ []) (h : ∀ name ∈ names, Name name) :
    pipeNames (runText names) = names ∧ PlainNames (runText names) := by
  -- the pieces between the bars, behind any blanks
  have hpieces : ∀ (names : List Str), names ≠ [] → (∀ name ∈ names, Name name) →
      ∀ pad : Str, (∀ c ∈ pad, c = ' ') →
        (tokens SEP (pad ++ runText names)).map (trim isspace) = names ∧
          ∀ piece ∈ tokens SEP (pad ++ runText names), Word isspace (trim (· == ' ') piece) := by
    intro names
    induction names with
    | nil => exact fun hne => absurd rfl hne
    | cons name names ih =>
        intro _ hnames pad hpad
        have hname : Name name := hnames name (by simp)
        cases names with
        | nil =>
            obtain ⟨htokens, htrim, hblank⟩ := hname.padded hpad (List.forall_mem_nil fun c => c = ' ')
            rw [List.append_nil] at htokens htrim hblank
            have htext : runText [name] = name := List.intercalate_singleton
            rw [htext, htokens]
            refine ⟨by rw [List.map_singleton, htrim], ?_⟩
            intro piece hpiece
            rw [List.mem_singleton.mp hpiece, hblank]
            exact hname.1
        | cons next names =>
            have hblanks : ∀ c ∈ [' '], c = ' ' := by simp
            obtain ⟨htokens, htrim, hblank⟩ := hname.padded hpad hblanks
            obtain ⟨hmap, hrest⟩ := ih (by simp) (fun n hn => hnames n (List.mem_cons_of_mem name hn))
              [' '] (by simp)
            have htext : pad ++ runText (name :: next :: names)
                = (pad ++ name ++ [' ']) ++ '|' :: ([' '] ++ runText (next :: names)) := by
              rw [runText, join, List.intercalate_cons_cons]
              simp [runText]
            have hcut : tokens SEP (pad ++ runText (name :: next :: names))
                = [pad ++ name ++ [' ']] ++ tokens SEP ([' '] ++ runText (next :: names)) := by
              rw [htext, tokens_append_cons _ _ (by decide), htokens]
            rw [hcut]
            refine ⟨by rw [List.map_append, List.map_singleton, htrim, hmap]; rfl, ?_⟩
            intro piece hpiece
            rcases List.mem_append.mp hpiece with hpiece | hpiece
            · rw [List.mem_singleton.mp hpiece, hblank]
              exact hname.1
            · exact hrest piece hpiece
  obtain ⟨hmap, hwords⟩ := hpieces names hne h [] (by simp)
  rw [List.nil_append] at hmap hwords
  exact ⟨hmap, fun hnil => hne (by rw [← hmap, hnil, List.map_nil]), hwords⟩

/-! ### The keys -/

theorem word_typeName (t : BlockType) : Word isspace t.name := by
  cases t <;> decide

/-- A key is read as it was written, whatever the variable held before. -/
theorem read_key {d : BlockDecl} (hword : Word isspace d.goesBy) (temp : Str) :
    (readWord d.key temp).1 = d.type.name ∧
      (if (readWord d.key temp).2.isEmpty then (readWord d.key temp).1
        else (readWord (readWord d.key temp).2 (readWord d.key temp).1).1) = d.goesBy := by
  have htype := word_typeName d.type
  cases hname : d.name with
  | none =>
      have hread : readWord d.key temp = (d.type.name, []) := by
        have hfirst : firstWord isspace (d.type.name ++ []) = some (d.type.name, []) :=
          firstWord_append htype (by simp)
        rw [List.append_nil] at hfirst
        rw [readWord, BlockDecl.key, hname, hfirst]
        rfl
      rw [hread, BlockDecl.goesBy, hname]
      exact ⟨rfl, rfl⟩
  | some name =>
      have hgoes : d.goesBy = name := by rw [BlockDecl.goesBy, hname]; rfl
      rw [hgoes] at hword ⊢
      have hread : readWord d.key temp = (d.type.name, ' ' :: name) := by
        have hfirst : firstWord isspace (d.type.name ++ ' ' :: name) = some (d.type.name, ' ' :: name) :=
          firstWord_append htype (by simp [isspace])
        rw [readWord, BlockDecl.key, hname, hfirst]
        rfl
      have hrest : firstWord isspace (' ' :: name) = some (name, []) := by
        have hfirst : firstWord isspace (name ++ []) = some (name, []) :=
          firstWord_append hword (by simp)
        rw [List.append_nil] at hfirst
        rw [firstWord_cons_of_sep (by decide), hfirst]
      rw [hread]
      refine ⟨rfl, ?_⟩
      show (readWord (' ' :: name) d.type.name).1 = name
      rw [readWord, hrest]
      rfl

/-- The key of a block is not `run`. -/
theorem key_ne_run (d : BlockDecl) : d.key ≠ RUN := by
  cases hname : d.name with
  | none =>
      rw [BlockDecl.key, hname]
      cases d.type <;> decide
  | some name =>
      intro h
      have hblank : ' ' ∈ RUN := by
        rw [← h, BlockDecl.key, hname]
        simp
      exact absurd hblank (by decide)

theorem entry_not_run (d : BlockDecl) : (d.entry.1.isScalar && d.entry.1.text == RUN) = false := by
  have hne : (d.key == RUN) = false := beq_eq_false_iff_ne.mpr (key_ne_run d)
  exact hne

namespace WrittenPipe

variable {SPL_USE_CGAL : Bool} {β σ : Type*}

theorem get_run (w : WrittenPipe SPL_USE_CGAL) : w.toYaml.get RUN = .scalar (runText w.run) := by
  have hbefore : (w.before.map BlockDecl.entry).find?
      (fun e => e.1.isScalar && e.1.text == RUN) = none := by
    refine List.find?_eq_none.mpr fun e he => ?_
    obtain ⟨d, _, rfl⟩ := List.mem_map.mp he
    simp [entry_not_run d]
  rw [YamlNode.get, toYaml, YamlNode.entries, List.find?_append, hbefore]
  simp [YamlNode.isScalar, YamlNode.text]

/-- Registered types can be looked up. -/
theorem lookup_type (creator : Str → BlockCreator β) {t : BlockType}
    (h : t ∈ BlockType.registered SPL_USE_CGAL) :
    (BlockLoader.new SPL_USE_CGAL creator).myBlocksDirectory.lookup t.name = some (creator t.name) := by
  rw [BlockLoader.new, BlockType.registeredTypes_eq, List.map_map]
  show List.lookup t.name ((BlockType.registered SPL_USE_CGAL).map _) = _
  generalize BlockType.registered SPL_USE_CGAL = types at h
  induction types with
  | nil => exact absurd h List.not_mem_nil
  | cons u types ih =>
      rw [List.map_cons, Function.comp_apply, List.lookup_cons]
      by_cases heq : t = u
      · subst heq
        simp
      · have hne : (t.name == u.name) = false :=
          beq_eq_false_iff_ne.mpr fun hname => heq (BlockType.name_injective hname)
        rw [hne]
        exact ih ((List.mem_cons.mp h).resolve_left heq)

/-- **The loader reads in the keys what was written.** -/
theorem blockEntries_decls (creator : Str → BlockCreator β) {decls : List BlockDecl}
    (hregistered : ∀ d ∈ decls, d.type ∈ BlockType.registered SPL_USE_CGAL)
    (hwords : ∀ d ∈ decls, Word isspace d.goesBy) (more : List (YamlNode × YamlNode)) (temp : Str) :
    ∃ temp', (BlockLoader.new SPL_USE_CGAL creator).blockEntries temp
        (decls.map BlockDecl.entry ++ more)
      = decls.map BlockDecl.read
        ++ (BlockLoader.new SPL_USE_CGAL creator).blockEntries temp' more := by
  induction decls generalizing temp with
  | nil => exact ⟨temp, rfl⟩
  | cons d decls ih =>
      obtain ⟨htype, hname⟩ := read_key (hwords d (by simp)) temp
      have hlookup := lookup_type creator (hregistered d (by simp))
      obtain ⟨temp', htemp'⟩ := ih (fun e he => hregistered e (List.mem_cons_of_mem d he))
        (fun e he => hwords e (List.mem_cons_of_mem d he)) d.goesBy
      refine ⟨temp', ?_⟩
      rcases hread : readWord d.key temp with ⟨type, ss⟩
      rw [hread] at htype hname
      subst htype
      have hentry : (BlockLoader.new SPL_USE_CGAL creator).blockEntries temp
            (d.entry :: (decls.map BlockDecl.entry ++ more))
          = d.read :: (BlockLoader.new SPL_USE_CGAL creator).blockEntries d.goesBy
            (decls.map BlockDecl.entry ++ more) := by
        rw [blockEntries]
        simp only [BlockDecl.entry, YamlNode.text, hread, hlookup, Option.isSome_some, if_true, hname]
        rfl
      rw [List.map_cons, List.cons_append, hentry, htemp']
      rfl

theorem blockEntries_toYaml (creator : Str → BlockCreator β) (w : WrittenPipe SPL_USE_CGAL) :
    (BlockLoader.new SPL_USE_CGAL creator).blockEntries [] w.toYaml.entries
      = w.decls.map BlockDecl.read := by
  have hregistered := List.forall_mem_append.mp w.registered
  have hwords := List.forall_mem_append.mp w.words
  obtain ⟨temp, hbefore⟩ := blockEntries_decls creator hregistered.1 hwords.1
    ((.scalar RUN, .scalar (runText w.run)) :: w.after.map BlockDecl.entry) []
  obtain ⟨temp', hafter⟩ := blockEntries_decls creator hregistered.2 hwords.2 [] RUN
  -- `run` is a word, but no type
  have hrun : (BlockLoader.new SPL_USE_CGAL creator).blockEntries temp
        ((.scalar RUN, .scalar (runText w.run)) :: w.after.map BlockDecl.entry)
      = (BlockLoader.new SPL_USE_CGAL creator).blockEntries RUN (w.after.map BlockDecl.entry) := by
    have hread : readWord RUN temp = (RUN, []) := rfl
    have hlookup : (BlockLoader.new SPL_USE_CGAL creator).myBlocksDirectory.lookup RUN = none := by
      cases SPL_USE_CGAL <;> rfl
    rw [blockEntries]
    simp [YamlNode.text, hread, hlookup]
  rw [List.append_nil] at hafter
  rw [toYaml, YamlNode.entries, hbefore, hrun, hafter, decls, List.map_append]
  exact congrArg _ (List.append_nil _)

end WrittenPipe

/-! ### The blocks -/

section Blocks

variable {β : Type*}

/-- A block that is made can be got under its name, from then on. -/
theorem isSome_get_foldl {l : BlockLoader β} {e : BlockEntry} (hmade : (l.make e).isSome) (n : ℕ)
    {es : List BlockEntry} (he : e ∈ es) : ((es.foldl loadBlock (n, l)).2.get e.name).isSome := by
  have hinsert : ∀ (l' : BlockLoader β) (name : Str) (block : β),
      (l'.get e.name).isSome → ((l'.insert name block).get e.name).isSome := by
    intro l' name block h
    rw [BlockLoader.get, BlockLoader.insert, List.lookup_cons]
    split
    · rfl
    · exact h
  induction es using List.reverseRecOn with
  | nil => exact absurd he List.not_mem_nil
  | append_singleton es e' ih =>
      have hmake : ∀ e, (es.foldl loadBlock (n, l)).2.make e = l.make e :=
        make_congr (directory_foldl (n, l) es)
      rw [List.foldl_append, List.foldl_cons, List.foldl_nil, loadBlock, hmake]
      rcases List.mem_append.mp he with he | he
      · cases l.make e' with
        | none => exact ih he
        | some block => exact hinsert _ _ _ (ih he)
      · obtain rfl := List.mem_singleton.mp he
        cases hblock : l.make e with
        | none => simp [hblock] at hmade
        | some block =>
            show ((BlockLoader.insert _ e.name block).get e.name).isSome = true
            rw [BlockLoader.get, BlockLoader.insert, List.lookup_cons_self]
            rfl

/-- The blocks of some names, one for each. -/
theorem forall₂_filterMap {get : Str → Option ℕ} {P : ℕ → Str → Prop} {names : List Str}
    (h : ∀ name ∈ names, ∃ block, get name = some block ∧ P block name) :
    List.Forall₂ P (names.filterMap get) names := by
  induction names with
  | nil => exact List.Forall₂.nil
  | cons name names ih =>
      obtain ⟨block, hget, hblock⟩ := h name (by simp)
      rw [List.filterMap_cons_some hget]
      exact List.Forall₂.cons hblock (ih fun n hn => h n (List.mem_cons_of_mem name hn))

namespace WrittenPipe

variable {SPL_USE_CGAL : Bool} {creator : Str → BlockCreator β}

/-- The blocks that the pipe uses can be made. -/
def Makes (w : WrittenPipe SPL_USE_CGAL) (creator : Str → BlockCreator β) : Prop :=
  ∀ d ∈ w.decls, d.goesBy ∈ w.run → (creator d.type.name d.info).isSome = true

theorem make_read (creator : Str → BlockCreator β) (w : WrittenPipe SPL_USE_CGAL) {d : BlockDecl}
    (hd : d ∈ w.decls) :
    (BlockLoader.new SPL_USE_CGAL creator).make d.read = creator d.type.name d.info := by
  have hlookup := lookup_type creator (w.registered d hd)
  rw [make, BlockDecl.read, hlookup]
  rfl

/-- What is got under the name of a block is what was made of it. -/
theorem block_of_get (w : WrittenPipe SPL_USE_CGAL) {d : BlockDecl} (hd : d ∈ w.decls) {block : ℕ}
    (hget : (blockLoader SPL_USE_CGAL creator w.toYaml).get d.goesBy = some block) :
    (creator d.type.name d.info).isSome = true ∧
      (blockLoader SPL_USE_CGAL creator w.toYaml).blocks[block]? = creator d.type.name d.info := by
  obtain ⟨e, he, hname, hmade, hblock⟩ := exists_entry_of_get rfl rfl hget
  rw [w.blockEntries_toYaml creator] at he
  obtain ⟨d', hd', rfl⟩ := List.mem_map.mp he
  -- there is one declaration of a name
  obtain rfl : d = d' := List.inj_on_of_nodup_map w.nodup hd hd' hname.symm
  rw [w.make_read creator hd] at hmade hblock
  exact ⟨hmade, hblock⟩

/-- **A declared block can be got under its name** exactly if it can be made. -/
theorem isSome_get_iff (w : WrittenPipe SPL_USE_CGAL) {d : BlockDecl} (hd : d ∈ w.decls) :
    ((blockLoader SPL_USE_CGAL creator w.toYaml).get d.goesBy).isSome = true ↔
      (creator d.type.name d.info).isSome = true := by
  constructor
  · intro hget
    obtain ⟨block, hblock⟩ := Option.isSome_iff_exists.mp hget
    exact (w.block_of_get hd hblock).1
  · intro hsome
    have hmap : w.toYaml.isMap = true := rfl
    have hread : d.read ∈ (BlockLoader.new SPL_USE_CGAL creator).blockEntries [] w.toYaml.entries := by
      rw [w.blockEntries_toYaml creator]
      exact List.mem_map_of_mem hd
    rw [← w.make_read creator hd] at hsome
    rw [blockLoader, load, if_pos hmap, loadEntries_eq_foldl]
    exact isSome_get_foldl hsome 0 hread

end WrittenPipe

end Blocks

section Building

variable {SPL_USE_CGAL : Bool} {β σ : Type*} {creator : Str → BlockCreator β}

namespace WrittenPipe

/-- Both builders read the names that were written. -/
theorem names_eq (w : WrittenPipe SPL_USE_CGAL) :
    pipeNames (runText w.run) = w.run ∧ nestedNames (runText w.run) = w.run := by
  have hname : ∀ name ∈ w.run, Name name := by
    intro name hname
    obtain ⟨d, hd, rfl⟩ := w.run_declared name hname
    exact ⟨w.words d hd, w.no_bars d hd⟩
  obtain ⟨hpipe, hplain⟩ := names_of_runText w.run_ne_nil hname
  exact ⟨hpipe, (nestedNames_eq_pipeNames hplain).trans hpipe⟩

theorem found (w : WrittenPipe SPL_USE_CGAL) (hmade : w.Makes creator) :
    ∀ name ∈ w.run, (blockLoader SPL_USE_CGAL creator w.toYaml).get name ≠ none := by
  intro name hname
  obtain ⟨d, hd, rfl⟩ := w.run_declared name hname
  exact Option.isSome_iff_ne_none.mp ((w.isSome_get_iff hd).mpr (hmade d hd hname))

/-- The pipe that is built. -/
theorem buildPipe_eq (L : Links ℕ σ) (w : WrittenPipe SPL_USE_CGAL) (hmade : w.Makes creator) :
    buildPipe L SPL_USE_CGAL creator w.toYaml
      = .ok (namedPipe L (blockLoader SPL_USE_CGAL creator w.toYaml) w.run) := by
  have hfound := w.found hmade
  rw [buildPipe_of_found w.get_run (by rwa [w.names_eq.1]), w.names_eq.1]

/-- As a nested pipe, it is the same. -/
theorem nodeToValue_eq (L : Links ℕ σ) (w : WrittenPipe SPL_USE_CGAL) (hmade : w.Makes creator) :
    nodeToValue L SPL_USE_CGAL creator w.toYaml
      = .ok (namedPipe L (blockLoader SPL_USE_CGAL creator w.toYaml) w.run) := by
  have hfound := w.found hmade
  rw [nodeToValue_of_found w.get_run (by rwa [w.names_eq.2]), w.names_eq.2]

/-- **The blocks of the pipe** are those made from the declarations of the names, one for each. -/
theorem exists_visits (L : Links ℕ σ) (w : WrittenPipe SPL_USE_CGAL) (hmade : w.Makes creator) :
    let pipe := namedPipe L (blockLoader SPL_USE_CGAL creator w.toYaml) w.run
    ∃ blocks, Visits L pipe.links pipe.startBlock blocks ∧
      List.Forall₂ (fun block name => name ∈ w.run ∧ ∀ d ∈ w.decls, d.goesBy = name →
        pipe.blocks[block]? = creator d.type.name d.info) blocks w.run := by
  intro pipe
  have hwell := wellLoaded_blockLoader SPL_USE_CGAL creator w.toYaml
  refine ⟨_, (visits_namedPipe_iff hwell (w.found hmade)).mpr w.run_nodup,
    forall₂_filterMap fun name hname => ?_⟩
  obtain ⟨block, hget⟩ := Option.ne_none_iff_exists'.mp (w.found hmade name hname)
  refine ⟨block, hget, hname, fun d hd hgoes => ?_⟩
  subst hgoes
  exact (w.block_of_get hd hget).2

end WrittenPipe

/-- **What is written down is what is built.**  If every block that is written down can be made, then
both builders return one and the same pipe.  Following its links from its first block visits as many
blocks as there are names, in the order of the names, and ends; and each of them is the block that was
made from the declaration of its name, wherever in the node that stands. -/
theorem written_pipe_is_built (L : Links ℕ σ) (creator : Str → BlockCreator β)
    (w : WrittenPipe SPL_USE_CGAL) (hmade : ∀ d ∈ w.decls, (creator d.type.name d.info).isSome) :
    ∃ pipe blocks, buildPipe L SPL_USE_CGAL creator w.toYaml = .ok pipe ∧
      nodeToValue L SPL_USE_CGAL creator w.toYaml = .ok pipe ∧
      Visits L pipe.links pipe.startBlock blocks ∧
      List.Forall₂ (fun block name => ∀ d ∈ w.decls, d.goesBy = name →
        pipe.blocks[block]? = creator d.type.name d.info) blocks w.run := by
  have hmakes : w.Makes creator := fun d hd _ => hmade d hd
  obtain ⟨blocks, hvisits, hblocks⟩ := w.exists_visits L hmakes
  exact ⟨_, blocks, w.buildPipe_eq L hmakes, w.nodeToValue_eq L hmakes, hvisits,
    hblocks.imp fun _ _ h => h.2⟩

end Building

/-- Two blocks, one of them without a name of its own, that run in the other order. -/
theorem written_pipe_is_built_at :
    ∃ w : WrittenPipe false, w.toYaml = .map [(.scalar "clone a".toList, .null),
        (.scalar "run".toList, .scalar "rescale | a".toList), (.scalar "rescale".toList, .null)] ∧
      ∃ pipe blocks, buildPipe (ofPairs ℕ) false (fun type _ => some type) w.toYaml = .ok pipe ∧
        Visits (ofPairs ℕ) pipe.links pipe.startBlock blocks ∧
        blocks.map (pipe.blocks[·]?) = [some "rescale".toList, some "clone".toList] := by
  let w : WrittenPipe false := {
    before := [⟨.clone, some "a".toList, .null⟩]
    after := [⟨.rescale, none, .null⟩]
    run := ["rescale".toList, "a".toList]
    registered := by decide
    words := by decide
    no_bars := by decide
    nodup := by decide
    run_nodup := by decide
    run_ne_nil := by decide
    run_declared := by decide }
  obtain ⟨pipe, blocks, hbuild, _, hvisits, hblocks⟩ :=
    written_pipe_is_built (ofPairs ℕ) (fun type _ => some type) w fun _ _ => rfl
  refine ⟨w, rfl, pipe, blocks, hbuild, hvisits, ?_⟩
  obtain ⟨first, rest, hfirst, hrest, rfl⟩ := List.forall₂_cons_right_iff.mp hblocks
  obtain ⟨second, rest', hsecond, hnil, rfl⟩ := List.forall₂_cons_right_iff.mp hrest
  obtain rfl := List.forall₂_nil_right_iff.mp hnil
  have hone := hfirst ⟨.rescale, none, .null⟩ (by simp [w, WrittenPipe.decls]) rfl
  have htwo := hsecond ⟨.clone, some "a".toList, .null⟩ (by simp [w, WrittenPipe.decls]) rfl
  rw [List.map_cons, List.map_cons, List.map_nil, hone, htwo]
  rfl

end StructurePipe.Build
