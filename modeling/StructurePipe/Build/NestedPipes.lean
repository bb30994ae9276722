import StructurePipe.Build.WrittenPipe

/-!
# Pipes in pipes

Two block types have an option `pipe`, which the schemas read with `BlockLoaderType`: it loads the
blocks of the nested pipe with a loader of its own, so that these can have nested pipes as well.  The
recursion goes down the YAML node and ends with it; here it is cut off at the depth of the node, where
it has ended already.

* `nestedCreator_eq`, `nestedCreator_unique` — the recursion of the source, and that it determines what
  is created;
* `Buildable.builtAs` — what is built, level by level;
* `nested_pipes_are_built` — **pipes in pipes are built as they are written, at every depth,** if no
  block that is used is refused.
-/

namespace StructurePipe

namespace YamlNode

mutual

/-- How deep maps are nested in the values of a map. -/
def nesting : YamlNode → ℕ
  | .map entries => nestingOfEntries entries + 1
  | _ => 0

def nestingOfEntries : List (YamlNode × YamlNode) → ℕ
  | [] => 0
  | (_, value) :: entries => max (nesting value) (nestingOfEntries entries)

end

theorem nesting_le_of_mem {entries : List (YamlNode × YamlNode)} {entry : YamlNode × YamlNode}
    (h : entry ∈ entries) : entry.2.nesting ≤ nestingOfEntries entries := by
  induction entries with
  | nil => exact absurd h List.not_mem_nil
  | cons first entries ih =>
      rcases first with ⟨key, value⟩
      rw [nestingOfEntries]
      rcases List.mem_cons.mp h with rfl | h
      · exact le_max_left _ _
      · exact (ih h).trans (le_max_right _ _)

/-- The values of a map are not nested as deep as the map. -/
theorem nesting_lt_of_mem {node : YamlNode} {entry : YamlNode × YamlNode} (h : entry ∈ node.entries) :
    entry.2.nesting < node.nesting := by
  cases node with
  | map entries =>
      rw [nesting]
      exact Nat.lt_succ_of_le (nesting_le_of_mem h)
  | null => exact absurd h List.not_mem_nil
  | scalar text => exact absurd h List.not_mem_nil
  | sequence items => exact absurd h List.not_mem_nil

/-- Nor is a value in the value of a key. -/
theorem nesting_lt_of_mem_get {node : YamlNode} {key : Str} {entry : YamlNode × YamlNode}
    (h : entry ∈ (node.get key).entries) : entry.2.nesting + 1 < node.nesting := by
  have hinner := nesting_lt_of_mem h
  rw [get] at h hinner
  cases hfind : node.entries.find? fun e => e.1.isScalar && e.1.text == key with
  | none =>
      rw [hfind] at h
      exact absurd h List.not_mem_nil
  | some outer =>
      rw [hfind] at hinner
      have houter := nesting_lt_of_mem (List.mem_of_find?_eq_some hfind)
      exact lt_of_le_of_lt hinner houter

end YamlNode

namespace Build

open SingleLinks BlockLoader

/-- The key of a nested pipe. -/
def PIPE : Str := "pipe".toList

/-- The block types with a pipe of their own. -/
def BlockType.sweeps : BlockType → Bool
  | .runPotentialParamsQueue => true
  | .searchStoichiometries => true
  | _ => false

/-! ### The recursion -/

section Recursion

variable {spl : SplLibrary} {ε σ : Type*} (L : Links ℕ σ) (SPL_USE_CGAL : Bool)

/-- The schemas with the element `pipe`, which two of them have. -/
def withPipe (schemas : Schemas spl ε) (pipe : YamlNode → Option spl.PipeHandle) : Schemas spl ε
  | .runPotentialParamsQueue, node =>
      let converted := schemas .runPotentialParamsQueue node
      let options : RunPotentialParamsQueue spl := converted.options
      ⟨{ options with pipe := pipe (node.get PIPE) }, converted.log⟩
  | .searchStoichiometries, node =>
      let converted := schemas .searchStoichiometries node
      let options : SearchStoichiometries spl := converted.options
      ⟨{ options with pipe := pipe (node.get PIPE) }, converted.log⟩
  | t, node => schemas t node

variable (schemas : Schemas spl ε) (handle : Pipe (Block spl) σ → spl.PipeHandle)

/-- What `BlockLoaderType` puts into the option `pipe`: a null handle if it fails, and if there is no
first block. -/
def nestedHandle (creator : Str → BlockCreator (Block spl)) (node : YamlNode) :
    Option spl.PipeHandle :=
  match nodeToValue L SPL_USE_CGAL creator node with
  | .error _ => none
  | .ok pipe => pipe.startBlock.map fun _ => handle pipe

/-- The creators, for nodes up to a depth. -/
def creatorWithin : ℕ → Str → BlockCreator (Block spl)
  | 0 => FactoryBlockCreator.creator (withPipe schemas fun _ => none)
  | depth + 1 => FactoryBlockCreator.creator
      (withPipe schemas (nestedHandle L SPL_USE_CGAL handle (creatorWithin depth)))

/-- The creators. -/
def nestedCreator (name : Str) : BlockCreator (Block spl) := fun node =>
  creatorWithin L SPL_USE_CGAL schemas handle node.nesting name node

/-! ### What it depends on -/

variable {L SPL_USE_CGAL schemas handle}

theorem withPipe_congr {pipe pipe' : YamlNode → Option spl.PipeHandle} {node : YamlNode}
    (h : pipe (node.get PIPE) = pipe' (node.get PIPE)) (t : BlockType) :
    withPipe schemas pipe t node = withPipe schemas pipe' t node := by
  cases t with
  | runPotentialParamsQueue => rw [withPipe, withPipe, h]
  | searchStoichiometries => rw [withPipe, withPipe, h]
  | _ => rfl

/-- A creator looks at one nested node. -/
theorem creator_congr {pipe pipe' : YamlNode → Option spl.PipeHandle} {node : YamlNode}
    (h : pipe (node.get PIPE) = pipe' (node.get PIPE)) (name : Str) :
    FactoryBlockCreator.creator (withPipe schemas pipe) name node
      = FactoryBlockCreator.creator (withPipe schemas pipe') name node := by
  have hblock : ∀ t, FactoryBlockCreator.createBlock (withPipe schemas pipe) t node
      = FactoryBlockCreator.createBlock (withPipe schemas pipe') t node := by
    intro t
    rw [FactoryBlockCreator.createBlock, FactoryBlockCreator.createBlock, withPipe_congr h]
  simp only [FactoryBlockCreator.creator, hblock]

theorem lookup_new {β : Type*} (creator : Str → BlockCreator β) (type : Str) :
    (BlockLoader.new SPL_USE_CGAL creator).myBlocksDirectory.lookup type
      = if type ∈ registeredTypes SPL_USE_CGAL then some (creator type) else none := by
  rw [BlockLoader.new]
  induction registeredTypes SPL_USE_CGAL with
  | nil => rfl
  | cons first types ih =>
      rw [List.map_cons, List.lookup_cons]
      by_cases h : type = first
      · simp [h]
      · have hne : (type == first) = false := beq_eq_false_iff_ne.mpr h
        rw [hne]
        simpa [h] using ih

/-- What a loader makes of a node is what its creators make of the values in it. -/
theorem load_congr {β : Type*} (SPL_USE_CGAL : Bool) {creator creator' : Str → BlockCreator β}
    {node : YamlNode}
    (h : ∀ entry ∈ node.entries, ∀ name, creator name entry.2 = creator' name entry.2) :
    (blockLoader SPL_USE_CGAL creator node).myBlocks
        = (blockLoader SPL_USE_CGAL creator' node).myBlocks ∧
      (blockLoader SPL_USE_CGAL creator node).blocks
        = (blockLoader SPL_USE_CGAL creator' node).blocks := by
  have hloop : ∀ (entries : List (YamlNode × YamlNode)),
      (∀ entry ∈ entries, ∀ name, creator name entry.2 = creator' name entry.2) →
      ∀ (temp : Str) (n : ℕ) (l l' : BlockLoader β),
        l.myBlocksDirectory = (BlockLoader.new SPL_USE_CGAL creator).myBlocksDirectory →
        l'.myBlocksDirectory = (BlockLoader.new SPL_USE_CGAL creator').myBlocksDirectory →
        l.myBlocks = l'.myBlocks → l.blocks = l'.blocks →
        (loadEntries temp n l entries).2.myBlocks = (loadEntries temp n l' entries).2.myBlocks ∧
          (loadEntries temp n l entries).2.blocks = (loadEntries temp n l' entries).2.blocks := by
    intro entries
    induction entries with
    | nil => exact fun _ _ _ _ _ _ _ hmy hall => ⟨hmy, hall⟩
    | cons entry entries ih =>
        intro hentries temp n l l' hdir hdir' hmy hall
        have hrest := ih fun e he => hentries e (List.mem_cons_of_mem entry he)
        rw [loadEntries, loadEntries, loadEntry, loadEntry, hdir, hdir']
        rcases readWord entry.1.text temp with ⟨type, ss⟩
        simp only [lookup_new]
        by_cases htype : type ∈ registeredTypes SPL_USE_CGAL
        · simp only [htype, if_true, hentries entry List.mem_cons_self]
          cases creator' type entry.2 with
          | none => exact hrest _ _ _ _ hdir hdir' hmy hall
          | some block =>
              exact hrest _ _ _ _ hdir hdir' (by simp only [BlockLoader.insert, hmy, hall])
                (by simp only [BlockLoader.insert, hall])
        · simp only [htype, if_false]
          exact hrest _ _ _ _ hdir hdir' hmy hall
  rw [blockLoader, blockLoader, load, load]
  split
  · exact hloop node.entries h [] 0 _ _ rfl rfl rfl rfl
  · exact ⟨rfl, rfl⟩

theorem nodeToValue_congr {β : Type*} {creator creator' : Str → BlockCreator β} {node : YamlNode}
    (h : ∀ entry ∈ node.entries, ∀ name, creator name entry.2 = creator' name entry.2) :
    nodeToValue L SPL_USE_CGAL creator node = nodeToValue L SPL_USE_CGAL creator' node := by
  obtain ⟨hmy, hall⟩ := load_congr SPL_USE_CGAL h
  have hget : (blockLoader SPL_USE_CGAL creator node).get
      = (blockLoader SPL_USE_CGAL creator' node).get := by
    funext name
    rw [BlockLoader.get, BlockLoader.get, hmy]
  simp only [nodeToValue, hget, hall]

/-- A nested pipe depends on what is created from the values in the values of its key. -/
theorem nestedHandle_congr {creator creator' : Str → BlockCreator (Block spl)} {node : YamlNode}
    (h : ∀ entry ∈ node.entries, ∀ name, creator name entry.2 = creator' name entry.2) :
    nestedHandle L SPL_USE_CGAL handle creator node
      = nestedHandle L SPL_USE_CGAL handle creator' node := by
  rw [nestedHandle, nestedHandle, nodeToValue_congr h]

/-! ### The recursion of the source -/

/-- Beyond the depth of a node the depth makes no difference. -/
theorem creatorWithin_succ (depth : ℕ) {node : YamlNode} (h : node.nesting ≤ depth) (name : Str) :
    creatorWithin L SPL_USE_CGAL schemas handle (depth + 1) name node
      = creatorWithin L SPL_USE_CGAL schemas handle depth name node := by
  induction depth generalizing node name with
  | zero =>
      refine creator_congr ?_ name
      have hget : node.get PIPE = .null := by
        cases node with
        | map entries => exact absurd h (by simp [YamlNode.nesting])
        | null => rfl
        | scalar text => rfl
        | sequence items => rfl
      rw [hget]
      rfl
  | succ depth ih =>
      refine creator_congr (nestedHandle_congr fun entry hentry name' => ih ?_ name') name
      have hlt := YamlNode.nesting_lt_of_mem_get hentry
      omega

theorem creatorWithin_of_le {depth : ℕ} {node : YamlNode} (h : node.nesting ≤ depth) (name : Str) :
    creatorWithin L SPL_USE_CGAL schemas handle depth name node
      = nestedCreator L SPL_USE_CGAL schemas handle name node := by
  induction depth, h using Nat.le_induction with
  | base => rfl
  | succ depth h ih => rw [creatorWithin_succ depth h, ih]

/-- **The recursion of the source:** nested pipes are made with the same creators. -/
theorem nestedCreator_eq (name : Str) (node : YamlNode) :
    nestedCreator L SPL_USE_CGAL schemas handle name node
      = FactoryBlockCreator.creator (withPipe schemas
          (nestedHandle L SPL_USE_CGAL handle (nestedCreator L SPL_USE_CGAL schemas handle)))
          name node := by
  rw [← creatorWithin_of_le (Nat.le_succ node.nesting)]
  refine creator_congr (nestedHandle_congr fun entry hentry name' => creatorWithin_of_le ?_ name') name
  have hlt := YamlNode.nesting_lt_of_mem_get hentry
  omega

/-- It determines what is created. -/
theorem nestedCreator_unique {creator : Str → BlockCreator (Block spl)}
    (h : ∀ name node, creator name node = FactoryBlockCreator.creator
      (withPipe schemas (nestedHandle L SPL_USE_CGAL handle creator)) name node) :
    creator = nestedCreator L SPL_USE_CGAL schemas handle := by
  have hdepth : ∀ depth (node : YamlNode), node.nesting < depth → ∀ name,
      creator name node = nestedCreator L SPL_USE_CGAL schemas handle name node := by
    intro depth
    induction depth with
    | zero => exact fun _ hlt => absurd hlt (Nat.not_lt_zero _)
    | succ depth ih =>
        intro node hlt name
        rw [h, nestedCreator_eq]
        refine creator_congr (nestedHandle_congr fun entry hentry name' => ih _ ?_ name') name
        have hnested := YamlNode.nesting_lt_of_mem_get hentry
        omega
  funext name node
  exact hdepth _ node (Nat.lt_succ_self _) name

end Recursion

/-! ### Written pipes in written pipes -/

section Written

variable {spl : SplLibrary} {ε σ : Type*} {SPL_USE_CGAL : Bool}

/-- A pipe in which every block that is used and has a pipe of its own has it written down, and so
on. -/
inductive NestedPipe : WrittenPipe SPL_USE_CGAL → Prop where
  | of (w : WrittenPipe SPL_USE_CGAL) (pipeOf : BlockDecl → WrittenPipe SPL_USE_CGAL)
      (info : ∀ d ∈ w.decls, d.goesBy ∈ w.run → d.type.sweeps = true →
        d.info.get PIPE = (pipeOf d).toYaml)
      (nested : ∀ d ∈ w.decls, d.goesBy ∈ w.run → d.type.sweeps = true →
        NestedPipe (pipeOf d)) : NestedPipe w

theorem NestedPipe.of_plain {w : WrittenPipe SPL_USE_CGAL}
    (h : ∀ d ∈ w.decls, d.type.sweeps = false) : NestedPipe w := by
  refine .of w (fun _ => w) (fun d hd _ hsweeps => ?_) fun d hd _ hsweeps => ?_
  · exact absurd hsweeps (by simp [h d hd])
  · exact absurd hsweeps (by simp [h d hd])

/-- No block that is used is refused: the factory makes what has no pipe of its own, and the pipes of
the others are again of this kind. -/
inductive Buildable (schemas : Schemas spl ε) : WrittenPipe SPL_USE_CGAL → Prop where
  | of (w : WrittenPipe SPL_USE_CGAL) (pipeOf : BlockDecl → WrittenPipe SPL_USE_CGAL)
      (accepted : ∀ d ∈ w.decls, d.goesBy ∈ w.run → d.type.sweeps = false →
        (FactoryBlockCreator.creator schemas d.type.name d.info).isSome = true)
      (info : ∀ d ∈ w.decls, d.goesBy ∈ w.run → d.type.sweeps = true →
        d.info.get PIPE = (pipeOf d).toYaml)
      (nested : ∀ d ∈ w.decls, d.goesBy ∈ w.run → d.type.sweeps = true →
        Buildable schemas (pipeOf d)) : Buildable schemas w

/-- A pipe that is as it was written: following its links visits one block for each name under `run`,
in their order, which is the block of the declaration of the name; and if this has a pipe of its own,
the block holds a handle to one that is as it was written. -/
inductive BuiltAs (L : Links ℕ σ) (schemas : Schemas spl ε)
    (handle : Pipe (Block spl) σ → spl.PipeHandle) :
    WrittenPipe SPL_USE_CGAL → Pipe (Block spl) σ → Prop where
  | of (w : WrittenPipe SPL_USE_CGAL) (pipe : Pipe (Block spl) σ) (blocks : List ℕ)
      (pipeOf : BlockDecl → WrittenPipe SPL_USE_CGAL) (builtOf : BlockDecl → Pipe (Block spl) σ)
      (visits : Visits L pipe.links pipe.startBlock blocks)
      (made : List.Forall₂ (fun block name => ∀ d ∈ w.decls, d.goesBy = name → ∃ b,
        pipe.blocks[block]? = some b ∧ FactoryBlockCreator.creator
          (withPipe schemas fun _ => some (handle (builtOf d))) d.type.name d.info = some b)
        blocks w.run)
      (info : ∀ d ∈ w.decls, d.goesBy ∈ w.run → d.type.sweeps = true →
        d.info.get PIPE = (pipeOf d).toYaml)
      (nested : ∀ d ∈ w.decls, d.goesBy ∈ w.run → d.type.sweeps = true →
        BuiltAs L schemas handle (pipeOf d) (builtOf d)) : BuiltAs L schemas handle w pipe

variable {L : Links ℕ σ} {schemas : Schemas spl ε} {handle : Pipe (Block spl) σ → spl.PipeHandle}

/-! ### One block -/

theorem creator_of_not_sweeps {t : BlockType} (h : t.sweeps = false)
    (pipe : YamlNode → Option spl.PipeHandle) (node : YamlNode) :
    FactoryBlockCreator.creator (withPipe schemas pipe) t.name node
      = FactoryBlockCreator.creator schemas t.name node := by
  have hschemas : withPipe schemas pipe t node = schemas t node := by
    cases t with
    | runPotentialParamsQueue => exact absurd h (by decide)
    | searchStoichiometries => exact absurd h (by decide)
    | _ => rfl
  simp only [FactoryBlockCreator.creator, BlockType.ofName_name, Option.bind_some,
    FactoryBlockCreator.createBlock, hschemas]

/-- A block with a pipe of its own is made exactly if there is the pipe. -/
theorem isSome_creator_of_sweeps {t : BlockType} (h : t.sweeps = true)
    (pipe : YamlNode → Option spl.PipeHandle) (node : YamlNode) :
    (FactoryBlockCreator.creator (withPipe schemas pipe) t.name node).isSome
      = (pipe (node.get PIPE)).isSome := by
  simp only [FactoryBlockCreator.creator, BlockType.ofName_name, Option.bind_some,
    FactoryBlockCreator.createBlock]
  rw [createBlock_blockOut]
  cases t with
  | runPotentialParamsQueue => rfl
  | searchStoichiometries => rfl
  | _ => exact absurd h (by decide)

/-! ### One pipe -/

namespace WrittenPipe

variable {β : Type*} {creator : Str → BlockCreator β}

/-- If a block that is used is refused, neither builder gives a pipe. -/
theorem error_of_not_makes (L : Links ℕ σ) (w : WrittenPipe SPL_USE_CGAL)
    (h : ¬ w.Makes creator) :
    (∃ text, buildPipe L SPL_USE_CGAL creator w.toYaml = .error text) ∧
      ∃ error, nodeToValue L SPL_USE_CGAL creator w.toYaml = .error error := by
  have hmissing : ∃ name ∈ w.run, (blockLoader SPL_USE_CGAL creator w.toYaml).get name = none := by
    by_contra hfound
    refine h fun d hd hname => (w.isSome_get_iff hd).mp (Option.isSome_iff_ne_none.mpr ?_)
    exact fun hnone => hfound ⟨d.goesBy, hname, hnone⟩
  constructor
  · obtain ⟨tok, _, _, herror⟩ := buildPipe_of_missing (L := L) w.get_run (by rwa [w.names_eq.1])
    exact ⟨_, herror⟩
  · obtain ⟨tok, _, _, herror⟩ := nodeToValue_of_missing (L := L) w.get_run (by rwa [w.names_eq.2])
    exact ⟨_, herror⟩

/-- The pipe that is built, if no block that is used is refused. -/
def built (L : Links ℕ σ) (creator : Str → BlockCreator β) (w : WrittenPipe SPL_USE_CGAL) :
    Pipe β σ :=
  namedPipe L (blockLoader SPL_USE_CGAL creator w.toYaml) w.run

theorem nestedHandle_of_makes {creator : Str → BlockCreator (Block spl)}
    (w : WrittenPipe SPL_USE_CGAL) (h : w.Makes creator) :
    nestedHandle L SPL_USE_CGAL handle creator w.toYaml = some (handle (w.built L creator)) := by
  obtain ⟨block, hblock⟩ := Option.isSome_iff_exists.mp
    (startBlock_namedPipe (L := L) w.run_ne_nil (w.found h))
  rw [nestedHandle, w.nodeToValue_eq L h]
  show Option.map _ (namedPipe L (blockLoader SPL_USE_CGAL creator w.toYaml) w.run).startBlock = _
  rw [hblock]
  rfl

theorem makes_of_nestedHandle {creator : Str → BlockCreator (Block spl)}
    {w : WrittenPipe SPL_USE_CGAL}
    (h : (nestedHandle L SPL_USE_CGAL handle creator w.toYaml).isSome = true) : w.Makes creator := by
  by_contra hnot
  obtain ⟨error, herror⟩ := (w.error_of_not_makes L hnot).2
  rw [nestedHandle, herror] at h
  exact absurd h (by simp)

end WrittenPipe

/-! ### All levels -/

/-- The pipe of the source's recursion. -/
def builtPipe (L : Links ℕ σ) (schemas : Schemas spl ε) (handle : Pipe (Block spl) σ → spl.PipeHandle)
    (w : WrittenPipe SPL_USE_CGAL) : Pipe (Block spl) σ :=
  w.built L (nestedCreator L SPL_USE_CGAL schemas handle)

theorem Buildable.makes {w : WrittenPipe SPL_USE_CGAL} (h : Buildable schemas w) :
    w.Makes (nestedCreator L SPL_USE_CGAL schemas handle) := by
  induction h with
  | of w pipeOf accepted info nested ih =>
      intro d hd hname
      rw [nestedCreator_eq]
      cases hsweeps : d.type.sweeps with
      | false =>
          rw [creator_of_not_sweeps hsweeps]
          exact accepted d hd hname hsweeps
      | true =>
          rw [isSome_creator_of_sweeps hsweeps, info d hd hname hsweeps,
            WrittenPipe.nestedHandle_of_makes _ (ih d hd hname hsweeps)]
          rfl

/-- **Level by level**, what is built is as it was written. -/
theorem Buildable.builtAs {w : WrittenPipe SPL_USE_CGAL} (h : Buildable schemas w) :
    BuiltAs L schemas handle w (builtPipe L schemas handle w) := by
  have hmakes : ∀ {w : WrittenPipe SPL_USE_CGAL}, Buildable schemas w →
      w.Makes (nestedCreator L SPL_USE_CGAL schemas handle) := fun h => h.makes
  induction h with
  | of w pipeOf accepted info nested ih =>
      have hmade := hmakes (Buildable.of w pipeOf accepted info nested)
      obtain ⟨blocks, hvisits, hblocks⟩ := w.exists_visits L hmade
      refine .of w _ blocks pipeOf (fun d => builtPipe L schemas handle (pipeOf d)) hvisits
        (hblocks.imp fun block name hblock d hd hgoes => ?_) info ih
      have hname : d.goesBy ∈ w.run := hgoes ▸ hblock.1
      obtain ⟨b, hb⟩ := Option.isSome_iff_exists.mp (hmade d hd hname)
      refine ⟨b, (hblock.2 d hd hgoes).trans hb, ?_⟩
      rw [← hb, nestedCreator_eq]
      cases hsweeps : d.type.sweeps with
      | false => rw [creator_of_not_sweeps hsweeps, creator_of_not_sweeps hsweeps]
      | true =>
          refine creator_congr ?_ _
          rw [info d hd hname hsweeps,
            WrittenPipe.nestedHandle_of_makes _ (hmakes (nested d hd hname hsweeps))]
          rfl

/-- Only such pipes are built. -/
theorem NestedPipe.buildable {w : WrittenPipe SPL_USE_CGAL} (h : NestedPipe w)
    (hmakes : w.Makes (nestedCreator L SPL_USE_CGAL schemas handle)) : Buildable schemas w := by
  induction h with
  | of w pipeOf info nested ih =>
      refine .of w pipeOf (fun d hd hname hsweeps => ?_) info fun d hd hname hsweeps =>
        ih d hd hname hsweeps ?_
      · have hmade := hmakes d hd hname
        rwa [nestedCreator_eq, creator_of_not_sweeps hsweeps] at hmade
      · have hmade := hmakes d hd hname
        rw [nestedCreator_eq, isSome_creator_of_sweeps hsweeps, info d hd hname hsweeps] at hmade
        exact WrittenPipe.makes_of_nestedHandle hmade

/-- **Pipes in pipes.**  Take a pipe that is written down, with the pipes of its blocks, the pipes of
the blocks of these, and so on.  It is built exactly if no block that is used at any level is refused,
where a block that is not used may be; both builders build the same; and what they build is as it was
written at every level: the links visit one block for each name, in the order of the names, and each is
the block of its declaration, which holds the pipe that was built in this way from its `pipe` entry, if
it has one. -/
theorem nested_pipes_are_built (L : Links ℕ σ) (schemas : Schemas spl ε)
    (handle : Pipe (Block spl) σ → spl.PipeHandle) {w : WrittenPipe SPL_USE_CGAL}
    (h : NestedPipe w) :
    ((∃ pipe, buildPipe L SPL_USE_CGAL (nestedCreator L SPL_USE_CGAL schemas handle) w.toYaml
        = .ok pipe) ↔ Buildable schemas w) ∧
      ∀ pipe, (buildPipe L SPL_USE_CGAL (nestedCreator L SPL_USE_CGAL schemas handle) w.toYaml
          = .ok pipe ↔
        nodeToValue L SPL_USE_CGAL (nestedCreator L SPL_USE_CGAL schemas handle) w.toYaml
          = .ok pipe) ∧
        (buildPipe L SPL_USE_CGAL (nestedCreator L SPL_USE_CGAL schemas handle) w.toYaml = .ok pipe →
          BuiltAs L schemas handle w pipe) := by
  by_cases hmakes : w.Makes (nestedCreator L SPL_USE_CGAL schemas handle)
  · have hbuildable := h.buildable hmakes
    rw [w.buildPipe_eq L hmakes, w.nodeToValue_eq L hmakes]
    refine ⟨⟨fun _ => hbuildable, fun _ => ⟨_, rfl⟩⟩, fun pipe => ⟨?_, fun heq => ?_⟩⟩
    · exact ⟨fun heq => congrArg _ (Except.ok.inj heq), fun heq => congrArg _ (Except.ok.inj heq)⟩
    · rw [← Except.ok.inj heq]
      exact hbuildable.builtAs
  · obtain ⟨⟨text, htext⟩, error, herror⟩ := w.error_of_not_makes L hmakes
    rw [htext, herror]
    refine ⟨⟨fun hpipe => absurd hpipe (by simp), fun hbuildable => absurd hbuildable.makes hmakes⟩,
      fun pipe => ⟨?_, fun heq => absurd heq (by simp)⟩⟩
    exact ⟨fun heq => absurd heq (by simp), fun heq => absurd heq (by simp)⟩

end Written

/-- A structure library that has every part.  Of a nested pipe it keeps the number of blocks. -/
def countingLibrary : SplLibrary := { unitLibrary with PipeHandle := ℕ }

/-- The blocks of a block: itself, and those of its pipe. -/
def Block.size : Block countingLibrary → ℕ
  | .runPotentialParamsQueue _ pipe => Nat.succ pipe
  | .searchStoichiometries _ pipe => Nat.succ pipe
  | _ => 1

theorem ordered_nil : OrderedMap.Ordered ([] : List (Str × Blocks.CountRange)) := List.Pairwise.nil

/-- Schemas that read the text of a `loadStructures`, and defaults. -/
def countingSchemas : Schemas countingLibrary Str
  | .autoScale, _ => ⟨AutoScale.mk (some (1 / 10)), []⟩
  | .generateStructures, _ => ⟨BuildStructures.mk 1 (), []⟩
  | .clone, _ => ⟨Clone.mk 0 none, []⟩
  | .cutAndPaste, _ => ⟨CutAndPaste.mk () true true true none, []⟩
  | .findSymmetry, _ => ⟨FindSymmetryGroup.mk, []⟩
  | .geomOptimise, _ => ⟨GeomOptimise.mk () () false .DROP none, []⟩
  | .keepStableCompositions, _ => ⟨KeepStableCompositions.mk false, []⟩
  | .keepTopN, _ => ⟨KeepTopN.mk 1, []⟩
  | .keepWithinXPercent, _ => ⟨KeepWithinXPercent.mk 5, []⟩
  | .loadStructures, node => ⟨node.text, []⟩
  | .pasteFragment, _ => ⟨PasteFragment.mk (), []⟩
  | .niggliReduce, _ => ⟨NiggliReduce.mk, []⟩
  | .removeDuplicates, _ => ⟨RemoveDuplicates.mk (), []⟩
  | .rescale, _ => ⟨Rescale.mk (3 / 2), []⟩
  | .runPotentialParamsQueue, _ =>
      ⟨RunPotentialParamsQueue.mk "params_queue".toList "params_done".toList [] none, []⟩
  | .searchStoichiometries, _ => ⟨SearchStoichiometries.mk [] ordered_nil false none, []⟩
  | .separateAtoms, _ => ⟨SeparateAtoms.mk none .CONTINUE, []⟩
  | .writeStructures, _ => ⟨WriteStructures.mk "res".toList true, []⟩

/-- Two blocks in a search in a sweep, which has a search beside it that is not used and has no
pipe. -/
theorem nested_pipes_are_built_at :
    let innermost : YamlNode := .map [(.scalar "rescale".toList, .null),
      (.scalar "niggliReduce".toList, .null),
      (.scalar "run".toList, .scalar "niggliReduce | rescale".toList)]
    let inner : YamlNode := .map [(.scalar "run".toList, .scalar "searchStoichiometries".toList),
      (.scalar "searchStoichiometries".toList, .map [(.scalar "pipe".toList, innermost)])]
    let node : YamlNode := .map [(.scalar "searchStoichiometries unused".toList, .null),
      (.scalar "run".toList, .scalar "sweep".toList),
      (.scalar "runPotentialParamsQueue sweep".toList, .map [(.scalar "pipe".toList, inner)])]
    let handle : Pipe (Block countingLibrary) (List (ℕ × ℕ)) → ℕ := fun pipe =>
      (pipe.blocks.map Block.size).sum
    ∃ (w : WrittenPipe false) (pipe : Pipe (Block countingLibrary) (List (ℕ × ℕ))),
      w.toYaml = node ∧
      buildPipe (ofPairs ℕ) false (nestedCreator (ofPairs ℕ) false countingSchemas handle) node
        = .ok pipe ∧
      pipe.blocks.map Block.size = [4] ∧ BuiltAs (ofPairs ℕ) countingSchemas handle w pipe := by
  intro innermost inner node handle
  let w₂ : WrittenPipe false := {
    before := [⟨.rescale, none, .null⟩, ⟨.niggliReduce, none, .null⟩]
    after := []
    run := ["niggliReduce".toList, "rescale".toList]
    registered := by decide
    words := by decide
    no_bars := by decide
    nodup := by decide
    run_nodup := by decide
    run_ne_nil := by decide
    run_declared := by decide }
  let w₁ : WrittenPipe false := {
    before := []
    after := [⟨.searchStoichiometries, none, .map [(.scalar "pipe".toList, innermost)]⟩]
    run := ["searchStoichiometries".toList]
    registered := by decide
    words := by decide
    no_bars := by decide
    nodup := by decide
    run_nodup := by decide
    run_ne_nil := by decide
    run_declared := by decide }
  let w : WrittenPipe false := {
    before := [⟨.searchStoichiometries, some "unused".toList, .null⟩]
    after := [⟨.runPotentialParamsQueue, some "sweep".toList, .map [(.scalar "pipe".toList, inner)]⟩]
    run := ["sweep".toList]
    registered := by decide
    words := by decide
    no_bars := by decide
    nodup := by decide
    run_nodup := by decide
    run_ne_nil := by decide
    run_declared := by decide }
  have hw₂ : NestedPipe w₂ := .of_plain (by decide)
  have hw₁ : NestedPipe w₁ := by
    refine .of w₁ (fun _ => w₂) (fun d hd _ _ => ?_) fun _ _ _ _ => hw₂
    obtain rfl := List.mem_singleton.mp hd
    rfl
  have hw : NestedPipe w := by
    refine .of w (fun _ => w₁) (fun d hd hname _ => ?_) fun _ _ _ _ => hw₁
    rcases List.mem_cons.mp hd with rfl | hd
    · exact absurd hname (by decide)
    · obtain rfl := List.mem_singleton.mp hd
      rfl
  have hfacts : ((buildPipe (ofPairs ℕ) false
      (nestedCreator (ofPairs ℕ) false countingSchemas handle) node).toOption.map fun pipe =>
        pipe.blocks.map Block.size) = some [4] := by
    decide +kernel
  obtain ⟨pipe, hpipe, hsize⟩ := Option.map_eq_some_iff.mp hfacts
  have hbuilt : buildPipe (ofPairs ℕ) false
      (nestedCreator (ofPairs ℕ) false countingSchemas handle) w.toYaml = .ok pipe := by
    cases hresult : buildPipe (ofPairs ℕ) false
        (nestedCreator (ofPairs ℕ) false countingSchemas handle) node with
    | error text => exact absurd hpipe (by simp [hresult, Except.toOption])
    | ok pipe' =>
        rw [hresult] at hpipe
        exact hresult.trans (congrArg _ (Option.some.inj hpipe))
  exact ⟨w, pipe, rfl, hbuilt, hsize,
    ((nested_pipes_are_built (ofPairs ℕ) countingSchemas handle hw).2 pipe).2 hbuilt⟩

end Build

end StructurePipe
