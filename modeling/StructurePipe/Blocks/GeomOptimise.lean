import StructurePipe.Blocks.PerAtomValues
import StructurePipe.Build.BlockFactory
import StructurePipe.Common.GlobalParameters
import StructurePipe.Utility.DataTableRows

/-!
# Geometry optimisation

`GeomOptimise` hands each structure to an optimiser and sends it on, or drops it if the optimiser has
failed and the settings say so.  If the potential of the optimiser takes parameters, it is given those
of a tag when the pipeline is initialised, and every structure is marked with the ones it has.  With
`writeSummary` the block keeps a table of what it sends on, which the table support writes to a file
when the pipe has finished.

The block is driven by the engine: the pipeline is initialised, the state of the engine changes,
structures come in.  The optimiser is any function of the state of its potential and the structure.

* `outcomes` — what the optimiser makes of the structures of each run;
* `run_inputs` — **the inputs of a run, in terms of the table support alone;**
* `runs_summarise` — what is sent, dropped and written in any number of runs.
-/

namespace StructurePipe.Blocks

open Utility StepRuns Common
open IeeeDivision (Number)

/-! ### The block -/

/-- A structure after `optimise`, with the outcome. -/
structure Optimised (κ π : Type*) where
  structure_ : TableStructure κ π
  isSuccess : Bool
  numIters : Option ℕ

/-- An optimiser with a potential in state `ψ`, and the potential as a parameterisable object, if there
is one. -/
structure GeomOptimiser (κ π ψ : Type*) where
  parameterisable : Option (IParameterisable ψ)
  optimise : ψ → TableStructure κ π → Optimised κ π × ψ

/-- The block, with the stem of its output file, and the order in which the arguments of an insert are
evaluated. -/
structure GeomOptimise (κ π ψ : Type*) where
  mySettings : Build.GeomOptimiseSettings
  myOptimiser : GeomOptimiser κ π ψ
  outputFileStem : Path
  toString : Number → Str
  ENERGY_INTERNAL : π
  order : EvalOrder

/-- What changes while the block is used.  `registered` says whether the table support listens to the
engine.  Nothing is ever assigned to `myPotentialParams`. -/
structure GeomOptimising (κ π ψ : Type*) where
  potential : ψ
  myTableSupport : DataTableSupport
  registered : Bool := false
  myPotentialParams : Parameters := []
  sent : List (TableStructure κ π) := []
  dropped : List (TableStructure κ π) := []

/-- What the engine does with the block. -/
inductive GeomOptimiseEvent (κ π : Type*) where
  | pipelineInitialising (globalData : GlobalParameters)
  | stateChanged (newState : PipelineState)
  | input (structure_ : TableStructure κ π)

namespace GeomOptimise

variable {κ π ψ : Type*} (b : GeomOptimise κ π ψ)

def summaryFile : Path := b.outputFileStem ++ ".geomopt".toList

/-- The potential takes the parameters of the tag, if it takes any and there is a tag. -/
def parameterise (globalData : GlobalParameters) (potential : ψ) : ψ :=
  match b.myOptimiser.parameterisable with
  | none => potential
  | some parameterisable =>
      match b.mySettings.paramsTag with
      | none => potential
      | some paramsTag =>
          (globalData.updateParameterisable paramsTag parameterisable potential).2

/-- The note that is added to the table. -/
def paramsNote (potential : ψ) (myPotentialParams : Parameters) : Option Str :=
  match b.myOptimiser.parameterisable with
  | none => none
  | some parameterisable =>
      if b.mySettings.writeSummary && !myPotentialParams.isEmpty then
        some ("params: ".toList ++ [' '].intercalate (parameterisable.getParams potential))
      else none

/-- The engine is not running yet, so a new filename is only stored. -/
def pipelineInitialising (globalData : GlobalParameters) (s : GeomOptimising κ π ψ) :
    GeomOptimising κ π ψ :=
  let s := if b.mySettings.writeSummary then
      { s with
        myTableSupport := { s.myTableSupport with myFilename := b.summaryFile }
        registered := true }
    else s
  let s := { s with potential := b.parameterise globalData s.potential }
  match b.paramsNote s.potential s.myPotentialParams with
  | none => s
  | some note =>
      { s with myTableSupport :=
          { s.myTableSupport with myTable := s.myTableSupport.myTable.addTableNote note } }

/-- The structure is marked with the parameters of the potential. -/
def mark (potential : ψ) (structure_ : TableStructure κ π) : TableStructure κ π :=
  match b.myOptimiser.parameterisable with
  | none => structure_
  | some parameterisable =>
      { structure_ with potentialParams := some (parameterisable.getParams potential) }

/-- The structure is sent on, and not dropped. -/
def keeps (o : Optimised κ π) : Bool :=
  o.isSuccess || b.mySettings.failAction == Build.FailAction.CONTINUE

variable [DecidableEq π]

/-- The row of a structure in the table. -/
def summaryRow (o : Optimised κ π) : Row :=
  (o.structure_.name, updateTable b.toString b.ENERGY_INTERNAL o.structure_ o.numIters)

/-- The inserts of a row, as events of the table support. -/
def insertEvents (inserts : List Insertion) : List SupportEvent :=
  inserts.map fun i => .insert i.order i.key i.colName i.value

/-- `in`. -/
def input (s : GeomOptimising κ π ψ) (structure_ : TableStructure κ π) :
    Option (GeomOptimising κ π ψ) :=
  let (o, potential) := b.myOptimiser.optimise s.potential (b.mark s.potential structure_)
  if b.keeps o then
    (run DataTableSupport.step s.myTableSupport
      (if b.mySettings.writeSummary then insertEvents (rowInserts b.order [b.summaryRow o])
        else [])).map fun support =>
      { s with
        potential := potential
        myTableSupport := support
        sent := s.sent ++ [o.structure_] }
  else some { s with potential := potential, dropped := s.dropped ++ [o.structure_] }

def step (s : GeomOptimising κ π ψ) : GeomOptimiseEvent κ π → Option (GeomOptimising κ π ψ)
  | .pipelineInitialising globalData => some (b.pipelineInitialising globalData s)
  | .stateChanged newState =>
      if s.registered then
        (s.myTableSupport.notify newState).map fun support => { s with myTableSupport := support }
      else some s
  | .input structure_ => b.input s structure_

/-- A new block; the file is as it was found. -/
def begin (potential : ψ) (disk : Disk) : GeomOptimising κ π ψ where
  potential := potential
  myTableSupport := { myFilename := [], disk := disk }

/-- The events of a run with these structures. -/
def runEvents (r : GlobalParameters × List (TableStructure κ π)) : List (GeomOptimiseEvent κ π) :=
  [.pipelineInitialising r.1, .stateChanged .running] ++ r.2.map .input ++ [.stateChanged .finished]

/-! ### What the optimiser makes of the structures -/

/-- The structures of one run. -/
def optimiseAll (potential : ψ) : List (TableStructure κ π) → List (Optimised κ π) × ψ
  | [] => ([], potential)
  | structure_ :: rest =>
      let (o, potential) := b.myOptimiser.optimise potential (b.mark potential structure_)
      let (os, potential) := optimiseAll potential rest
      (o :: os, potential)

/-- Any number of runs, each with the global data that it finds. -/
def outcomes (potential : ψ) : List (GlobalParameters × List (TableStructure κ π)) →
    List (List (Optimised κ π)) × ψ
  | [] => ([], potential)
  | r :: rest =>
      let (os, potential) := b.optimiseAll (b.parameterise r.1 potential) r.2
      let (runs, potential) := outcomes potential rest
      (os :: runs, potential)

/-- The structures that are sent on. -/
def sentOf (os : List (Optimised κ π)) : List (TableStructure κ π) :=
  (os.filter b.keeps).map Optimised.structure_

def droppedOf (os : List (Optimised κ π)) : List (TableStructure κ π) :=
  (os.filter fun o => !b.keeps o).map Optimised.structure_

/-- The rows of those that are sent on and have an energy. -/
def summaryRows (os : List (Optimised κ π)) : List Row :=
  ((os.filter b.keeps).map b.summaryRow).filter fun r => !r.2.isEmpty

/-- A support that listens takes the step of the engine. -/
theorem step_stateChanged {s : GeomOptimising κ π ψ} (hregistered : s.registered = true)
    {newState : PipelineState} {support : DataTableSupport}
    (h : s.myTableSupport.step (.stateChanged newState) = some support) :
    b.step s (.stateChanged newState) = some { s with myTableSupport := support } := by
  rw [step, if_pos hregistered]
  exact congrArg (Option.map _) h

/-! ### The inputs of a run -/

theorem insertEvents_append (inserts later : List Insertion) :
    insertEvents (inserts ++ later) = insertEvents inserts ++ insertEvents later := List.map_append

/-- **The inputs of a run:** the table support is given the rows, whatever it does with them. -/
theorem run_inputs (hsummary : b.mySettings.writeSummary = true) (s : GeomOptimising κ π ψ)
    (structures : List (TableStructure κ π)) :
    run b.step s (structures.map .input)
      = (run DataTableSupport.step s.myTableSupport (insertEvents (rowInserts b.order
          (b.summaryRows (b.optimiseAll s.potential structures).1)))).map fun support =>
        { s with
          potential := (b.optimiseAll s.potential structures).2
          myTableSupport := support
          sent := s.sent ++ b.sentOf (b.optimiseAll s.potential structures).1
          dropped := s.dropped ++ b.droppedOf (b.optimiseAll s.potential structures).1 } := by
  rw [summaryRows, rowInserts_filter]
  induction structures generalizing s with
  | nil => simp [optimiseAll, rowInserts, insertEvents, sentOf, droppedOf]
  | cons structure_ rest ih =>
      rw [List.map_cons, run_cons]
      show (b.input s structure_).bind _ = _
      rw [input, optimiseAll]
      generalize b.myOptimiser.optimise s.potential (b.mark s.potential structure_) = result
      obtain ⟨o, potential⟩ := result
      simp only [hsummary, if_true]
      by_cases hkeeps : b.keeps o = true
      · have hrows : rowInserts b.order
            ((b.optimiseAll potential rest).1.filter b.keeps |>.map b.summaryRow |>.cons
              (b.summaryRow o))
            = rowInserts b.order [b.summaryRow o] ++ rowInserts b.order
                (((b.optimiseAll potential rest).1.filter b.keeps).map b.summaryRow) := by
          simp [rowInserts]
        rw [if_pos hkeeps, List.filter_cons_of_pos hkeeps, List.map_cons, hrows,
          insertEvents_append, run_append, Option.bind_map, Option.map_bind]
        refine congrArg _ (funext fun support => ?_)
        simp only [Function.comp_apply, ih]
        simp [sentOf, droppedOf, hkeeps]
      · rw [if_neg hkeeps, List.filter_cons_of_neg hkeeps, Option.bind_some, ih]
        simp [sentOf, droppedOf, hkeeps]

/-! ### The table of a run -/

/-- The columns a row can have. -/
def summaryColumns : List Str := ["energy".toList, "energy/atom".toList, "iters".toList]

/-- A row has the first few of the columns. -/
theorem summaryRow_prefix (o : Optimised κ π) :
    (b.summaryRow o).2.map Prod.fst <+: summaryColumns := by
  rw [summaryRow, updateTable.eq_def]
  cases o.structure_.properties.lookup b.ENERGY_INTERNAL with
  | none => exact List.nil_prefix
  | some energy =>
      cases o.numIters with
      | none => exact ⟨["iters".toList], rfl⟩
      | some numIters => exact List.prefix_rfl

/-- Structures with different names have rows of their own. -/
theorem rowsUnder_summaryRows {os : List (Optimised κ π)}
    (hnames : ((b.summaryRows os).map Prod.fst).Nodup) :
    RowsUnder summaryColumns (b.summaryRows os) where
  names_nodup := by decide
  keys_nodup := hnames
  cells := by
    intro r hr
    obtain ⟨hmem, hne⟩ := List.mem_filter.mp hr
    obtain ⟨o, _, rfl⟩ := List.mem_map.mp hmem
    exact ⟨by simpa using hne, b.summaryRow_prefix o⟩

/-- The table of a run: the columns that are used, then a line for each structure that is sent on and
has an energy. -/
def summaryText (os : List (Optimised κ π)) : Str :=
  ['#', ' '] ++ join (KEY_COLUMN_NAME :: summaryColumns.take (cellsMax (b.summaryRows os))) [' ']
    ++ (b.summaryRows os).flatMap fun r => '\n' :: join (r.1 :: r.2.map Prod.snd) [' ']

/-! ### Runs -/

/-- Between two runs, or before the first; `length` is the put position of the last writer. -/
structure AtRest (length : Option ℕ) (s : GeomOptimising κ π ψ) : Prop where
  params : s.myPotentialParams = []
  idle : DataTableSupport.Idle length { s.myTableSupport with myFilename := b.summaryFile }

omit [DecidableEq π] in
theorem summaryFile_ne_nil : b.summaryFile ≠ [] := by simp [summaryFile]

omit [DecidableEq π] in
theorem atRest_begin (potential : ψ) (disk : Disk) : b.AtRest none (begin potential disk) :=
  ⟨rfl, ⟨⟨b.summaryFile_ne_nil, rfl, rfl⟩, rfl, fun _ hw => absurd hw (by simp [begin]), rfl⟩⟩

variable {b}

/-- **One run.** -/
theorem AtRest.run (hsummary : b.mySettings.writeSummary = true) {length : Option ℕ}
    {s : GeomOptimising κ π ψ} (h : b.AtRest length s)
    (r : GlobalParameters × List (TableStructure κ π)) {os : List (Optimised κ π)} {potential : ψ}
    (hos : b.optimiseAll (b.parameterise r.1 s.potential) r.2 = (os, potential))
    (hnames : ((b.summaryRows os).map Prod.fst).Nodup) :
    ∃ s', StepRuns.run b.step s (runEvents r) = some s' ∧
      b.AtRest (some (b.summaryText os).length) s' ∧ s'.potential = potential ∧
      s'.sent = s.sent ++ b.sentOf os ∧ s'.dropped = s.dropped ++ b.droppedOf os ∧
      s'.myTableSupport.file = some (b.summaryText os
        ++ (leftover length).drop (b.summaryText os).length) := by
  have hrows := b.rowsUnder_summaryRows hnames
  have htext : (tableOf (rowInserts b.order (b.summaryRows os))).text [' '] = b.summaryText os :=
    hrows.text_eq b.order [' ']
  obtain ⟨s₁, s₂, w, hs₁, _, hs₂, hw, _, hdisk, hidle⟩ := h.idle.run (hrows.apart.fresh b.order)
  rw [htext] at hdisk hidle
  -- the table support takes the steps of the lemma about it
  obtain ⟨support, hrunning, hinserts⟩ := Option.bind_eq_some_iff.mp hs₁
  have hnote : ∀ p, b.paramsNote p s.myPotentialParams = none := by
    intro p
    rw [paramsNote, h.params]
    cases b.myOptimiser.parameterisable <;> simp
  have hinit : b.step s (.pipelineInitialising r.1) = some { s with
      potential := b.parameterise r.1 s.potential
      myTableSupport := { s.myTableSupport with myFilename := b.summaryFile }
      registered := true } := by
    simp only [step, pipelineInitialising, hsummary, if_true, hnote]
  have hstart : b.step { s with
      potential := b.parameterise r.1 s.potential
      myTableSupport := { s.myTableSupport with myFilename := b.summaryFile }
      registered := true } (.stateChanged .running) = some { s with
        potential := b.parameterise r.1 s.potential
        myTableSupport := support
        registered := true } := b.step_stateChanged rfl hrunning
  have hinputs : StepRuns.run b.step { s with
      potential := b.parameterise r.1 s.potential
      myTableSupport := support
      registered := true } (r.2.map .input) = some { s with
        potential := potential
        myTableSupport := s₁
        registered := true
        sent := s.sent ++ b.sentOf os
        dropped := s.dropped ++ b.droppedOf os } := by
    rw [run_inputs _ hsummary]
    simp only [hos, insertEvents, hinserts, Option.map_some]
  refine ⟨{ s with
      potential := potential
      myTableSupport := s₂
      registered := true
      sent := s.sent ++ b.sentOf os
      dropped := s.dropped ++ b.droppedOf os }, ?_, ⟨h.params, ?_⟩, rfl, rfl, rfl, ?_⟩
  · rw [runEvents, run_append, run_append, run_cons, hinit, Option.bind_some, run_cons, hstart,
      Option.bind_some, run_nil, Option.bind_some, hinputs, Option.bind_some, run_cons,
      b.step_stateChanged rfl hs₂, Option.bind_some, run_nil]
  · exact ⟨⟨b.summaryFile_ne_nil, hidle.clears, hidle.openable⟩, hidle.table, hidle.live,
      hidle.length_eq⟩
  · simp only [DataTableSupport.file, hw, hdisk]

omit [DecidableEq π] in
theorem outcomes_cons {potential p : ψ} {r : GlobalParameters × List (TableStructure κ π)}
    {os : List (Optimised κ π)} (hos : b.optimiseAll (b.parameterise r.1 potential) r.2 = (os, p))
    (runs : List (GlobalParameters × List (TableStructure κ π))) :
    b.outcomes potential (r :: runs) = (os :: (b.outcomes p runs).1, (b.outcomes p runs).2) := by
  simp only [outcomes, hos]

omit [DecidableEq π] in
/-- The last run comes after the others. -/
theorem outcomes_concat (potential : ψ) (runs : List (GlobalParameters × List (TableStructure κ π)))
    (r : GlobalParameters × List (TableStructure κ π)) :
    (b.outcomes potential (runs ++ [r])).1 = (b.outcomes potential runs).1
      ++ [(b.optimiseAll (b.parameterise r.1 (b.outcomes potential runs).2) r.2).1] := by
  induction runs generalizing potential with
  | nil => rfl
  | cons r' runs ih =>
      rw [List.cons_append, outcomes_cons rfl, outcomes_cons rfl, ih]
      rfl

/-- **Any number of runs.** -/
theorem AtRest.runs (hsummary : b.mySettings.writeSummary = true) {length : Option ℕ}
    {s : GeomOptimising κ π ψ} (h : b.AtRest length s)
    (runs : List (GlobalParameters × List (TableStructure κ π)))
    (hnames : ∀ os ∈ (b.outcomes s.potential runs).1, ((b.summaryRows os).map Prod.fst).Nodup) :
    ∃ s', StepRuns.run b.step s (runs.flatMap runEvents) = some s' ∧
      b.AtRest (((b.outcomes s.potential runs).1.getLast?.map fun os =>
        (b.summaryText os).length).or length) s' ∧
      s'.potential = (b.outcomes s.potential runs).2 ∧
      s'.sent = s.sent ++ (b.outcomes s.potential runs).1.flatMap b.sentOf ∧
      s'.dropped = s.dropped ++ (b.outcomes s.potential runs).1.flatMap b.droppedOf := by
  induction runs generalizing s length with
  | nil => exact ⟨s, rfl, h, rfl, by simp [outcomes], by simp [outcomes]⟩
  | cons r runs ih =>
      cases hos : b.optimiseAll (b.parameterise r.1 s.potential) r.2 with
      | mk os potential =>
          rw [outcomes_cons hos] at hnames ⊢
          obtain ⟨s₁, hs₁, hrest₁, hpotential₁, hsent₁, hdropped₁, _⟩ :=
            h.run hsummary r hos (hnames os List.mem_cons_self)
          rw [← hpotential₁] at hnames
          obtain ⟨s₂, hs₂, hrest₂, hpotential₂, hsent₂, hdropped₂⟩ :=
            ih hrest₁ fun os hos => hnames os (List.mem_cons_of_mem _ hos)
          rw [hpotential₁] at hrest₂ hpotential₂ hsent₂ hdropped₂
          refine ⟨s₂, ?_, ?_, hpotential₂, ?_, ?_⟩
          · rw [List.flatMap_cons, run_append, hs₁]
            exact hs₂
          · cases hlast : (b.outcomes potential runs).1.getLast? with
            | none =>
                rw [hlast] at hrest₂
                rw [List.getLast?_cons, hlast]
                exact hrest₂
            | some last =>
                rw [hlast] at hrest₂
                rw [List.getLast?_cons, hlast]
                exact hrest₂
          · rw [hsent₂, hsent₁, List.flatMap_cons, List.append_assoc]
          · rw [hdropped₂, hdropped₁, List.flatMap_cons, List.append_assoc]

end GeomOptimise

open GeomOptimise

/-- **What a block with a summary file does in any number of runs**, each with the global data that it
finds and with any structures, as long as those that get a row in one run have different names.
Nothing goes wrong; the structures that are sent on and those that are dropped are the ones that the
optimiser made of all structures, each in its order, and none is dropped if the block is to continue
after a failure.  After the last run its file is a table with a line for each structure of this run
that was sent on and has an energy, with the columns that are used, if the table of the run before was
shorter. -/
theorem runs_summarise {κ π ψ : Type*} [DecidableEq π] (b : GeomOptimise κ π ψ)
    (hsummary : b.mySettings.writeSummary = true) (potential : ψ) (disk : Disk)
    (runs : List (GlobalParameters × List (TableStructure κ π)))
    (last : GlobalParameters × List (TableStructure κ π))
    (hnames : ∀ os ∈ (b.outcomes potential (runs ++ [last])).1,
      ((b.summaryRows os).map Prod.fst).Nodup) :
    ∃ s, run b.step (begin potential disk) ((runs ++ [last]).flatMap runEvents) = some s ∧
      s.sent = (b.outcomes potential (runs ++ [last])).1.flatMap b.sentOf ∧
      s.dropped = (b.outcomes potential (runs ++ [last])).1.flatMap b.droppedOf ∧
      (b.mySettings.failAction = .CONTINUE → s.dropped = []) ∧
      ∀ os ∈ (b.outcomes potential (runs ++ [last])).1.getLast?,
        (∀ previous ∈ (b.outcomes potential runs).1.getLast?,
          (b.summaryText previous).length < (b.summaryText os).length) →
        s.myTableSupport.file = some (b.summaryText os) := by
  rw [outcomes_concat] at hnames ⊢
  obtain ⟨s₀, hs₀, hrest₀, hpotential₀, hsent₀, hdropped₀⟩ := (b.atRest_begin potential disk).runs
    hsummary runs fun os hos => hnames os (List.mem_append_left _ hos)
  have hpotential : s₀.potential = (b.outcomes potential runs).2 := hpotential₀
  rw [← hpotential] at hnames ⊢
  cases hos : b.optimiseAll (b.parameterise last.1 s₀.potential) last.2 with
  | mk os p =>
      rw [hos] at hnames
      obtain ⟨s₁, hs₁, _, _, hsent₁, hdropped₁, hfile⟩ :=
        hrest₀.run hsummary last hos (hnames os (by simp))
      have hdropped : s₁.dropped
          = ((b.outcomes potential runs).1 ++ [os]).flatMap b.droppedOf := by
        rw [hdropped₁, hdropped₀, List.flatMap_append, List.flatMap_singleton]
        rfl
      refine ⟨s₁, ?_, ?_, hdropped, fun hcontinue => ?_, fun os' hos' hprevious => ?_⟩
      · rw [List.flatMap_append, run_append, hs₀, Option.bind_some, List.flatMap_singleton]
        exact hs₁
      · rw [hsent₁, hsent₀, List.flatMap_append, List.flatMap_singleton]
        rfl
      · rw [hdropped, List.flatMap_eq_nil_iff]
        intro os _
        simp [droppedOf, keeps, hcontinue]
      · rw [List.getLast?_concat] at hos'
        obtain rfl := Option.some.inj hos'
        have hleft : (leftover (((b.outcomes potential runs).1.getLast?.map fun os =>
            (b.summaryText os).length).or none)).drop (b.summaryText os).length = [] := by
          rw [drop_leftover_eq_nil_iff, Option.or_none]
          intro m hm
          obtain ⟨previous, hlast, rfl⟩ := Option.map_eq_some_iff.mp hm
          exact hprevious previous hlast
        rw [hfile, show (begin potential disk : GeomOptimising κ π ψ).potential = potential from rfl,
          hleft, List.append_nil]

/-- An optimiser that fails for structures without atoms, and gives the others an energy. -/
def fourSteps : GeomOptimise Unit Unit Parameters where
  mySettings := ⟨true, .DROP, some ['t']⟩
  myOptimiser :=
    { parameterisable := some ⟨fun params _ => (true, params), id⟩
      optimise := fun params x => (⟨{ x with properties := [((), -1)] }, x.numAtoms ≠ 0, some 4⟩, params) }
  outputFileStem := ['s']
  toString := fun _ => ['e']
  ENERGY_INTERNAL := ()
  order := .rowFirst

/-- Two structures, of which the second has no atoms, and parameters for the tag. -/
def twoStructures : GlobalParameters × List (TableStructure Unit Unit) :=
  (⟨[(['t'], [['5']])]⟩,
    [⟨⟨(), 2, []⟩, ['a'], none, none, none⟩, ⟨⟨(), 0, []⟩, ['b'], none, none, none⟩])

/-- A run without structures, then one with two. -/
theorem runs_summarise_at :
    ∃ s, run fourSteps.step (begin [] none)
        (([((⟨[]⟩ : GlobalParameters), [])] ++ [twoStructures]).flatMap runEvents) = some s ∧
      s.sent.map (fun x => (x.name, x.potentialParams)) = [(['a'], some [['5']])] ∧
      s.dropped.map TableStructure.name = [['b']] ∧
      s.myTableSupport.file = some "# [key] energy energy/atom iters\na e e 4".toList := by
  obtain ⟨s, hs, hsent, hdropped, _, hfile⟩ := runs_summarise fourSteps rfl [] none [(⟨[]⟩, [])]
    twoStructures (by decide +kernel)
  refine ⟨s, hs, ?_, ?_, ?_⟩
  · rw [hsent]
    decide +kernel
  · rw [hdropped]
    decide +kernel
  · refine (hfile _ rfl ?_).trans ?_
    · decide +kernel
    · decide +kernel

end StructurePipe.Blocks
