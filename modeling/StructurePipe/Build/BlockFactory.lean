import StructurePipe.Common.Paths
import StructurePipe.Blocks.SearchStoichiometries
import StructurePipe.Build.BlockLoader

/-!
# The block factory

`BlockFactory::createBlock` has one overload for each block type: it takes the options that the schema
of the type reads from a YAML node, sets a block handle and returns whether it succeeded.  Four of
the overloads ask a factory of the structure library for a part, two need a pipe of their own.

A created block is described by what its constructor is given.  The structure library and the schema
library are parameters; a schema fills in options, whatever they are worth, and logs errors.

* `createBlock_blockOut` — which options give a block;
* `createBlock_returned_iff` — **the result says whether the handle is set, for every block type but
  one.**
-/

namespace StructurePipe.Build

/-- What the factory uses of the structure library. -/
structure SplLibrary where
  StructureGeneratorOptions : Type
  StructureGenerator : Type
  createStructureGenerator : StructureGeneratorOptions → Option StructureGenerator
  GenShapeOptions : Type
  GenShape : Type
  /-- The shape, or no success. -/
  createShape : GenShapeOptions → Option GenShape
  OptimiserOptions : Type
  GeomOptimiser : Type
  createGeometryOptimiser : OptimiserOptions → Option GeomOptimiser
  OptimiserSettings : Type
  OptimisationSettings : Type
  createOptimisationSettings : OptimiserSettings → OptimisationSettings
  ComparatorOptions : Type
  StructureComparator : Type
  createStructureComparator : ComparatorOptions → Option StructureComparator
  PairDistances : Type
  ResourceLocator : Type
  /-- The first block of a nested pipe. -/
  PipeHandle : Type

inductive FailAction where
  | DROP
  | CONTINUE
deriving DecidableEq, Repr

/-! ### Options -/

section Options

variable (spl : SplLibrary)

structure AutoScale where
  packingFactor : Option ℚ

structure BuildStructures where
  num : ℤ
  generator : spl.StructureGeneratorOptions

structure Clone where
  times : ℤ
  giveUniqueNames : Option Bool

structure CutAndPaste where
  genShape : spl.GenShapeOptions
  paste : Bool
  separate : Bool
  fixUntouched : Bool
  pairDistances : Option spl.PairDistances

structure FindSymmetryGroup where

structure GeomOptimise where
  settings : spl.OptimiserSettings
  optimiser : spl.OptimiserOptions
  writeSummary : Bool
  failAction : FailAction
  paramsTag : Option Str

structure KeepStableCompositions where
  writeHull : Bool

structure KeepTopN where
  num : ℤ

structure KeepWithinXPercent where
  percent : ℚ

structure NiggliReduce where

structure PasteFragment where
  fragment : spl.ResourceLocator

structure RemoveDuplicates where
  comparator : spl.ComparatorOptions

structure Rescale where
  scaleFactor : ℚ

structure RunPotentialParamsQueue where
  paramsQueueFile : Str
  paramsDoneFile : Str
  tag : Str
  pipe : Option spl.PipeHandle

structure SearchStoichiometries where
  ranges : List (Str × Blocks.CountRange)
  ordered : OrderedMap.Ordered ranges
  useSeparateDirs : Bool
  pipe : Option spl.PipeHandle

structure SeparateAtoms where
  pairDistances : Option spl.PairDistances
  failAction : FailAction

structure WriteStructures where
  format : Str
  multiWrite : Bool

end Options

/-! ### Blocks -/

structure CutAndPasteSettings where
  paste : Bool
  separate : Bool
  fixUntouched : Bool

structure GeomOptimiseSettings where
  writeSummary : Bool
  failAction : FailAction
  paramsTag : Option Str

structure ParamsQueueSettings where
  tag : Str
  queueFile : Path
  doneFile : Path

/-- A block by what it was made with. -/
inductive Block (spl : SplLibrary) where
  | autoScale (packingFactor : Option ℚ)
  | buildStructures (num : ℤ) (generator : spl.StructureGenerator)
  | clone (times : ℤ) (giveUniqueNames : Option Bool)
  | cutAndPaste (genShape : spl.GenShape) (settings : CutAndPasteSettings)
      (pairDistances : Option spl.PairDistances)
  | findSymmetryGroup
  | geomOptimise (optimiser : spl.GeomOptimiser) (optParams : spl.OptimisationSettings)
      (settings : GeomOptimiseSettings)
  | keepStableCompositions (writeHull : Bool)
  | keepTopN (keepTopN : ℕ)
  | keepWithinXPercent (percent : ℚ)
  | loadStructures (seedStructures : Str)
  | niggliReduce
  | pasteFragment (fragment : spl.ResourceLocator)
  | removeDuplicates (comparator : spl.StructureComparator)
  | rescale (scaleFactor : ℚ)
  | runPotentialParamsQueue (settings : ParamsQueueSettings) (sweepPipeline : spl.PipeHandle)
  | searchStoichiometries (options : Blocks.SearchOptions) (subpipe : spl.PipeHandle)
  | separateAtoms (pairDistances : Option spl.PairDistances)
  | writeStructures (fileType : Str) (writeMulti : Bool)

/-- What `createBlock` returns, and the handle after it. -/
structure Created (spl : SplLibrary) where
  returned : Bool
  blockOut : Option (Block spl)

variable {spl : SplLibrary}

namespace Created

/-- `blockOut->reset(..); return true;` -/
def block (b : Block spl) : Created spl := ⟨true, some b⟩

/-- `return false;` -/
def failed : Created spl := ⟨false, none⟩

/-- The part a block needs, if there is one. -/
def withPart {α : Type} (part : Option α) (b : α → Block spl) : Created spl :=
  match part with
  | none => failed
  | some part => block (b part)

/-- The result is `true` exactly if the handle is set. -/
def Honest (c : Created spl) : Prop := c.returned = true ↔ c.blockOut.isSome = true

theorem honest_block (b : Block spl) : (block b).Honest := Iff.rfl

theorem honest_withPart {α : Type} (part : Option α) (b : α → Block spl) :
    (withPart part b).Honest := by
  cases part with
  | none => exact Iff.rfl
  | some part => exact Iff.rfl

theorem blockOut_withPart {α : Type} (part : Option α) (b : α → Block spl) :
    (withPart part b).blockOut.isSome = part.isSome := by
  cases part with
  | none => rfl
  | some part => rfl

end Created

/-! ### The overloads -/

section Overloads

open Created

def AutoScale.createBlock (options : AutoScale) : Created spl :=
  block (.autoScale options.packingFactor)

def BuildStructures.createBlock (options : BuildStructures spl) : Created spl :=
  withPart (spl.createStructureGenerator options.generator) fun generator =>
    .buildStructures options.num generator

def Clone.createBlock (options : Clone) : Created spl :=
  block (.clone options.times options.giveUniqueNames)

def CutAndPaste.createBlock (options : CutAndPaste spl) : Created spl :=
  withPart (spl.createShape options.genShape) fun genShape =>
    .cutAndPaste genShape ⟨options.paste, options.separate, options.fixUntouched⟩
      options.pairDistances

def FindSymmetryGroup.createBlock (_options : FindSymmetryGroup) : Created spl :=
  block .findSymmetryGroup

def GeomOptimise.createBlock (options : GeomOptimise spl) : Created spl :=
  withPart (spl.createGeometryOptimiser options.optimiser) fun optimiser =>
    .geomOptimise optimiser (spl.createOptimisationSettings options.settings)
      ⟨options.writeSummary, options.failAction, options.paramsTag⟩

def KeepStableCompositions.createBlock (options : KeepStableCompositions) : Created spl :=
  block (.keepStableCompositions options.writeHull)

/-- The number of structures is an `int` here and a `size_t` in the block. -/
def KeepTopN.createBlock (options : KeepTopN) : Created spl :=
  block (.keepTopN (options.num % 2 ^ 64).toNat)

/-- The handle is set and the result is `false`. -/
def KeepWithinXPercent.createBlock (options : KeepWithinXPercent) : Created spl :=
  ⟨false, some (.keepWithinXPercent options.percent)⟩

/-- The overload for `loadStructures`, whose options are a text. -/
def LoadStructures.createBlock (toLoad : Str) : Created spl := block (.loadStructures toLoad)

def NiggliReduce.createBlock (_options : NiggliReduce) : Created spl := block .niggliReduce

def PasteFragment.createBlock (options : PasteFragment spl) : Created spl :=
  block (.pasteFragment options.fragment)

def RemoveDuplicates.createBlock (options : RemoveDuplicates spl) : Created spl :=
  withPart (spl.createStructureComparator options.comparator) .removeDuplicates

def Rescale.createBlock (options : Rescale) : Created spl := block (.rescale options.scaleFactor)

def RunPotentialParamsQueue.createBlock (options : RunPotentialParamsQueue spl) : Created spl :=
  withPart options.pipe fun pipe =>
    .runPotentialParamsQueue ⟨options.tag, options.paramsQueueFile, options.paramsDoneFile⟩ pipe

def SearchStoichiometries.createBlock (options : SearchStoichiometries spl) : Created spl :=
  withPart options.pipe fun pipe =>
    .searchStoichiometries
      { atomRanges := options.ranges
        useSeparateDirectories := options.useSeparateDirs
        ordered := options.ordered } pipe

/-- The fail action is not passed on. -/
def SeparateAtoms.createBlock (options : SeparateAtoms spl) : Created spl :=
  block (.separateAtoms options.pairDistances)

def WriteStructures.createBlock (options : WriteStructures) : Created spl :=
  block (.writeStructures options.format options.multiWrite)

end Overloads

/-! ### Block types -/

inductive BlockType where
  | autoScale
  | generateStructures
  | clone
  | cutAndPaste
  | findSymmetry
  | geomOptimise
  | keepStableCompositions
  | keepTopN
  | keepWithinXPercent
  | loadStructures
  | pasteFragment
  | niggliReduce
  | removeDuplicates
  | rescale
  | runPotentialParamsQueue
  | searchStoichiometries
  | separateAtoms
  | writeStructures
deriving DecidableEq, Repr

namespace BlockType

/-- The block types, in the order in which they are registered. -/
def registered (SPL_USE_CGAL : Bool) : List BlockType :=
  [autoScale, generateStructures, clone, cutAndPaste, findSymmetry, geomOptimise] ++
  (if SPL_USE_CGAL then [keepStableCompositions] else []) ++
  [keepTopN, keepWithinXPercent, loadStructures, pasteFragment, niggliReduce, removeDuplicates,
    rescale, runPotentialParamsQueue, searchStoichiometries, separateAtoms, writeStructures]

def name : BlockType → Str
  | autoScale => "autoScale".toList
  | generateStructures => "generateStructures".toList
  | clone => "clone".toList
  | cutAndPaste => "cutAndPaste".toList
  | findSymmetry => "findSymmetry".toList
  | geomOptimise => "geomOptimise".toList
  | keepStableCompositions => "keepStableCompositions".toList
  | keepTopN => "keepTopN".toList
  | keepWithinXPercent => "keepWithinXPercent".toList
  | loadStructures => "loadStructures".toList
  | pasteFragment => "pasteFragment".toList
  | niggliReduce => "niggliReduce".toList
  | removeDuplicates => "removeDuplicates".toList
  | rescale => "rescale".toList
  | runPotentialParamsQueue => "runPotentialParamsQueue".toList
  | searchStoichiometries => "searchStoichiometries".toList
  | separateAtoms => "separateAtoms".toList
  | writeStructures => "writeStructures".toList

/-- The type of a name. -/
def ofName (name : Str) : Option BlockType := (registered true).find? fun t => t.name == name

theorem registeredTypes_eq (SPL_USE_CGAL : Bool) :
    registeredTypes SPL_USE_CGAL = (registered SPL_USE_CGAL).map name := by
  cases SPL_USE_CGAL <;> rfl

theorem ofName_name (t : BlockType) : ofName t.name = some t := by cases t <;> rfl

theorem name_injective : Function.Injective name := by
  intro t u h
  have hsame := congrArg ofName h
  rw [ofName_name, ofName_name] at hsame
  exact Option.some.inj hsame

/-- The options that the schema of a type fills in. -/
def BindingType (spl : SplLibrary) : BlockType → Type
  | autoScale => AutoScale
  | generateStructures => BuildStructures spl
  | clone => Clone
  | cutAndPaste => CutAndPaste spl
  | findSymmetry => FindSymmetryGroup
  | geomOptimise => GeomOptimise spl
  | keepStableCompositions => KeepStableCompositions
  | keepTopN => KeepTopN
  | keepWithinXPercent => KeepWithinXPercent
  | loadStructures => Str
  | pasteFragment => PasteFragment spl
  | niggliReduce => NiggliReduce
  | removeDuplicates => RemoveDuplicates spl
  | rescale => Rescale
  | runPotentialParamsQueue => RunPotentialParamsQueue spl
  | searchStoichiometries => SearchStoichiometries spl
  | separateAtoms => SeparateAtoms spl
  | writeStructures => WriteStructures

end BlockType

open BlockType

/-- `createBlock`, by the type of its options. -/
def createBlock : (t : BlockType) → t.BindingType spl → Created spl
  | autoScale, options => AutoScale.createBlock options
  | generateStructures, options => BuildStructures.createBlock options
  | clone, options => Clone.createBlock options
  | cutAndPaste, options => CutAndPaste.createBlock options
  | findSymmetry, options => FindSymmetryGroup.createBlock options
  | geomOptimise, options => GeomOptimise.createBlock options
  | keepStableCompositions, options => KeepStableCompositions.createBlock options
  | keepTopN, options => KeepTopN.createBlock options
  | keepWithinXPercent, options => KeepWithinXPercent.createBlock options
  | loadStructures, toLoad => LoadStructures.createBlock toLoad
  | pasteFragment, options => PasteFragment.createBlock options
  | niggliReduce, options => NiggliReduce.createBlock options
  | removeDuplicates, options => RemoveDuplicates.createBlock options
  | rescale, options => Rescale.createBlock options
  | runPotentialParamsQueue, options => RunPotentialParamsQueue.createBlock options
  | searchStoichiometries, options => SearchStoichiometries.createBlock options
  | separateAtoms, options => SeparateAtoms.createBlock options
  | writeStructures, options => WriteStructures.createBlock options

/-- Options whose parts can be had: what the structure library is asked for, or the nested pipe. -/
def Accepts : (t : BlockType) → t.BindingType spl → Bool
  | generateStructures, options =>
      (spl.createStructureGenerator (BuildStructures.generator options)).isSome
  | cutAndPaste, options => (spl.createShape (CutAndPaste.genShape options)).isSome
  | geomOptimise, options => (spl.createGeometryOptimiser (GeomOptimise.optimiser options)).isSome
  | removeDuplicates, options =>
      (spl.createStructureComparator (RemoveDuplicates.comparator options)).isSome
  | runPotentialParamsQueue, options => (RunPotentialParamsQueue.pipe options).isSome
  | searchStoichiometries, options => (SearchStoichiometries.pipe options).isSome
  | _, _ => true

/-- **Which options give a block.** -/
theorem createBlock_blockOut (t : BlockType) (options : t.BindingType spl) :
    (createBlock t options).blockOut.isSome = Accepts t options := by
  cases t with
  | generateStructures => exact Created.blockOut_withPart _ _
  | cutAndPaste => exact Created.blockOut_withPart _ _
  | geomOptimise => exact Created.blockOut_withPart _ _
  | removeDuplicates => exact Created.blockOut_withPart _ _
  | runPotentialParamsQueue => exact Created.blockOut_withPart _ _
  | searchStoichiometries => exact Created.blockOut_withPart _ _
  | _ => rfl

/-- **The result says whether the handle is set**, for every block type but `keepWithinXPercent`. -/
theorem createBlock_returned_iff {t : BlockType} (h : t ≠ keepWithinXPercent)
    (options : t.BindingType spl) : (createBlock t options).Honest := by
  cases t with
  | keepWithinXPercent => exact absurd rfl h
  | generateStructures => exact Created.honest_withPart _ _
  | cutAndPaste => exact Created.honest_withPart _ _
  | geomOptimise => exact Created.honest_withPart _ _
  | removeDuplicates => exact Created.honest_withPart _ _
  | runPotentialParamsQueue => exact Created.honest_withPart _ _
  | searchStoichiometries => exact Created.honest_withPart _ _
  | _ => exact Created.honest_block _

/-- That one always returns `false`. -/
theorem createBlock_keepWithinXPercent
    (options : BindingType spl keepWithinXPercent) :
    (createBlock keepWithinXPercent options).returned = false ∧
      (createBlock keepWithinXPercent options).blockOut.isSome = true := ⟨rfl, rfl⟩

/-! ### The creator of a block type -/

/-- The options that a schema has filled in, and the errors it has logged. -/
structure Converted (spl : SplLibrary) (ε : Type*) (t : BlockType) where
  options : t.BindingType spl
  log : List ε

/-- `SCHEMA_TYPE.nodeToValue`, for each block type. -/
abbrev Schemas (spl : SplLibrary) (ε : Type*) := (t : BlockType) → YamlNode → Converted spl ε t

namespace FactoryBlockCreator

variable {ε : Type*}

/-- The handle, and the errors that are printed. -/
def createBlock (schemas : Schemas spl ε) (t : BlockType) (node : YamlNode) :
    Option (Block spl) × List ε :=
  let converted := schemas t node
  ((Build.createBlock t converted.options).blockOut, converted.log)

/-- The creators as the loader registers them. -/
def creator (schemas : Schemas spl ε) (name : Str) : BlockCreator (Block spl) :=
  fun node => (ofName name).bind fun t => (createBlock schemas t node).1

end FactoryBlockCreator

end StructurePipe.Build
