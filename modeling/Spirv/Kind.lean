/-
The kinds of operand an instruction can have. A kind says how many words an operand takes and what they mean: an ID, a
number, packed text, the value of an enumeration, two words that belong together, or a mask whose set bits ask for more
operands. Kinds are numbered in the order of `Kind.all`, from 1.
-/
import Spirv.Table
import Spirv.Word

namespace Spirv

inductive IdKind where
  | reference | resultType | result | memorySemantics | scope
deriving DecidableEq, Repr

inductive LiteralKind where
  | integer | float | extendedInstruction | specConstantOp
deriving DecidableEq, Repr

/-- kinds with named values, of which a word holds one -/
inductive EnumKind where
  | sourceLanguage | executionModel | addressingModel | memoryModel | executionMode | storageClass | dim
  | samplerAddressingMode | samplerFilterMode | imageFormat | imageChannelOrder | imageChannelDataType
  | fpRoundingMode | linkageType | accessQualifier | functionParameterAttribute | decoration | builtIn
  | groupOperation | kernelEnqueueFlags | kernelProfilingInfo | capability
deriving DecidableEq, Repr

/-- two single-word operands that are always found together -/
inductive PairKind where
  | literalId | idLiteral | idId
deriving DecidableEq, Repr

/-- kinds with named bits, of which a word holds any number -/
inductive MaskKind where
  | imageOperands | fpFastMathMode | selectionControl | loopControl | functionControl | memoryAccess
deriving DecidableEq, Repr

inductive Kind where
  | id (k : IdKind)
  | literal (k : LiteralKind)
  | string
  | enum (k : EnumKind)
  | pair (k : PairKind)
  | mask (k : MaskKind)
deriving DecidableEq, Repr

/-- the family a kind belongs to -/
inductive KindClass where
  | id | literal | string | enum | pair | mask
deriving DecidableEq, Repr

/-- how many words an operand takes -/
inductive Shape where
  | fixed (words : Nat)
  /-- up to and including the first word with a zero byte -/
  | terminated
deriving DecidableEq, Repr

instance : Ranked EnumKind := ⟨EnumKind.ctorIdx, by intro a b; cases a <;> cases b <;> decide⟩

instance : Ranked MaskKind := ⟨MaskKind.ctorIdx, by intro a b; cases a <;> cases b <;> decide⟩

def IdKind.all : List IdKind := [.reference, .resultType, .result, .memorySemantics, .scope]

def LiteralKind.all : List LiteralKind := [.integer, .float, .extendedInstruction, .specConstantOp]

def EnumKind.all : List EnumKind :=
  [.sourceLanguage, .executionModel, .addressingModel, .memoryModel, .executionMode, .storageClass, .dim,
   .samplerAddressingMode, .samplerFilterMode, .imageFormat, .imageChannelOrder, .imageChannelDataType,
   .fpRoundingMode, .linkageType, .accessQualifier, .functionParameterAttribute, .decoration, .builtIn,
   .groupOperation, .kernelEnqueueFlags, .kernelProfilingInfo, .capability]

def PairKind.all : List PairKind := [.literalId, .idLiteral, .idId]

def MaskKind.all : List MaskKind :=
  [.imageOperands, .fpFastMathMode, .selectionControl, .loopControl, .functionControl, .memoryAccess]

/-- the two kinds a pair is made of -/
def PairKind.halves : PairKind → Kind × Kind
  | .literalId => (.literal .integer, .id .reference)
  | .idLiteral => (.id .reference, .literal .integer)
  | .idId => (.id .reference, .id .reference)

namespace Kind

def all : List Kind :=
  IdKind.all.map .id ++ LiteralKind.all.map .literal ++ [.string] ++ EnumKind.all.map .enum ++
    PairKind.all.map .pair ++ MaskKind.all.map .mask

/-- the place in the numbering, from 1 -/
def number : Kind → Nat
  | .id k => 1 + k.ctorIdx
  | .literal k => 6 + k.ctorIdx
  | .string => 10
  | .enum k => 11 + k.ctorIdx
  | .pair k => 33 + k.ctorIdx
  | .mask k => 36 + k.ctorIdx

def count : Nat := 41

theorem map_number_all : all.map number = List.range' 1 count := by decide

theorem mem_all (k : Kind) : k ∈ all := by
  cases k with
  | string => decide
  | _ k => cases k <;> decide

theorem number_bounds (k : Kind) : 1 ≤ k.number ∧ k.number ≤ count := by
  have hmem : k.number ∈ List.range' 1 count := map_number_all ▸ List.mem_map_of_mem (mem_all k)
  rw [List.mem_range'_1] at hmem
  omega

def ofNumber? : Nat → Option Kind
  | 0 => none
  | n + 1 => all[n]?

theorem ofNumber?_number (k : Kind) : ofNumber? k.number = some k := by
  cases k with
  | string => decide
  | _ k => cases k <;> decide

def cls : Kind → KindClass
  | .id _ => .id
  | .literal _ => .literal
  | .string => .string
  | .enum _ => .enum
  | .pair _ => .pair
  | .mask _ => .mask

def shape : Kind → Shape
  | .string => .terminated
  | .pair _ => .fixed 2
  | _ => .fixed 1

/-- the fewest words an operand of this kind takes -/
def minWords (k : Kind) : Nat :=
  match k.shape with
  | .fixed n => n
  | .terminated => 1

/-! ## Names -/

/-- the name used in grammars -/
def name : Kind → String
  | .id .reference => "IdRef"
  | .id .resultType => "IdResultType"
  | .id .result => "IdResult"
  | .id .memorySemantics => "IdMemorySemantics"
  | .id .scope => "IdScope"
  | .literal .integer => "LiteralInteger"
  | .literal .float => "LiteralFloat"
  | .literal .extendedInstruction => "LiteralExtInstInteger"
  | .literal .specConstantOp => "LiteralSpecConstantOpInteger"
  | .string => "LiteralString"
  | .enum .sourceLanguage => "SourceLanguage"
  | .enum .executionModel => "ExecutionModel"
  | .enum .addressingModel => "AddressingModel"
  | .enum .memoryModel => "MemoryModel"
  | .enum .executionMode => "ExecutionMode"
  | .enum .storageClass => "StorageClass"
  | .enum .dim => "Dim"
  | .enum .samplerAddressingMode => "SamplerAddressingMode"
  | .enum .samplerFilterMode => "SamplerFilterMode"
  | .enum .imageFormat => "ImageFormat"
  | .enum .imageChannelOrder => "ImageChannelOrder"
  | .enum .imageChannelDataType => "ImageChannelDataType"
  | .enum .fpRoundingMode => "FPRoundingMode"
  | .enum .linkageType => "LinkageType"
  | .enum .accessQualifier => "AccessQualifier"
  | .enum .functionParameterAttribute => "FunctionParameterAttribute"
  | .enum .decoration => "Decoration"
  | .enum .builtIn => "BuiltIn"
  | .enum .groupOperation => "GroupOperation"
  | .enum .kernelEnqueueFlags => "KernelEnqueueFlags"
  | .enum .kernelProfilingInfo => "KernelProfilingInfo"
  | .enum .capability => "Capability"
  | .pair .literalId => "PairLiteralIntegerIdRef"
  | .pair .idLiteral => "PairIdRefLiteralInteger"
  | .pair .idId => "PairIdRefIdRef"
  | .mask .imageOperands => "ImageOperands"
  | .mask .fpFastMathMode => "FPFastMathMode"
  | .mask .selectionControl => "SelectionControl"
  | .mask .loopControl => "LoopControl"
  | .mask .functionControl => "FunctionControl"
  | .mask .memoryAccess => "MemoryAccess"

/-- the name used towards a reader -/
def description : Kind → String
  | .id .reference => "ID"
  | .id .resultType => "type ID"
  | .id .result => "result ID"
  | .id .memorySemantics => "memory semantics ID"
  | .id .scope => "scope ID"
  | .literal .integer => "literal number"
  | .literal .float => "literal float"
  | .literal .extendedInstruction => "extended instruction number"
  | .literal .specConstantOp => "spec constant op number"
  | .string => "literal string"
  | .enum .sourceLanguage => "source language"
  | .enum .executionModel => "execution model"
  | .enum .addressingModel => "addressing model"
  | .enum .memoryModel => "memory model"
  | .enum .executionMode => "execution mode"
  | .enum .storageClass => "storage class"
  | .enum .dim => "dimensionality"
  | .enum .samplerAddressingMode => "sampler addressing mode"
  | .enum .samplerFilterMode => "sampler filter mode"
  | .enum .imageFormat => "image format"
  | .enum .imageChannelOrder => "image channel order"
  | .enum .imageChannelDataType => "image channel data type"
  | .enum .fpRoundingMode => "floating-point rounding mode"
  | .enum .linkageType => "linkage type"
  | .enum .accessQualifier => "access qualifier"
  | .enum .functionParameterAttribute => "function parameter attribute"
  | .enum .decoration => "decoration"
  | .enum .builtIn => "built-in"
  | .enum .groupOperation => "group operation"
  | .enum .kernelEnqueueFlags => "kernel enqueue flags"
  | .enum .kernelProfilingInfo => "kernel profiling info"
  | .enum .capability => "capability"
  | .pair .literalId => "literal number and ID pair"
  | .pair .idLiteral => "ID and literal number pair"
  | .pair .idId => "ID pair"
  | .mask .imageOperands => "image"
  | .mask .fpFastMathMode => "floating-point fast math mode"
  | .mask .selectionControl => "selection control"
  | .mask .loopControl => "loop control"
  | .mask .functionControl => "function control"
  | .mask .memoryAccess => "memory access"

def ofName? (s : String) : Option Kind := all.find? (·.name = s)

end Kind

/-- the family's name -/
def KindClass.name : KindClass → String
  | .id => "Id"
  | .literal => "Literal"
  | .string => "LiteralString"
  | .enum => "ValueEnum"
  | .pair => "Pair"
  | .mask => "Mask"

end Spirv
