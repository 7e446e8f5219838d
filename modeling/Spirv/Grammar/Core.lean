/-
The core grammar: the instructions, masks and enumerations of version 1.6, in the tables that everything else works
with. Where a value has several names the preferred one is kept here.
-/
import Spirv.Grammar.Basic

namespace Spirv

namespace Grammar.Core

/-! ## Instructions -/

/-- an operand that is there exactly once -/
def one (k : Kind) : OperandType := .operand ⟨.required, k⟩

def opt (k : Kind) : OperandType := .operand ⟨.optional, k⟩

def rep (k : Kind) : OperandType := .operand ⟨.repeated, k⟩

set_option maxRecDepth 20000 in
def instructions : Table UInt16 InstructionDef where
  entries := [
    (0, ⟨"OpNop", []⟩),
    (1, ⟨"OpUndef", [one (.id .resultType), one (.id .result)]⟩),
    (2, ⟨"OpSourceContinued", [one .string]⟩),
    (3, ⟨"OpSource", [one (.enum .sourceLanguage), one (.literal .integer), opt (.id .reference), opt .string]⟩),
    (4, ⟨"OpSourceExtension", [one .string]⟩),
    (5, ⟨"OpName", [one (.id .reference), one .string]⟩),
    (6, ⟨"OpMemberName", [one (.id .reference), one (.literal .integer), one .string]⟩),
    (7, ⟨"OpString", [one (.id .result), one .string]⟩),
    (8, ⟨"OpLine", [one (.id .reference), one (.literal .integer), one (.literal .integer)]⟩),
    (10, ⟨"OpExtension", [one .string]⟩),
    (11, ⟨"OpExtInstImport", [one (.id .result), one .string]⟩),
    (12, ⟨"OpExtInst", [one (.id .resultType), one (.id .result), one (.id .reference),
      one (.literal .extendedInstruction), rep (.id .reference)]⟩),
    (14, ⟨"OpMemoryModel", [one (.enum .addressingModel), one (.enum .memoryModel)]⟩),
    (15, ⟨"OpEntryPoint", [one (.enum .executionModel), one (.id .reference), one .string, rep (.id .reference)]⟩),
    (16, ⟨"OpExecutionMode", [one (.id .reference), one (.enum .executionMode), rep (.literal .integer)]⟩),
    (17, ⟨"OpCapability", [one (.enum .capability)]⟩),
    (19, ⟨"OpTypeVoid", [one (.id .result)]⟩),
    (20, ⟨"OpTypeBool", [one (.id .result)]⟩),
    (21, ⟨"OpTypeInt", [one (.id .result), one (.literal .integer), one (.literal .integer)]⟩),
    (22, ⟨"OpTypeFloat", [one (.id .result), one (.literal .integer)]⟩),
    (23, ⟨"OpTypeVector", [one (.id .result), one (.id .reference), one (.literal .integer)]⟩),
    (24, ⟨"OpTypeMatrix", [one (.id .result), one (.id .reference), one (.literal .integer)]⟩),
    (25, ⟨"OpTypeImage", [one (.id .result), one (.id .reference), one (.enum .dim), one (.literal .integer),
      one (.literal .integer), one (.literal .integer), one (.literal .integer), one (.enum .imageFormat),
      opt (.enum .accessQualifier)]⟩),
    (26, ⟨"OpTypeSampler", [one (.id .result)]⟩),
    (27, ⟨"OpTypeSampledImage", [one (.id .result), one (.id .reference)]⟩),
    (28, ⟨"OpTypeArray", [one (.id .result), one (.id .reference), one (.id .reference)]⟩),
    (29, ⟨"OpTypeRuntimeArray", [one (.id .result), one (.id .reference)]⟩),
    (30, ⟨"OpTypeStruct", [one (.id .result), rep (.id .reference)]⟩),
    (32, ⟨"OpTypePointer", [one (.id .result), one (.enum .storageClass), one (.id .reference)]⟩),
    (33, ⟨"OpTypeFunction", [one (.id .result), one (.id .reference), rep (.id .reference)]⟩),
    (39, ⟨"OpTypeForwardPointer", [one (.id .reference), one (.enum .storageClass)]⟩),
    (41, ⟨"OpConstantTrue", [one (.id .resultType), one (.id .result)]⟩),
    (42, ⟨"OpConstantFalse", [one (.id .resultType), one (.id .result)]⟩),
    (43, ⟨"OpConstant", [one (.id .resultType), one (.id .result), rep (.literal .integer)]⟩),
    (44, ⟨"OpConstantComposite", [one (.id .resultType), one (.id .result), rep (.id .reference)]⟩),
    (52, ⟨"OpSpecConstantOp", [one (.id .resultType), one (.id .result), one (.literal .specConstantOp),
      rep (.id .reference)]⟩),
    (54, ⟨"OpFunction", [one (.id .resultType), one (.id .result), one (.mask .functionControl),
      one (.id .reference)]⟩),
    (55, ⟨"OpFunctionParameter", [one (.id .resultType), one (.id .result)]⟩),
    (56, ⟨"OpFunctionEnd", []⟩),
    (57, ⟨"OpFunctionCall", [one (.id .resultType), one (.id .result), one (.id .reference), rep (.id .reference)]⟩),
    (59, ⟨"OpVariable", [one (.id .resultType), one (.id .result), one (.enum .storageClass), opt (.id .reference)]⟩),
    (61, ⟨"OpLoad", [one (.id .resultType), one (.id .result), one (.id .reference), opt (.mask .memoryAccess)]⟩),
    (62, ⟨"OpStore", [one (.id .reference), one (.id .reference), opt (.mask .memoryAccess)]⟩),
    (63, ⟨"OpCopyMemory", [one (.id .reference), one (.id .reference), opt (.mask .memoryAccess),
      opt (.mask .memoryAccess)]⟩),
    (65, ⟨"OpAccessChain", [one (.id .resultType), one (.id .result), one (.id .reference), rep (.id .reference)]⟩),
    (71, ⟨"OpDecorate", [one (.id .reference), one (.enum .decoration), rep (.literal .integer)]⟩),
    (72, ⟨"OpMemberDecorate", [one (.id .reference), one (.literal .integer), one (.enum .decoration),
      rep (.literal .integer)]⟩),
    (73, ⟨"OpDecorationGroup", [one (.id .result)]⟩),
    (74, ⟨"OpGroupDecorate", [one (.id .reference), rep (.id .reference)]⟩),
    (75, ⟨"OpGroupMemberDecorate", [one (.id .reference), rep (.pair .idLiteral)]⟩),
    (79, ⟨"OpVectorShuffle", [one (.id .resultType), one (.id .result), one (.id .reference), one (.id .reference),
      rep (.literal .integer)]⟩),
    (80, ⟨"OpCompositeConstruct", [one (.id .resultType), one (.id .result), rep (.id .reference)]⟩),
    (81, ⟨"OpCompositeExtract", [one (.id .resultType), one (.id .result), one (.id .reference),
      rep (.literal .integer)]⟩),
    (83, ⟨"OpCopyObject", [one (.id .resultType), one (.id .result), one (.id .reference)]⟩),
    (86, ⟨"OpSampledImage", [one (.id .resultType), one (.id .result), one (.id .reference), one (.id .reference)]⟩),
    (87, ⟨"OpImageSampleImplicitLod", [one (.id .resultType), one (.id .result), one (.id .reference),
      one (.id .reference), opt (.mask .imageOperands)]⟩),
    (88, ⟨"OpImageSampleExplicitLod", [one (.id .resultType), one (.id .result), one (.id .reference),
      one (.id .reference), one (.mask .imageOperands)]⟩),
    (95, ⟨"OpImageFetch", [one (.id .resultType), one (.id .result), one (.id .reference), one (.id .reference),
      opt (.mask .imageOperands)]⟩),
    (98, ⟨"OpImageRead", [one (.id .resultType), one (.id .result), one (.id .reference), one (.id .reference),
      opt (.mask .imageOperands)]⟩),
    (99, ⟨"OpImageWrite", [one (.id .reference), one (.id .reference), one (.id .reference),
      opt (.mask .imageOperands)]⟩),
    (124, ⟨"OpBitcast", [one (.id .resultType), one (.id .result), one (.id .reference)]⟩),
    (128, ⟨"OpIAdd", [one (.id .resultType), one (.id .result), one (.id .reference), one (.id .reference)]⟩),
    (129, ⟨"OpFAdd", [one (.id .resultType), one (.id .result), one (.id .reference), one (.id .reference)]⟩),
    (130, ⟨"OpISub", [one (.id .resultType), one (.id .result), one (.id .reference), one (.id .reference)]⟩),
    (131, ⟨"OpFSub", [one (.id .resultType), one (.id .result), one (.id .reference), one (.id .reference)]⟩),
    (132, ⟨"OpIMul", [one (.id .resultType), one (.id .result), one (.id .reference), one (.id .reference)]⟩),
    (133, ⟨"OpFMul", [one (.id .resultType), one (.id .result), one (.id .reference), one (.id .reference)]⟩),
    (169, ⟨"OpSelect", [one (.id .resultType), one (.id .result), one (.id .reference), one (.id .reference),
      one (.id .reference)]⟩),
    (170, ⟨"OpIEqual", [one (.id .resultType), one (.id .result), one (.id .reference), one (.id .reference)]⟩),
    (224, ⟨"OpControlBarrier", [one (.id .scope), one (.id .scope), one (.id .memorySemantics)]⟩),
    (225, ⟨"OpMemoryBarrier", [one (.id .scope), one (.id .memorySemantics)]⟩),
    (227, ⟨"OpAtomicLoad", [one (.id .resultType), one (.id .result), one (.id .reference), one (.id .scope),
      one (.id .memorySemantics)]⟩),
    (245, ⟨"OpPhi", [one (.id .resultType), one (.id .result), rep (.pair .idId)]⟩),
    (246, ⟨"OpLoopMerge", [one (.id .reference), one (.id .reference), one (.mask .loopControl)]⟩),
    (247, ⟨"OpSelectionMerge", [one (.id .reference), one (.mask .selectionControl)]⟩),
    (248, ⟨"OpLabel", [one (.id .result)]⟩),
    (249, ⟨"OpBranch", [one (.id .reference)]⟩),
    (250, ⟨"OpBranchConditional", [one (.id .reference), one (.id .reference), one (.id .reference),
      rep (.literal .integer)]⟩),
    (251, ⟨"OpSwitch", [one (.id .reference), one (.id .reference), rep (.pair .literalId)]⟩),
    (252, ⟨"OpKill", []⟩),
    (253, ⟨"OpReturn", []⟩),
    (254, ⟨"OpReturnValue", [one (.id .reference)]⟩),
    (255, ⟨"OpUnreachable", []⟩),
    (317, ⟨"OpNoLine", []⟩),
    (330, ⟨"OpModuleProcessed", [one .string]⟩),
    (331, ⟨"OpExecutionModeId", [one (.id .reference), one (.enum .executionMode), rep (.id .reference)]⟩),
    (332, ⟨"OpDecorateId", [one (.id .reference), one (.enum .decoration), rep (.id .reference)]⟩)
  ]

/-- names and opcodes, the last instruction first as they are after loading -/
def opcodes : List (String × UInt16) := (instructions.entries.map fun e => (e.2.name, e.1)).reverse

theorem nodup_names : (instructions.entries.map (·.2.name)).Nodup := by decide +kernel

/-! ## Masks -/

def imageOperands : MaskTable Kind := .ofList "None" [
    (0, ⟨"Bias", [.id .reference]⟩), (1, ⟨"Lod", [.id .reference]⟩), (2, ⟨"Grad", [.id .reference, .id .reference]⟩),
    (3, ⟨"ConstOffset", [.id .reference]⟩), (4, ⟨"Offset", [.id .reference]⟩),
    (5, ⟨"ConstOffsets", [.id .reference]⟩), (6, ⟨"Sample", [.id .reference]⟩), (7, ⟨"MinLod", [.id .reference]⟩),
    (8, ⟨"MakeTexelAvailable", [.id .scope]⟩), (9, ⟨"MakeTexelVisible", [.id .scope]⟩), (10, ⟨"NonPrivateTexel", []⟩),
    (11, ⟨"VolatileTexel", []⟩), (12, ⟨"SignExtend", []⟩), (13, ⟨"ZeroExtend", []⟩), (14, ⟨"Nontemporal", []⟩),
    (16, ⟨"Offsets", [.id .reference]⟩)]

def fpFastMathMode : MaskTable Kind := .ofList "None" [
    (0, ⟨"NotNaN", []⟩), (1, ⟨"NotInf", []⟩), (2, ⟨"NSZ", []⟩), (3, ⟨"AllowRecip", []⟩), (4, ⟨"Fast", []⟩),
    (16, ⟨"AllowContract", []⟩), (17, ⟨"AllowReassoc", []⟩), (18, ⟨"AllowTransform", []⟩)]

def selectionControl : MaskTable Kind := .ofList "None" [
    (0, ⟨"Flatten", []⟩), (1, ⟨"DontFlatten", []⟩)]

def loopControl : MaskTable Kind := .ofList "None" [
    (0, ⟨"Unroll", []⟩), (1, ⟨"DontUnroll", []⟩), (2, ⟨"DependencyInfinite", []⟩),
    (3, ⟨"DependencyLength", [.literal .integer]⟩), (4, ⟨"MinIterations", [.literal .integer]⟩),
    (5, ⟨"MaxIterations", [.literal .integer]⟩), (6, ⟨"IterationMultiple", [.literal .integer]⟩),
    (7, ⟨"PeelCount", [.literal .integer]⟩), (8, ⟨"PartialCount", [.literal .integer]⟩)]

def functionControl : MaskTable Kind := .ofList "None" [
    (0, ⟨"Inline", []⟩), (1, ⟨"DontInline", []⟩), (2, ⟨"Pure", []⟩), (3, ⟨"Const", []⟩), (16, ⟨"OptNoneEXT", []⟩)]

def memoryAccess : MaskTable Kind := .ofList "None" [
    (0, ⟨"Volatile", []⟩), (1, ⟨"Aligned", [.literal .integer]⟩), (2, ⟨"Nontemporal", []⟩),
    (3, ⟨"MakePointerAvailable", [.id .scope]⟩), (4, ⟨"MakePointerVisible", [.id .scope]⟩),
    (5, ⟨"NonPrivatePointer", []⟩), (16, ⟨"AliasScopeINTELMask", [.id .reference]⟩),
    (17, ⟨"NoAliasINTELMask", [.id .reference]⟩)]

def masks : Table MaskKind (MaskTable Kind) where
  entries := [
    (.imageOperands, imageOperands), (.fpFastMathMode, fpFastMathMode), (.selectionControl, selectionControl),
    (.loopControl, loopControl), (.functionControl, functionControl), (.memoryAccess, memoryAccess)]

/-! ## Enumerations -/

def sourceLanguage : Table Word String where
  entries := [
    (0, "Unknown"), (1, "ESSL"), (2, "GLSL"), (3, "OpenCL_C"), (4, "OpenCL_CPP"), (5, "HLSL"), (6, "CPP_for_OpenCL"),
    (7, "SYCL")]

def executionModel : Table Word String where
  entries := [
    (0, "Vertex"), (1, "TessellationControl"), (2, "TessellationEvaluation"), (3, "Geometry"), (4, "Fragment"),
    (5, "GLCompute"), (6, "Kernel")]

def addressingModel : Table Word String where
  entries := [
    (0, "Logical"), (1, "Physical32"), (2, "Physical64"), (5348, "PhysicalStorageBuffer64")]

def memoryModel : Table Word String where
  entries := [
    (0, "Simple"), (1, "GLSL450"), (2, "OpenCL"), (3, "Vulkan")]

def executionMode : Table Word String where
  entries := [
    (0, "Invocations"), (1, "SpacingEqual"), (7, "OriginUpperLeft"), (8, "OriginLowerLeft"), (17, "LocalSize")]

def storageClass : Table Word String where
  entries := [
    (0, "UniformConstant"), (1, "Input"), (2, "Uniform"), (3, "Output"), (4, "Workgroup"), (5, "CrossWorkgroup"),
    (6, "Private"), (7, "Function"), (8, "Generic"), (9, "PushConstant"), (10, "AtomicCounter"), (11, "Image"),
    (12, "StorageBuffer")]

def dim : Table Word String where
  entries := [
    (0, "1D"), (1, "2D"), (2, "3D"), (3, "Cube"), (4, "Rect"), (5, "Buffer"), (6, "SubpassData")]

def imageFormat : Table Word String where
  entries := [
    (0, "Unknown"), (1, "Rgba32f"), (2, "Rgba16f"), (3, "R32f"), (4, "Rgba8")]

def accessQualifier : Table Word String where
  entries := [
    (0, "ReadOnly"), (1, "WriteOnly"), (2, "ReadWrite")]

def decoration : Table Word String where
  entries := [
    (0, "RelaxedPrecision"), (1, "SpecId"), (2, "Block"), (3, "BufferBlock"), (4, "RowMajor"), (5, "ColMajor"),
    (6, "ArrayStride"), (7, "MatrixStride"), (11, "BuiltIn"), (13, "NoPerspective"), (14, "Flat"), (30, "Location"),
    (33, "Binding"), (34, "DescriptorSet"), (35, "Offset"), (41, "LinkageAttributes")]

def builtIn : Table Word String where
  entries := [
    (0, "Position"), (1, "PointSize"), (5, "VertexId"), (6, "InstanceId"), (15, "FragCoord"),
    (27, "LocalInvocationId"), (28, "GlobalInvocationId")]

def capability : Table Word String where
  entries := [
    (0, "Matrix"), (1, "Shader"), (2, "Geometry"), (3, "Tessellation"), (4, "Addresses"), (5, "Linkage"),
    (6, "Kernel"), (9, "Float16"), (10, "Float64"), (11, "Int64"), (22, "Int16"), (39, "Int8")]

def enums : Table EnumKind (Table Word String) where
  entries := [
    (.sourceLanguage, sourceLanguage), (.executionModel, executionModel), (.addressingModel, addressingModel),
    (.memoryModel, memoryModel), (.executionMode, executionMode), (.storageClass, storageClass), (.dim, dim),
    (.imageFormat, imageFormat), (.accessQualifier, accessQualifier), (.decoration, decoration), (.builtIn, builtIn),
    (.capability, capability)]

end Grammar.Core

def Grammar.core : Grammar where
  magic := 0x07230203
  version := ⟨1, 6, 1⟩
  instructions := Core.instructions
  opcodes := Core.opcodes
  masks := Core.masks
  enums := Core.enums

end Spirv
