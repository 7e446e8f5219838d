/-
A grammar: the tables that say which instructions there are, what their operands are, and what the values of enumerations
and the bits of masks are called. It serves as an opcode table (`Grammar.table`) and as an expansion of masks
(`Grammar.expand`).
-/
import Spirv.Encode
import Spirv.MaskTable

namespace Spirv

structure Version where
  major : UInt8
  minor : UInt8
  revision : UInt8
deriving DecidableEq, Repr

structure InstructionDef where
  name : String
  types : List OperandType
deriving DecidableEq, Repr

structure Grammar where
  /-- the first word of every module -/
  magic : Word
  version : Version
  instructions : Table UInt16 InstructionDef
  /-- opcodes by name; of two entries with one name the first counts -/
  opcodes : List (String × UInt16)
  masks : Table MaskKind (MaskTable Kind)
  enums : Table EnumKind (Table Word String)
deriving Repr

namespace Grammar

/-- the operand types of each known opcode -/
def table (g : Grammar) : OpcodeTable := fun opcode => (g.instructions.get? opcode).map (·.types)

/-- the bits of a concrete mask type -/
def maskTable? (g : Grammar) (type : OperandType) : Option (MaskTable Kind) :=
  type.maskKind?.bind g.masks.get?

/-- the named values of a concrete enumeration type, ascending -/
def values? (g : Grammar) (type : OperandType) : Option (Table Word String) :=
  type.enumKind?.bind g.enums.get?

/-- the kinds that a mask word asks for -/
def expand (g : Grammar) : Expansion := fun m w =>
  match g.masks.get? m with
  | some table => table.implied w
  | none => []

/-- What a mask word asks for is a parameter of a bit of its mask. -/
theorem exists_param_of_mem_expand {g : Grammar} {m : MaskKind} {w : Word} {k : Kind} (h : k ∈ g.expand m w) :
    ∃ e ∈ g.masks.entries, ∃ bit ∈ e.2.defined, k ∈ bit.2.params := by
  rw [expand] at h
  cases htable : g.masks.get? m with
  | none =>
    rw [htable] at h
    cases h
  | some table =>
    rw [htable] at h
    exact ⟨(m, table), Table.get?_eq_some_iff.mp htable, MaskTable.exists_param_of_mem_implied h⟩

/-- the operand types that a word of any type asks for; only those of masks ask for any -/
def implied (g : Grammar) (type : OperandType) (w : Word) : List Kind :=
  match type.maskKind? with
  | some m => g.expand m w
  | none => []

/-- the opcode of a name -/
def opcode? (g : Grammar) (name : String) : Option UInt16 := g.opcodes.lookup name

/-- the name of an opcode -/
def name? (g : Grammar) (opcode : UInt16) : Option String := (g.instructions.get? opcode).map (·.name)

/-- the layout of a known opcode -/
def layout (g : Grammar) (opcode : UInt16) : Except LayoutError Layout := Layout.resolve g.table opcode

end Grammar

end Spirv
