/-
Operands and instructions. An operand is a type and the words it takes; an instruction is an opcode and its operands in
the order of their words, those that a mask asks for right behind the mask. Text is carried by operands of kind `string`
as UTF-8, packed into words with a zero byte at its end.
-/
import Spirv.OperandType

namespace Spirv

structure Operand where
  type : OperandType
  words : List Word
deriving DecidableEq, Repr

structure Instruction where
  opcode : UInt16
  operands : List Operand
deriving DecidableEq, Repr

namespace Operand

/-- the operand that carries a text; a text with a NUL in it has none, as it would end there -/
def ofText? (s : String) : Option Operand :=
  if '\x00' ∈ s.toList then none
  else some ⟨Kind.string.type, Word.packTerminated s.toUTF8.toList⟩

/-- the text that an operand carries: its bytes before the first zero byte, when they are UTF-8 -/
def text? (o : Operand) : Option String :=
  if o.type = Kind.string.type then String.fromUTF8? ⟨(Word.unpackTerminated o.words).toArray⟩ else none

end Operand

namespace Instruction

/-- all words of the instruction, the header word included -/
def wordCount (i : Instruction) : Nat := 1 + (i.operands.flatMap (·.words)).length

end Instruction

end Spirv
