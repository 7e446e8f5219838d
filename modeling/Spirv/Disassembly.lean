/-
Text of operands and instructions. IDs are written with a percent sign, values and bits by their names in the grammar,
packed text in quotes. What has no name is written as a number, and words that do not fit their type as a row. In an
instruction the result comes first, as in `%2 = OpLoad %1 %3`.
-/
import Spirv.Grammar.Basic
import Spirv.Text.Quoted
import Spirv.Text.Shortest

namespace Spirv

/-- the names of the set bits, and the nameless rest as one number -/
def MaskTable.text {α : Type} (t : MaskTable α) (w : Word) : String :=
  if w = 0 then t.emptyName
  else
    let nameless := t.unnamed w
    "|".intercalate (t.named w ++ if nameless = 0 then [] else ["0x" ++ Text.hex nameless])

namespace Grammar

/-- a word as an operand of this type -/
def wordText (g : Grammar) (type : OperandType) (w : Word) : String :=
  match type.cls with
  | some .id => "%" ++ w.toNat.repr
  | some .literal => if type = (Kind.literal .float).type then Text.binary32 w else w.toNat.repr
  | some .enum => ((g.values? type).bind (·.get? w)).getD w.toNat.repr
  | some .mask =>
    match g.maskTable? type with
    | some table => table.text w
    | none => "0x" ++ Text.hex w
  | _ => w.toNat.repr

def operandText (g : Grammar) (o : Operand) : String :=
  match o.type.cls, o.words with
  | some .string, words =>
    match o.text? with
    | some s => Text.quoted s
    | none => Text.hexWords words
  | some .pair, [a, b] =>
    match o.type.halves with
    | some (s, t) => g.wordText s a ++ " " ++ g.wordText t b
    | none => a.toNat.repr ++ " " ++ b.toNat.repr
  | _, [w] => g.wordText o.type w
  | _, words => Text.hexWords words

def isResult (o : Operand) : Bool := o.type = (Kind.id .result).type

def instructionText (g : Grammar) (i : Instruction) : String :=
  let (results, others) := i.operands.partition isResult
  let name := (g.name? i.opcode).getD ("<unknown opcode " ++ i.opcode.toNat.repr ++ ">")
  String.join (results.map (g.operandText · ++ " = ")) ++ name ++
    String.join (others.map (" " ++ g.operandText ·))

/-- an opcode of the grammar with its name, as in `Opcode(61 => "OpLoad")` -/
def opcodeText (opcode : UInt16) (name : String) : String :=
  "Opcode(" ++ opcode.toNat.repr ++ " => " ++ Text.quoted name ++ ")"

end Grammar

end Spirv
