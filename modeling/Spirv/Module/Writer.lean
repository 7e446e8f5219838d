/-
Writing a module. The writer holds the words written so far. A push encodes one instruction and appends its words; when
that fails it says why and leaves the writer as it was.
-/
import Spirv.Grammar.Basic
import Spirv.Module.Header

namespace Spirv

inductive PushError where
  | layout (error : LayoutError)
  | encode (error : EncodeError)
deriving DecidableEq, Repr

def PushError.message : PushError → String
  | .layout error => error.message
  | .encode error => error.message

structure ModuleWriter where
  words : Array Word
deriving DecidableEq, Repr

namespace ModuleWriter

def ofHeader (h : Header) : ModuleWriter := ⟨h.toList.toArray⟩

def append (m : ModuleWriter) (words : Array Word) : ModuleWriter := ⟨m.words ++ words⟩

/-- appends an instruction with this layout; answers what is wrong with it, if anything -/
def push (x : Expansion) (l : Layout) (operands : List Operand) (m : ModuleWriter) :
    Option EncodeError × ModuleWriter :=
  match l.encode x operands with
  | .error e => (some e, m)
  | .ok words => (none, m.append words)

/-- appends an instruction, with the layout that its opcode has in the grammar -/
def pushInstruction (g : Grammar) (i : Instruction) (m : ModuleWriter) : Option PushError × ModuleWriter :=
  match g.layout i.opcode with
  | .error e => (some (.layout e), m)
  | .ok l =>
    let (fault, m) := m.push g.expand l i.operands
    (fault.map .encode, m)

/-- the stored form, in native order -/
def toBytes (m : ModuleWriter) : List UInt8 := m.words.toList.flatMap Word.bytes

end ModuleWriter

end Spirv
