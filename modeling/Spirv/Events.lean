/-
Events: what decoding, encoding, reading and loading report of their way. The implications of a mask are reported one by
one, each when the operand it asks for is about to be handled, so after a failure the last one names the operand that
failed. Events are computed from the same inputs as the results and change nothing in them.
-/
import Spirv.Grammar.Load
import Spirv.Module.Reader
import Spirv.Module.Writer

namespace Spirv

inductive Level where
  | trace | debug
deriving DecidableEq, Repr

def Level.name : Level → String
  | .trace => "TRACE"
  | .debug => "DEBUG"

inductive Event where
  | implied (mask : MaskKind) (word : Word) (kind : Kind)
  | decoded (instruction : Instruction)
  | decodeFailed (opcode : UInt16) (words : List Word) (error : DecodeError)
  | encodeFailed (opcode : UInt16) (error : EncodeError)
  | malformed (position : Nat) (error : ReadError)
  | byteSwapped
  | loaded (version : Version) (instructions masks enums : Nat)
deriving DecidableEq, Repr

namespace Event

def level : Event → Level
  | .implied .. | .decoded .. => .trace
  | _ => .debug

def operandFields (o : Operand) : String :=
  "DecodedOperand \x7b ty: " ++ o.type.name ++ ", words: [" ++
    ", ".intercalate (o.words.map (·.toNat.repr)) ++ "] \x7d"

def instructionFields (i : Instruction) : String :=
  "DecodedInst \x7b opcode: " ++ i.opcode.toNat.repr ++ ", operands: [" ++
    ", ".intercalate (i.operands.map operandFields) ++ "] \x7d"

def text : Event → String
  | .implied mask word kind =>
    (Kind.mask mask).name ++ " 0x" ++ Text.hexWord word ++ " implies " ++ kind.name
  | .decoded i => "decoded " ++ instructionFields i
  | .decodeFailed opcode words error =>
    "failed to decode opcode " ++ opcode.toNat.repr ++ " from " ++ Text.hexWords words ++ ": " ++ error.message
  | .encodeFailed opcode error =>
    "failed to encode opcode " ++ opcode.toNat.repr ++ ": " ++ error.message
  | .malformed position error =>
    "failed to parse instruction at word " ++ position.repr ++ ": " ++ error.message
  | .byteSwapped => "byte-swapping opposite-endian SPIR-V module"
  | .loaded version instructions masks enums =>
    "loaded SPIR-V " ++ version.major.toNat.repr ++ "." ++ version.minor.toNat.repr ++ " grammar: " ++
      instructions.repr ++ " instructions, " ++ masks.repr ++ " masks, " ++ enums.repr ++ " value enums"

/-- the demand of a mask -/
def ofDemand (d : Demand) : List Event :=
  match d.source with
  | some (m, w) => [.implied m w d.kind]
  | none => []

/-- the implications met while these operands were handled one after the other -/
def ofOperands (x : Expansion) (operands : List Operand) : Array Event := go #[] [] operands
where
  /-- `due` are the demands of masks that no operand has met yet -/
  go (done : Array Event) (due : List Demand) : List Operand → Array Event
    | [] => done ++ due.head?.toList.flatMap ofDemand
    | o :: os =>
      let follow := match o.type.concrete? with
        | some k => Demand.follow x k o.words
        | none => []
      go (done ++ due.head?.toList.flatMap ofDemand) (follow ++ due.tail) os

end Event

/-! ## Decoding and encoding -/

namespace Layout

def decodeEvents (x : Expansion) (l : Layout) (words : List Word) : Array Event :=
  match Decoder.run x l ⟨words, #[]⟩ with
  | .ok d => Event.ofOperands x d.operands.toList
  | .error stop =>
    (Event.ofOperands x stop.decoder.operands.toList).push (.decodeFailed l.opcode words stop.error)

def encodeEvents (x : Expansion) (l : Layout) (operands : List Operand) : Array Event :=
  match Encoder.run x l ⟨operands, #[]⟩ with
  | .ok _ => Event.ofOperands x operands
  | .error stop =>
    let handled := operands.take (operands.length - stop.encoder.rest.length)
    (Event.ofOperands x handled).push (.encodeFailed l.opcode stop.error)

end Layout

/-! ## Reading and writing -/

def Instruction.decodeEvents (x : Expansion) (table : OpcodeTable) (opcode : UInt16) (words : List Word) :
    Array Event :=
  match Layout.resolve table opcode with
  | .error _ => #[]
  | .ok l =>
    match l.decode x words with
    | .error _ => l.decodeEvents x words
    | .ok operands => (l.decodeEvents x words).push (.decoded ⟨opcode, operands⟩)

/-- the events of reading the next instruction -/
def InstructionStream.nextEvents (x : Expansion) (table : OpcodeTable) (s : InstructionStream) : Array Event :=
  match s.rest with
  | [] => #[]
  | header :: rest =>
    match splitInstruction header rest with
    | .error _ => #[]
    | .ok (body, _) => Instruction.decodeEvents x table header.opcode body

namespace ModuleReader

/-- the events of opening a module -/
def openEvents (r : ModuleReader) : Array Event :=
  match r.order with
  | .native => #[]
  | .swapped => #[.byteSwapped]

/-- the events of reading the next instruction -/
def nextEvents (g : Grammar) (r : ModuleReader) : Array Event :=
  match r.words[r.position]? with
  | none => #[]
  | some header =>
    let words := (r.words.extract r.position (r.position + header.declaredCount)).toList
    (InstructionStream.ofWords words).nextEvents g.expand g.table ++
      match readAt g.expand g.table r.words r.position header with
      | .ok _ => #[]
      | .error e => #[.malformed r.position e]

end ModuleReader

/-- the events of a push -/
def ModuleWriter.pushEvents (g : Grammar) (i : Instruction) : Array Event :=
  match g.layout i.opcode with
  | .error _ => #[]
  | .ok l => l.encodeEvents g.expand i.operands

/-! ## Masks and grammars -/

namespace Grammar

/-- the events of asking what a word of some type implies -/
def impliedEvents (g : Grammar) (type : OperandType) (w : Word) : Array Event :=
  match type.maskKind? with
  | some m => ((g.implied type w).map (.implied m w)).toArray
  | none => #[]

def loadEvents (g : Grammar) : Array Event :=
  #[.loaded g.version g.instructions.size g.masks.size g.enums.size]

end Grammar

end Spirv
