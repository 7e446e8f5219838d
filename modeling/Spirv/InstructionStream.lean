/-
Streams of instructions. Each instruction starts with a header word that says how many words it takes and which opcode it
has; the layout comes from an opcode table. `InstructionStream.next?` reads one instruction and moves on by as many words
as its header declares. The first failure ends the stream where it stands.
-/
import Spirv.Encode

namespace Spirv

inductive ReadError where
  /-- no instruction can have 0 words, as its header is one -/
  | zeroWordCount
  | truncatedInstruction (declared available : Nat)
  | layout (error : LayoutError)
  | operands (error : DecodeError)
deriving DecidableEq, Repr

def ReadError.message : ReadError → String
  | .zeroWordCount => "instruction with a word count of 0"
  | .truncatedInstruction declared available =>
    "truncated instruction (declares " ++ declared.repr ++ " words, only " ++ available.repr ++ " available)"
  | .layout error => error.message
  | .operands error => error.message

namespace Word

/-- the number of words that a header word declares -/
def declaredCount (w : Word) : Nat := w.toNat / 65536

/-- the opcode in a header word -/
def opcode (w : Word) : UInt16 := .ofNat (w.toNat % 65536)

theorem declaredCount_lt (w : Word) : w.declaredCount < 65536 := by
  have := w.toNat_lt
  unfold declaredCount
  omega

theorem toNat_shiftRight_16 (w : Word) : (w >>> 16).toNat = w.declaredCount := by
  have h16 : (16 : UInt32).toNat % 32 = 16 := rfl
  rw [UInt32.toNat_shiftRight, h16, Nat.shiftRight_eq_div_pow]
  rfl

end Word

/-- A header word is what an instruction with its declared count and its opcode starts with. -/
theorem headerWord_declaredCount_opcode (w : Word) : headerWord w.declaredCount w.opcode = w := by
  have hopcode : w.opcode.toNat = w.toNat % 65536 := by
    have : w.toNat % 65536 < 65536 := Nat.mod_lt _ (by omega)
    exact Nat.mod_eq_of_lt this
  unfold headerWord Word.declaredCount
  rw [hopcode, Nat.div_add_mod', UInt32.ofNat_toNat]

theorem toNat_headerWord {count : Nat} (h : count < 65536) (opcode : UInt16) :
    (headerWord count opcode).toNat = count * 65536 + opcode.toNat := by
  have := opcode.toNat_lt
  rw [headerWord, UInt32.toNat_ofNat', Nat.mod_eq_of_lt (by omega)]

theorem declaredCount_headerWord {count : Nat} (h : count < 65536) (opcode : UInt16) :
    (headerWord count opcode).declaredCount = count := by
  have := opcode.toNat_lt
  rw [Word.declaredCount, toNat_headerWord h]
  omega

theorem opcode_headerWord {count : Nat} (h : count < 65536) (opcode : UInt16) :
    (headerWord count opcode).opcode = opcode := by
  have hlt := opcode.toNat_lt
  have hmod : (count * 65536 + opcode.toNat) % 65536 = opcode.toNat := by omega
  rw [Word.opcode, toNat_headerWord h, hmod, UInt16.ofNat_toNat]

/-- the instruction with this opcode and these operand words -/
def Instruction.decode (x : Expansion) (table : OpcodeTable) (opcode : UInt16) (words : List Word) :
    Except ReadError Instruction :=
  match Layout.resolve table opcode with
  | .error e => .error (.layout e)
  | .ok l =>
    match l.decode x words with
    | .error e => .error (.operands e)
    | .ok operands => .ok ⟨opcode, operands⟩

/-- the operand words that a header word declares, and the words behind them -/
def splitInstruction (header : Word) (rest : List Word) : Except ReadError (List Word × List Word) :=
  let count := header.declaredCount
  if count = 0 then .error .zeroWordCount
  else
    let body := rest.take (count - 1)
    if body.length + 1 = count then .ok (body, rest.drop (count - 1))
    else .error (.truncatedInstruction count (body.length + 1))

/-- a row of instructions on the way of being read -/
structure InstructionStream where
  /-- the words not yet read -/
  rest : List Word
  /-- how many words were read -/
  offset : Nat
deriving DecidableEq, Repr

namespace InstructionStream

def ofWords (words : List Word) : InstructionStream := ⟨words, 0⟩

/-- reads the instruction behind a header word -/
def readAfter (x : Expansion) (table : OpcodeTable) (header : Word) (rest : List Word) :
    Except ReadError (Instruction × List Word) :=
  match splitInstruction header rest with
  | .error e => .error e
  | .ok (body, rest) =>
    match Instruction.decode x table header.opcode body with
    | .error e => .error e
    | .ok i => .ok (i, rest)

/-- the next instruction or failure, and the stream behind it; nothing at the end -/
def next? (x : Expansion) (table : OpcodeTable) (s : InstructionStream) :
    Option (Except ReadError Instruction × InstructionStream) :=
  match s.rest with
  | [] => none
  | header :: rest =>
    match readAfter x table header rest with
    | .ok (i, rest) => some (.ok i, ⟨rest, s.offset + header.declaredCount⟩)
    | .error e => some (.error e, ⟨[], s.offset⟩)

theorem readAfter_le {x : Expansion} {table : OpcodeTable} {header : Word} {rest rest' : List Word}
    {i : Instruction} (h : readAfter x table header rest = .ok (i, rest')) : rest'.length ≤ rest.length := by
  unfold readAfter splitInstruction at h
  simp only at h
  grind

theorem next?_lt {x : Expansion} {table : OpcodeTable} {s t : InstructionStream}
    {r : Except ReadError Instruction} (h : s.next? x table = some (r, t)) : t.rest.length < s.rest.length := by
  unfold next? at h
  split at h
  · simp at h
  · rename_i hrest
    rw [hrest]
    split at h
    · rename_i hread
      obtain ⟨-, rfl⟩ := Prod.mk.inj (Option.some.inj h)
      have := readAfter_le hread
      simp only [List.length_cons]
      omega
    · obtain ⟨-, rfl⟩ := Prod.mk.inj (Option.some.inj h)
      simp

/-- one step of reading: what was read, from where, and up to which word -/
structure Step where
  before : InstructionStream
  result : Except ReadError Instruction
  after : InstructionStream

/-- all steps to the end of the stream -/
def steps (x : Expansion) (table : OpcodeTable) (s : InstructionStream) : Array Step := go #[] s
where
  go (done : Array Step) (s : InstructionStream) : Array Step :=
    match h : s.next? x table with
    | none => done
    | some (r, t) =>
      have := next?_lt h
      go (done.push ⟨s, r, t⟩) t
  termination_by s.rest.length

/-- the stream once nothing is left to read -/
def drain (x : Expansion) (table : OpcodeTable) (s : InstructionStream) : InstructionStream :=
  match h : s.next? x table with
  | none => s
  | some (_, t) =>
    have := next?_lt h
    drain x table t
termination_by s.rest.length

end InstructionStream

end Spirv
