/-
Reading a stored module. The bytes become words, the byte order is found out from the magic number, and instructions are
read behind the header. The reader keeps the position of the next instruction among all words of the module, so that a
failure can be reported with its place; after a failure it stands at the end.
-/
import Spirv.Grammar.Basic
import Spirv.Module.Header
import Spirv.InstructionStream

namespace Spirv

inductive ModuleError where
  | notWordAligned
  | truncatedHeader
  | badMagic (found : Word)
  /-- the instruction at this word of the module is malformed -/
  | malformed (position : Nat) (error : ReadError)
  | noSuchFile
deriving DecidableEq, Repr

def ModuleError.message : ModuleError → String
  | .notWordAligned => "malformed SPIR-V (not a multiple of 4 bytes)"
  | .truncatedHeader => "malformed SPIR-V (truncated header)"
  | .badMagic found => "malformed SPIR-V (incorrect magic number 0x" ++ Text.hexWord found ++ ")"
  | .malformed position error =>
    "malformed SPIR-V (at word " ++ position.repr ++ ": " ++ error.message ++ ")"
  | .noSuchFile => "No such file or directory (os error 2)"

structure ModuleReader where
  /-- the byte order that the module was stored in -/
  order : ByteOrder
  header : Header
  /-- all words of the module, in native order -/
  words : Array Word
  /-- where the next instruction starts -/
  position : Nat
deriving DecidableEq, Repr

namespace ModuleReader

def ofBytes (g : Grammar) (bytes : List UInt8) : Except ModuleError ModuleReader :=
  match Word.ofByteList? bytes with
  | none => .error .notWordAligned
  | some words =>
    match Header.ofWords? words with
    | none => .error .truncatedHeader
    | some stored =>
      match ByteOrder.ofFirst? g.magic stored.magic with
      | none => .error (.badMagic stored.magic)
      | some order =>
        let words := order.normalize words
        match Header.ofWords? words with
        | none => .error .truncatedHeader
        | some header => .ok ⟨order, header, words, Header.size⟩

/-- reads a file by its contents; there are none when the file does not exist -/
def ofFile (g : Grammar) (contents : Option (List UInt8)) : Except ModuleError ModuleReader :=
  match contents with
  | none => .error .noSuchFile
  | some bytes => ofBytes g bytes

/-- reads the instruction with the header word `header`, which stands at `position` -/
def readAt (x : Expansion) (table : OpcodeTable) (words : Array Word) (position : Nat) (header : Word) :
    Except ReadError Instruction :=
  let count := header.declaredCount
  if count = 0 then .error .zeroWordCount
  else if words.size - position < count then .error (.truncatedInstruction count (words.size - position))
  else Instruction.decode x table header.opcode (words.extract (position + 1) (position + count)).toList

/-- the next instruction or failure, and the reader behind it; nothing at the end -/
def next? (g : Grammar) (r : ModuleReader) : Option (Except ModuleError Instruction × ModuleReader) :=
  match r.words[r.position]? with
  | none => none
  | some header =>
    match readAt g.expand g.table r.words r.position header with
    | .ok i => some (.ok i, { r with position := r.position + header.declaredCount })
    | .error e => some (.error (.malformed r.position e), { r with position := r.words.size })

theorem declaredCount_pos {x : Expansion} {table : OpcodeTable} {words : Array Word} {position : Nat}
    {header : Word} {i : Instruction} (h : readAt x table words position header = .ok i) :
    0 < header.declaredCount := by
  unfold readAt at h
  simp only at h
  split at h
  · simp at h
  · omega

theorem next?_lt {g : Grammar} {r t : ModuleReader} {item : Except ModuleError Instruction}
    (h : r.next? g = some (item, t)) : t.words.size - t.position < r.words.size - r.position := by
  unfold next? at h
  split at h
  · simp at h
  · rename_i hget
    obtain ⟨hlt, -⟩ := Array.getElem?_eq_some_iff.mp hget
    split at h
    · rename_i hread
      have := declaredCount_pos hread
      obtain ⟨-, rfl⟩ := Prod.mk.inj (Option.some.inj h)
      simp only
      omega
    · obtain ⟨-, rfl⟩ := Prod.mk.inj (Option.some.inj h)
      simp only
      omega

/-- everything that is read up to the end -/
def items (g : Grammar) (r : ModuleReader) : Array (Except ModuleError Instruction) := go #[] r
where
  go (done : Array (Except ModuleError Instruction)) (r : ModuleReader) :
      Array (Except ModuleError Instruction) :=
    match h : r.next? g with
    | none => done
    | some (item, t) =>
      have := next?_lt h
      go (done.push item) t
  termination_by r.words.size - r.position

/-- the reader once nothing is left to read -/
def drain (g : Grammar) (r : ModuleReader) : ModuleReader :=
  match h : r.next? g with
  | none => r
  | some (_, t) =>
    have := next?_lt h
    drain g t
termination_by r.words.size - r.position

end ModuleReader

end Spirv
