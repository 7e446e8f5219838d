/-
The codec with its partial steps in the open. On its way the codec asks an operand type for its shape, takes the first word
of an operand, splits words at a count, cuts a part out of a row of words, counts bits in a byte, shifts a word and repeats
a step as long as something is left. Each of these is a step that cannot always be made. Here each is written with the
condition under which it can, and traps (`Trap`) where it cannot; nothing but what the codec checks on its way keeps it
from that.

So everything here is about unchecked data: operand types in place of kinds, a list of types in place of a layout, indices
and counts in place of lists that shrink. A refusal is the regular answer to a malformed input. It has no reason here, as
nothing that happens afterwards goes by it.

- `Outcome`: a result, a refusal or a trap, and how outcomes are put one behind the other.
- `Scan`: the set bits of a word, counted in a byte.
- `decode`, `encode`: the operands of one instruction.
- `decodeFirst`, `streamNext?`, `ofBytes`, `moduleNext?`: streams and modules; `after` and `answer?` are any number of calls.
- `pushInstruction`: writing.
-/
import Spirv.Module.Reader
import Spirv.Module.Writer

namespace Spirv

/-- a step that cannot be made -/
inductive Trap where
  /-- this type stands for no operand, and so no shape is known for it -/
  | noShape (type : OperandType)
  | noElement (index length : Nat)
  | outOfRange (start stop length : Nat)
  /-- as many elements are needed, and there are more or fewer -/
  | sizesDiffer (needed length : Nat)
  /-- a repetition that would not come to its end -/
  | noProgress
  /-- the sum is no byte -/
  | byteOverflow (a b : UInt8)
  /-- a shift by as many places as a word has, or more -/
  | shiftOverflow (places : Nat)
deriving DecidableEq, Repr

/-- what a computation with partial steps comes to -/
inductive Outcome (α : Type) where
  | done (a : α)
  | refused
  | trapped (trap : Trap)
deriving DecidableEq, Repr

namespace Outcome

variable {α β ε : Type}

def bind (o : Outcome α) (f : α → Outcome β) : Outcome β :=
  match o with
  | .done a => f a
  | .refused => .refused
  | .trapped trap => .trapped trap

instance : Monad Outcome where
  pure := done
  bind := bind

/-- a refusal as a result -/
def attempt : Outcome α → Outcome (Option α)
  | .done a => .done (some a)
  | .refused => .done none
  | .trapped trap => .trapped trap

/-- without the reason of a refusal -/
def ofResult : Except ε α → Outcome α
  | .ok a => .done a
  | .error _ => .refused

/-- an answer of a writer: what is wrong, if anything, and the writer afterwards -/
def ofFault : Option ε × α → Outcome α
  | (none, a) => .done a
  | (some _, _) => .refused

/-- no trap, and the result or refusal that `r` is -/
structure Follows (o : Outcome α) (r : Except ε α) : Prop where
  no_trap : ∀ trap, o ≠ .trapped trap
  eq : o = ofResult r

@[simp] theorem done_bind (a : α) (f : α → Outcome β) : done a >>= f = f a := rfl

theorem ofResult_bind (r : Except ε α) (f : α → Except ε β) :
    ofResult (r >>= f) = ofResult r >>= fun a => ofResult (f a) := by
  cases r <;> rfl

theorem ofResult_eq_refused {r : Except ε α} (h : ∀ a, r ≠ .ok a) : ofResult r = refused := by
  cases r with
  | ok a => exact absurd rfl (h a)
  | error e => rfl

theorem attempt_ofResult (r : Except ε α) : attempt (ofResult r) = done r.toOption := by
  cases r <;> rfl

theorem ofResult_ne_trapped (r : Except ε α) (trap : Trap) : ofResult r ≠ .trapped trap := by
  intro h
  cases r with
  | ok a => cases h
  | error e => cases h

theorem ofFault_ne_trapped (p : Option ε × α) (trap : Trap) : ofFault p ≠ .trapped trap := by
  intro h
  rcases p with ⟨_ | e, a⟩
  · cases h
  · cases h

theorem follows_iff {o : Outcome α} {r : Except ε α} : o.Follows r ↔ o = ofResult r := by
  refine ⟨Follows.eq, fun h => ⟨?_, h⟩⟩
  rw [h]
  exact ofResult_ne_trapped r

end Outcome

namespace Guarded

open Outcome

variable {α σ β : Type}

/-! ## Partial steps -/

def shapeOf (t : OperandType) : Outcome Shape :=
  match t.shape with
  | some shape => .done shape
  | none => .trapped (.noShape t)

def element (l : List α) (i : Nat) : Outcome α :=
  match l[i]? with
  | some a => .done a
  | none => .trapped (.noElement i l.length)

/-- the elements from the place `start` on, up to the place `stop` -/
def part (l : List α) (start stop : Nat) : Outcome (List α) :=
  if start ≤ stop ∧ stop ≤ l.length then .done ((l.take stop).drop start)
  else .trapped (.outOfRange start stop l.length)

def splitAt (l : List α) (n : Nat) : Outcome (List α × List α) :=
  if n ≤ l.length then .done (l.take n, l.drop n) else .trapped (.outOfRange 0 n l.length)

/-- puts a word over the first one -/
def setFirst (words : Array Word) (w : Word) : Outcome (Array Word) :=
  if h : 0 < words.size then .done (words.set 0 w) else .trapped (.noElement 0 words.size)

def addBytes (a b : UInt8) : Outcome UInt8 :=
  if a.toNat + b.toNat < 256 then .done (a + b) else .trapped (.byteOverflow a b)

def shiftRight (w : Word) (places : Nat) : Outcome Word :=
  if places < 32 then .done (w >>> .ofNat places) else .trapped (.shiftOverflow places)

/-- repeats a step as long as there is more, which there must be less of every time -/
def repeatWhile (more : σ → Bool) (size : σ → Nat) (step : σ → Outcome σ) (s : σ) : Outcome σ :=
  if more s then do
    let t ← step s
    if size t < size s then repeatWhile more size step t else .trapped .noProgress
  else .done s
termination_by size s

/-! ## Masks -/

/-- a scan through the bits of a word, with the number of those it has passed in a byte -/
structure Scan where
  rest : Word
  passed : UInt8
deriving DecidableEq, Repr

/-- shifts by any number of places; nothing is shifted when no bit would be left -/
def shiftOut (w : Word) (places : Nat) : Outcome Word := if places < 32 then shiftRight w places else .done 0

/-- the next set bit, and the scan behind it -/
def Scan.next? (s : Scan) : Outcome (Option (UInt8 × Scan)) :=
  if s.rest = 0 then .done none
  else do
    let zeros : UInt8 := .ofNat s.rest.trailingZeros
    let index ← addBytes s.passed zeros
    let width ← addBytes zeros 1
    let rest ← shiftOut s.rest width.toNat
    let passed ← addBytes s.passed width
    return some (index, ⟨rest, passed⟩)

/-- all set bits still ahead -/
def Scan.drain (s : Scan) : Outcome (List UInt8) := do
  match ← s.next? with
  | none => return []
  | some (i, t) =>
    if t.rest.toNat < s.rest.toNat then return i :: (← t.drain) else .trapped .noProgress
termination_by s.rest.toNat

def setBits (w : Word) : Outcome (List UInt8) := Scan.drain ⟨w, 0⟩

/-- the definition of a bit; a table has none for what is no bit of a word -/
def bit? (t : MaskTable Kind) (i : UInt8) : Option (BitDef Kind) :=
  if h : i.toNat < 32 then t.bit? ⟨i.toNat, h⟩ else none

/-- the types that an operand of this type, with these words, asks for -/
def asked (g : Grammar) (t : OperandType) (words : List Word) : Outcome (List OperandType) :=
  if t.isConcreteMask then do
    let w ← element words 0
    match g.maskTable? t with
    | none => return []
    | some table =>
      let bits ← setBits w
      return ((bits.filterMap (bit? table)).flatMap (·.params)).map Kind.type
  else .done []

/-! ## Layouts -/

/-- how often and with what concrete type each place of a layout is filled; types that stand for no operand have no place -/
def places (types : List OperandType) : List (Presence × OperandType) :=
  types.filterMap fun t => t.slot?.bind fun slot => t.base.map fun base => (slot.presence, base)

/-! ## Decoding -/

/-- splits off the words of one operand -/
def takeWords (t : OperandType) (words : List Word) : Outcome (List Word × List Word) :=
  if words.isEmpty then .refused
  else do
    let length ← match ← shapeOf t with
      | .fixed n => .done n
      | .terminated =>
        match words.findIdx? (·.hasZeroByte) with
        | some i => .done (i + 1)
        | none => .refused
    if words.length < length then .refused else splitAt words length

/-- takes one operand of each type; what an operand asks for comes before the types behind it -/
def takeEach (g : Grammar) : List OperandType → Decoder → Outcome Decoder
  | [], d => .done d
  | t :: ts, d => do
    let (words, rest) ← takeWords t d.rest
    let types ← asked g t words
    if rest.length < d.rest.length then takeEach g (types ++ ts) ⟨rest, d.operands.push ⟨t, words⟩⟩
    else .trapped .noProgress
termination_by _ d => d.rest.length

/-- goes through the places, up to the last word -/
def takeAll (g : Grammar) : List (Presence × OperandType) → Decoder → Outcome Decoder
  | [], d => if d.rest.isEmpty then .done d else .refused
  | (.required, t) :: ps, d => do takeAll g ps (← takeEach g [t] d)
  | (.optional, t) :: ps, d =>
    if d.rest.isEmpty then takeAll g ps d else do takeAll g ps (← takeEach g [t] d)
  | (.repeated, t) :: ps, d => do
    takeAll g ps (← repeatWhile (!·.rest.isEmpty) (·.rest.length) (takeEach g [t]) d)

/-- the operands in the words of one instruction, its header word left out -/
def decode (g : Grammar) (types : List OperandType) (words : List Word) : Outcome (List Operand) := do
  let d ← takeAll g (places types) ⟨words, #[]⟩
  return d.operands.toList

/-! ## Encoding -/

/-- the words of an operand, when they fit its type -/
def wordsOf (o : Operand) : Outcome (List Word) := do
  match ← shapeOf o.type with
  | .fixed n => if o.words.length = n then return o.words else .refused
  | .terminated =>
    match o.words.findIdx? (·.hasZeroByte) with
    | some i => if i + 1 = o.words.length then return o.words else .refused
    | none => .refused

/-- puts one operand of each type; what an operand asks for comes before the types behind it -/
def putEach (g : Grammar) : List OperandType → Encoder → Outcome Encoder
  | [], e => .done e
  | t :: ts, e =>
    match h : e.rest with
    | [] => .refused
    | o :: rest =>
      if o.type ≠ t then .refused
      else do
        let words ← wordsOf o
        let types ← asked g t o.words
        have : rest.length < e.rest.length := by rw [h]; simp
        putEach g (types ++ ts) ⟨rest, e.words ++ words⟩
termination_by _ e => e.rest.length

/-- goes through the places from the place `i` on, up to the last operand -/
def putAll (g : Grammar) (all : List (Presence × OperandType)) : Nat → List (Presence × OperandType) → Encoder →
    Outcome Encoder
  | _, [], e => if e.rest.isEmpty then .done e else .refused
  | i, (.required, t) :: ps, e => do putAll g all (i + 1) ps (← putEach g [t] e)
  | i, (.optional, t) :: ps, e =>
    match e.rest.head? with
    | none => do
      let later ← part all (i + 1) all.length
      if later.any (·.1 = .required) then .refused else putAll g all (i + 1) ps e
    | some o =>
      if o.type = t then do putAll g all (i + 1) ps (← putEach g [t] e)
      else do
        -- whether the operand belongs further behind is looked up, and makes no difference but for the reason
        let _ ← part all (i + 1) all.length
        .refused
  | i, (.repeated, t) :: ps, e => do
    putAll g all (i + 1) ps
      (← repeatWhile (·.rest.head?.map (·.type) = some t) (·.rest.length) (putEach g [t]) e)

/-- all words of one instruction; the header word is put in when the number of words is known -/
def encode (g : Grammar) (opcode : UInt16) (types : List OperandType) (operands : List Operand) :
    Outcome (Array Word) := do
  let e ← putAll g (places types) 0 (places types) ⟨operands, #[0]⟩
  let total := e.words.size
  if total < 65536 then setFirst e.words (headerWord total opcode) else .refused

/-! ## Streams and modules -/

/-- the first instruction of these words, and how many of them it takes -/
def decodeFirst (g : Grammar) (table : OpcodeTable) (words : List Word) : Outcome (Instruction × Nat) :=
  match words.head? with
  | none => .refused
  | some header =>
    let count := header.declaredCount
    if count = 0 then .refused
    else if words.length < count then .refused
    else do
      let l ← ofResult (Layout.resolve table header.opcode)
      let body ← part words 1 count
      let operands ← decode g l.types body
      return (⟨header.opcode, operands⟩, count)

/-- the next instruction or failure, and the stream behind it; nothing at the end -/
def streamNext? (g : Grammar) (table : OpcodeTable) (s : InstructionStream) :
    Outcome (Option (Option Instruction × InstructionStream)) :=
  if s.rest.isEmpty then .done none
  else do
    match ← attempt (decodeFirst g table s.rest) with
    | some (i, count) =>
      let rest ← part s.rest count s.rest.length
      return some (some i, ⟨rest, s.offset + count⟩)
    | none => return some (none, ⟨[], s.offset⟩)

/-- copies words to the places of a header -/
def headerOf : List Word → Outcome Header
  | [magic, version, generator, bound, schema] => .done ⟨magic, version, generator, bound, schema⟩
  | words => .trapped (.sizesDiffer Header.size words.length)

def ofBytes (g : Grammar) (bytes : List UInt8) : Outcome ModuleReader :=
  match Word.ofByteList? bytes with
  | none => .refused
  | some stored =>
    if stored.size < Header.size then .refused
    else do
      let first ← element stored.toList 0
      match ByteOrder.ofFirst? g.magic first with
      | none => .refused
      | some order =>
        let words := order.normalize stored
        let header ← headerOf (← part words.toList 0 Header.size)
        return ⟨order, header, words, Header.size⟩

/-- the next instruction or failure, and the reader behind it; nothing at the end or behind it -/
def moduleNext? (g : Grammar) (r : ModuleReader) : Outcome (Option (Option Instruction × ModuleReader)) :=
  let words := r.words.toList.drop r.position
  if words.isEmpty then .done none
  else do
    match ← attempt (decodeFirst g g.table words) with
    | some (i, count) => return some (some i, { r with position := r.position + count })
    | none => return some (none, { r with position := r.words.size })

/-- what is read from after this many calls; a call at the end leaves it as it is -/
def after (next? : σ → Outcome (Option (β × σ))) (s : σ) : Nat → Outcome σ
  | 0 => .done s
  | n + 1 => do
    let t ← after next? s n
    match ← next? t with
    | none => return t
    | some (_, u) => return u

/-- what the call after this many others answers -/
def answer? (next? : σ → Outcome (Option (β × σ))) (s : σ) (n : Nat) : Outcome (Option β) := do
  return (← next? (← after next? s n)).map (·.1)

/-! ## Writing -/

/-- appends an instruction, with the layout that its opcode has in the grammar -/
def pushInstruction (g : Grammar) (i : Instruction) (m : ModuleWriter) : Outcome ModuleWriter := do
  let l ← ofResult (g.layout i.opcode)
  let words ← encode g l.opcode l.types i.operands
  return m.append words

end Guarded

end Spirv
