/-
Encoding: the words of one instruction, from its operands. The encoder goes through the layout with the operands still
ahead of it, and goes by their types: an optional field is filled when the next operand has its type, and may be left out
only when no operand follows; the repeated tail takes operands as long as they have its type. What a mask asks for must
follow it in order. The header word holds the number of words in its upper half and the opcode in its lower half.
-/
import Spirv.Decode
import Spirv.Text.Hex

namespace Spirv

inductive EncodeError where
  /-- a mask asks for an operand that does not follow; `found` is what follows instead, if anything -/
  | maskOperandMismatch (mask : MaskKind) (word : Word) (expected : Kind) (found : Option OperandType)
  /-- an optional operand is left out although something behind it is required or given -/
  | illegalOptionalOmission (omitted next : Kind)
  | missingOperand (expected : Kind)
  | unexpectedOperand (expected : Kind) (found : OperandType)
  /-- operands are left behind the last place of the layout -/
  | excessOperands (first : OperandType) (count : Nat)
  | wordCountMismatch (kind : Kind) (found : Nat)
  | unterminatedString
  | wordCountOverflow (total : Nat)
deriving DecidableEq, Repr

def EncodeError.message : EncodeError → String
  | .maskOperandMismatch mask word expected found =>
    (Kind.mask mask).name ++ " 0x" ++ Text.hexWord word ++ " implies a " ++ expected.name ++ " operand, found " ++
      match found with
      | none => "None"
      | some type => "Some(" ++ type.name ++ ")"
  | .illegalOptionalOmission omitted next =>
    "omitting optional " ++ omitted.name ++ " is illegal when followed by " ++ next.name
  | .missingOperand expected => "ran out of operands, expected " ++ expected.name
  | .unexpectedOperand expected found => "expected " ++ expected.name ++ " operand, found " ++ found.name
  | .excessOperands first count => count.repr ++ " operand(s) left over, starting with " ++ first.name
  | .wordCountMismatch kind found => kind.name ++ " operand cannot have " ++ found.repr ++ " word(s)"
  | .unterminatedString => "missing \\0 terminator in LiteralString"
  | .wordCountOverflow total =>
    "word count of SPIR-V instruction (" ++ total.repr ++ ") doesn't fit in 16 bits"

/-- what is wrong with these words as those of one operand -/
def Kind.wordsFault? (k : Kind) (words : List Word) : Option EncodeError :=
  match k.shape with
  | .fixed n => if words.length = n then none else some (.wordCountMismatch k words.length)
  | .terminated =>
    match words.dropWhile (!·.hasZeroByte) with
    | [] => some .unterminatedString
    | [_] => none
    | _ :: _ :: _ => some (.wordCountMismatch k words.length)

/-- an operand that has to come next, and the mask that asks for it -/
structure Demand where
  kind : Kind
  source : Option (MaskKind × Word)
deriving DecidableEq, Repr

namespace Demand

/-- the demand of a layout -/
def plain (k : Kind) : Demand := ⟨k, none⟩

@[simp] theorem kind_plain (k : Kind) : (plain k).kind = k := rfl

/-- what follows an operand of kind `k` with these words -/
def follow (x : Expansion) (k : Kind) (words : List Word) : List Demand :=
  match k, words with
  | .mask m, w :: _ => (x m w).map (⟨·, some (m, w)⟩)
  | _, _ => []

/-- the error when this is found instead -/
def unmet (d : Demand) (found : Option OperandType) : EncodeError :=
  match d.source, found with
  | some (m, w), found => .maskOperandMismatch m w d.kind found
  | none, none => .missingOperand d.kind
  | none, some type => .unexpectedOperand d.kind type

theorem map_kind_follow (x : Expansion) (k : Kind) (words : List Word) :
    (follow x k words).map (·.kind) = k.follow x words := by
  unfold follow Kind.follow
  split <;> simp [Function.comp_def]

end Demand

/-- an encoder on its way through the operands of an instruction -/
structure Encoder where
  /-- the operands not yet encoded -/
  rest : List Operand
  /-- the words encoded so far -/
  words : Array Word
deriving DecidableEq, Repr

/-- why encoding stopped, and what was encoded until then -/
structure EncodeStop where
  error : EncodeError
  encoder : Encoder
deriving DecidableEq, Repr

namespace Encoder

/-- puts one operand for each demand; what an operand implies comes before the demands behind it -/
def putEach (x : Expansion) : List Demand → Encoder → Except EncodeStop Encoder
  | [], e => .ok e
  | d :: ds, e =>
    match h : e.rest with
    | [] => .error ⟨d.unmet none, e⟩
    | o :: rest =>
      if o.type ≠ d.kind.type then .error ⟨d.unmet (some o.type), e⟩
      else
        match d.kind.wordsFault? o.words with
        | some fault => .error ⟨fault, e⟩
        | none =>
          have : rest.length < e.rest.length := by rw [h]; simp
          putEach x (Demand.follow x d.kind o.words ++ ds) ⟨rest, e.words ++ o.words⟩
termination_by _ e => e.rest.length

/-- puts one operand of the kind, and those that it implies -/
def put (x : Expansion) (k : Kind) (e : Encoder) : Except EncodeStop Encoder := putEach x [.plain k] e

/-- goes through the fields; `tail` is the kind repeated behind them -/
def putFields (x : Expansion) (tail : Option Kind) : List Field → Encoder → Except EncodeStop Encoder
  | [], e => .ok e
  | f :: fs, e =>
    if f.optional then
      match e.rest.head? with
      | some o =>
        if o.type = f.kind.type then
          match put x f.kind e with
          | .error stop => .error stop
          | .ok e => putFields x tail fs e
        else
          match (fs.map (·.kind) ++ tail.toList).find? (·.type = o.type) with
          | some next => .error ⟨.illegalOptionalOmission f.kind next, e⟩
          | none => .error ⟨.unexpectedOperand f.kind o.type, e⟩
      | none =>
        match fs.find? (!·.optional) with
        | some required => .error ⟨.illegalOptionalOmission f.kind required.kind, e⟩
        | none => putFields x tail fs e
    else
      match put x f.kind e with
      | .error stop => .error stop
      | .ok e => putFields x tail fs e

theorem putEach_le {x : Expansion} {ds : List Demand} {e e' : Encoder} (h : putEach x ds e = .ok e') :
    e'.rest.length ≤ e.rest.length := by
  fun_induction putEach x ds e with
  | case1 e => obtain rfl := Except.ok.inj h; exact Nat.le_refl _
  | case2 => simp at h
  | case3 => simp at h
  | case4 => simp at h
  | case5 =>
    rename_i ih
    have := ih h
    simp only at this
    omega

theorem put_lt {x : Expansion} {k : Kind} {e e' : Encoder} (h : put x k e = .ok e') :
    e'.rest.length < e.rest.length := by
  unfold put putEach at h
  split at h
  · simp at h
  · rename_i hrest
    split at h
    · simp at h
    · split at h
      · simp at h
      · have := putEach_le h
        rw [hrest]
        simp only [List.length_cons] at this ⊢
        omega

/-- puts operands as long as they are of the kind -/
def putRepeated (x : Expansion) (k : Kind) (e : Encoder) : Except EncodeStop Encoder :=
  if e.rest.head?.map (·.type) = some k.type then
    match h : put x k e with
    | .error stop => .error stop
    | .ok e' =>
      have := put_lt h
      putRepeated x k e'
  else .ok e
termination_by e.rest.length

/-- goes through the whole layout, up to the last operand -/
def run (x : Expansion) (l : Layout) (e : Encoder) : Except EncodeStop Encoder := do
  let e ← putFields x l.tail l.fields e
  let e ← match l.tail with
    | none => pure e
    | some k => putRepeated x k e
  match e.rest with
  | [] => return e
  | o :: rest => throw ⟨.excessOperands o.type (rest.length + 1), e⟩

end Encoder

/-- the first word of an instruction with this many words -/
def headerWord (wordCount : Nat) (opcode : UInt16) : Word :=
  .ofNat (wordCount * 65536 + opcode.toNat)

theorem headerWord_eq_or {count : Nat} (h : count < 65536) (opcode : UInt16) :
    headerWord count opcode = (UInt32.ofNat count <<< 16) ||| opcode.toUInt32 := by
  have hopcode := opcode.toNat_lt
  have hor := Nat.shiftLeft_add_eq_or_of_lt (i := 16) (b := opcode.toNat) (by omega) count
  have h16 : (16 : UInt32).toNat % 32 = 16 := rfl
  rw [Nat.shiftLeft_eq] at hor
  rw [← UInt32.toNat_inj, UInt32.toNat_or, UInt32.toNat_shiftLeft, UInt16.toNat_toUInt32, h16, Nat.shiftLeft_eq]
  simp only [headerWord, UInt32.toNat_ofNat']
  rw [Nat.mod_eq_of_lt (a := count) (by omega), Nat.mod_eq_of_lt (a := count * 2 ^ 16) (by omega), ← hor]
  omega

namespace Layout

/-- the words of the operands, without a header word -/
def encodeOperands (x : Expansion) (l : Layout) (operands : List Operand) : Except EncodeError (Array Word) :=
  match Encoder.run x l ⟨operands, #[]⟩ with
  | .ok e => .ok e.words
  | .error stop => .error stop.error

/-- all words of one instruction, the header word first -/
def encode (x : Expansion) (l : Layout) (operands : List Operand) : Except EncodeError (Array Word) :=
  match l.encodeOperands x operands with
  | .error e => .error e
  | .ok words =>
    let total := words.size + 1
    if total < 65536 then .ok (#[headerWord total l.opcode] ++ words) else .error (.wordCountOverflow total)

end Layout

end Spirv
