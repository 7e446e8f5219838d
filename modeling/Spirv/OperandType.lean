/-
Operand types: a kind together with how often it occurs, or one of three markers that stand for no operand. Types have a
number of their own. With `n` kinds, 0 is `absent`, the required kinds follow, then the optional ones, then the repeated
ones, then the `bound`; `reserved` is far outside. `ofCode?` reads the number and `code` writes it.
-/
import Spirv.Kind

namespace Spirv

/-- how often an operand occurs -/
inductive Presence where
  | required
  /-- present when the instruction has words left -/
  | optional
  /-- present as long as the instruction has words left -/
  | repeated
deriving DecidableEq, Repr

/-- the block of the numbering that holds the types of this presence -/
def Presence.block : Presence → Nat
  | .required => 0
  | .optional => 1
  | .repeated => 2

def Presence.name : Presence → String
  | .required => "Required"
  | .optional => "Optional"
  | .repeated => "Variable"

/-- one place of an instruction's layout -/
structure Slot where
  presence : Presence
  kind : Kind
deriving DecidableEq, Repr

inductive OperandType where
  /-- marks that there is no operand -/
  | absent
  | operand (slot : Slot)
  /-- one past the last operand type -/
  | bound
  /-- keeps the numbering as wide as a word -/
  | reserved
deriving DecidableEq, Repr

/-- a number that no operand type has -/
structure UnknownCode where
  code : Word
deriving DecidableEq, Repr

def UnknownCode.message (e : UnknownCode) : String :=
  "operand type " ++ e.code.toNat.repr ++ " is outside the operand type enumeration"

/-- the type of an operand that is there exactly once -/
def Kind.type (k : Kind) : OperandType := .operand ⟨.required, k⟩

namespace OperandType

/-! ## Numbering -/

def code : OperandType → Nat
  | .absent => 0
  | .operand ⟨.required, k⟩ => k.number
  | .operand ⟨.optional, k⟩ => Kind.count + k.number
  | .operand ⟨.repeated, k⟩ => 2 * Kind.count + k.number
  | .bound => 3 * Kind.count + 1
  | .reserved => 0x7fffffff

def ofCode? (w : Word) : Except UnknownCode OperandType :=
  let n := w.toNat
  if n = 0 then .ok .absent
  else if n = 3 * Kind.count + 1 then .ok .bound
  else if n = 0x7fffffff then .ok .reserved
  else
    let presence? : Option Presence := match (n - 1) / Kind.count with
      | 0 => some .required
      | 1 => some .optional
      | 2 => some .repeated
      | _ => none
    match presence?, Kind.ofNumber? ((n - 1) % Kind.count + 1) with
    | some p, some k => .ok (.operand ⟨p, k⟩)
    | _, _ => .error ⟨w⟩

/-- every type that stands for an operand, in the order of the numbering -/
def all : List OperandType :=
  [Presence.required, .optional, .repeated].flatMap fun p => Kind.all.map fun k => .operand ⟨p, k⟩

theorem mem_all (s : Slot) : .operand s ∈ all := by
  obtain ⟨p, k⟩ := s
  refine List.mem_flatMap.mpr ⟨p, by cases p <;> simp, ?_⟩
  exact List.mem_map.mpr ⟨k, Kind.mem_all k, rfl⟩

theorem code_operand (s : Slot) : (operand s).code = s.presence.block * Kind.count + s.kind.number := by
  obtain ⟨presence, k⟩ := s
  cases presence <;> simp [code, Presence.block]

/-- Behind the first number, the quotient by the number of kinds is the block of the presence. -/
theorem code_div (s : Slot) : ((operand s).code - 1) / Kind.count = s.presence.block := by
  have hnumber := s.kind.number_bounds
  rw [code_operand]
  simp only [Kind.count] at hnumber ⊢
  omega

/-- The remainder is the place of the kind in its block. -/
theorem code_mod (s : Slot) : ((operand s).code - 1) % Kind.count + 1 = s.kind.number := by
  have hnumber := s.kind.number_bounds
  rw [code_operand]
  simp only [Kind.count] at hnumber ⊢
  omega

theorem code_bounds (s : Slot) : 1 ≤ (operand s).code ∧ (operand s).code ≤ 3 * Kind.count := by
  have hnumber := s.kind.number_bounds
  have hblock : s.presence.block ≤ 2 := by cases s.presence <;> decide
  rw [code_operand]
  simp only [Kind.count] at hnumber ⊢
  omega

/-- Reading a type's number gives the type back. -/
theorem ofCode?_code (t : OperandType) : ofCode? (.ofNat t.code) = .ok t := by
  cases t with
  | operand s =>
    have hbounds := code_bounds s
    simp only [Kind.count] at hbounds
    have htoNat : (UInt32.ofNat (operand s).code).toNat = (operand s).code := by
      rw [UInt32.toNat_ofNat']
      omega
    rw [ofCode?, htoNat, if_neg (by omega), if_neg (by simp only [Kind.count]; omega), if_neg (by omega), code_div,
      code_mod, Kind.ofNumber?_number]
    obtain ⟨presence, k⟩ := s
    cases presence <;> rfl
  | _ => rfl

/-- in the order of the numbering, each type once -/
def sortDistinct (types : List OperandType) : List OperandType :=
  (types.mergeSort fun a b => decide (a.code ≤ b.code)).eraseReps

/-! ## Classification -/

def slot? : OperandType → Option Slot
  | .operand s => some s
  | _ => none

theorem eq_operand_of_slot? {t : OperandType} {s : Slot} (h : t.slot? = some s) : t = .operand s := by
  cases t with
  | operand => rw [Option.some.inj h]
  | _ => simp [slot?] at h

/-- the kind that is left when the presence is forgotten -/
def kind? (t : OperandType) : Option Kind := t.slot?.map (·.kind)

/-- the kind of a type that is required -/
def concrete? : OperandType → Option Kind
  | .operand ⟨.required, k⟩ => some k
  | _ => none

def base (t : OperandType) : Option OperandType := t.kind?.map Kind.type

def isConcrete (t : OperandType) : Bool := t.concrete?.isSome

/-- repeated types count as optional, because no repetition is also allowed -/
def isOptional (t : OperandType) : Bool := t.slot?.any (·.presence ≠ .required)

def isRepeated (t : OperandType) : Bool := t.slot?.any (·.presence = .repeated)

def maskKind? : OperandType → Option MaskKind
  | .operand ⟨.required, .mask m⟩ => some m
  | _ => none

def enumKind? : OperandType → Option EnumKind
  | .operand ⟨.required, .enum e⟩ => some e
  | _ => none

theorem maskKind?_eq_some_iff {t : OperandType} {m : MaskKind} : t.maskKind? = some m ↔ t = Kind.type (.mask m) := by
  cases t with
  | operand s =>
    obtain ⟨presence, k⟩ := s
    cases presence <;> cases k <;> simp [maskKind?, Kind.type]
  | _ => simp [maskKind?, Kind.type]

theorem enumKind?_eq_some_iff {t : OperandType} {e : EnumKind} : t.enumKind? = some e ↔ t = Kind.type (.enum e) := by
  cases t with
  | operand s =>
    obtain ⟨presence, k⟩ := s
    cases presence <;> cases k <;> simp [enumKind?, Kind.type]
  | _ => simp [enumKind?, Kind.type]

def isConcreteMask (t : OperandType) : Bool := t.maskKind?.isSome

/-- the optional form of a concrete type -/
def optional : OperandType → Option OperandType
  | .operand ⟨.required, k⟩ => some (.operand ⟨.optional, k⟩)
  | _ => none

/-- the repeated form of a concrete type or of its optional form -/
def repeated : OperandType → Option OperandType
  | .operand ⟨.repeated, _⟩ => none
  | .operand ⟨_, k⟩ => some (.operand ⟨.repeated, k⟩)
  | _ => none

/-- the types of the two halves of a concrete pair -/
def halves : OperandType → Option (OperandType × OperandType)
  | .operand ⟨.required, .pair p⟩ => some (p.halves.1.type, p.halves.2.type)
  | _ => none

def cls (t : OperandType) : Option KindClass := t.kind?.map Kind.cls

def shape (t : OperandType) : Option Shape := t.kind?.map Kind.shape

/-! ## Names -/

def name : OperandType → String
  | .absent => "None"
  | .operand ⟨.required, k⟩ => k.name
  | .operand ⟨.optional, k⟩ => "Optional(" ++ k.name ++ ")"
  | .operand ⟨.repeated, k⟩ => "Variable(" ++ k.name ++ ")"
  | .bound => "NumOperandTypes"
  | .reserved => "Force32Bit"

/-- the types and the markers, under their names -/
def ofName? (s : String) : Option OperandType :=
  (.absent :: .bound :: .reserved :: all).find? (·.name = s)

/-- the name used towards a reader; repeated types and markers have none -/
def description : OperandType → String
  | .operand ⟨.repeated, _⟩ => "unknown"
  | .operand ⟨_, k⟩ => k.description
  | _ => "unknown"

/-- the name in grammars, which only concrete types have -/
def grammarName (t : OperandType) : Option String := t.concrete?.map Kind.name

end OperandType

end Spirv
