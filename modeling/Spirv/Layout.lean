/-
Layouts: which operands an instruction takes, in order. Fields come first, each required or optional; at the end one
kind may be repeated. A list of operand types is a layout when every type stands for an operand and only the last one is
repeated; `Layout.ofTypes` reports the first type that breaks this. Opcode tables hold unchecked lists, so a layout is
checked when it is taken from a table.
-/
import Spirv.Operand

namespace Spirv

inductive LayoutError where
  | unknownOpcode (opcode : UInt16)
  | notAnOperand (type : OperandType)
  | repeatedNotLast (position : Nat)
deriving DecidableEq, Repr

def LayoutError.message : LayoutError → String
  | .unknownOpcode opcode => "unsupported opcode " ++ opcode.toNat.repr
  | .notAnOperand type => type.name ++ " cannot be used as an operand type"
  | .repeatedNotLast position =>
    "variable operand at position " ++ position.repr ++ " must be the last operand"

/-- a place that is taken at most once -/
structure Field where
  kind : Kind
  optional : Bool
deriving DecidableEq, Repr

def Field.slot (f : Field) : Slot := ⟨if f.optional then .optional else .required, f.kind⟩

structure Layout where
  opcode : UInt16
  fields : List Field
  /-- the kind repeated at the end -/
  tail : Option Kind
deriving DecidableEq, Repr

/-- a source of operand types per opcode -/
abbrev OpcodeTable := UInt16 → Option (List OperandType)

namespace Layout

/-- the layout with one more field in front -/
def cons (f : Field) (l : Layout) : Layout := { l with fields := f :: l.fields }

/-- reads types as a layout; `position` is that of the first of them -/
def ofTypesFrom (opcode : UInt16) : Nat → List OperandType → Except LayoutError Layout
  | _, [] => .ok ⟨opcode, [], none⟩
  | position, type :: rest =>
    match type.slot?, rest with
    | none, _ => .error (.notAnOperand type)
    | some ⟨.repeated, k⟩, [] => .ok ⟨opcode, [], some k⟩
    | some ⟨.repeated, _⟩, _ :: _ => .error (.repeatedNotLast position)
    | some ⟨.optional, k⟩, rest => (ofTypesFrom opcode (position + 1) rest).map (cons ⟨k, true⟩)
    | some ⟨.required, k⟩, rest => (ofTypesFrom opcode (position + 1) rest).map (cons ⟨k, false⟩)

def ofTypes (opcode : UInt16) (types : List OperandType) : Except LayoutError Layout :=
  ofTypesFrom opcode 0 types

/-- the layout of an opcode, out of a table -/
def resolve (table : OpcodeTable) (opcode : UInt16) : Except LayoutError Layout :=
  match table opcode with
  | none => .error (.unknownOpcode opcode)
  | some types => ofTypes opcode types

/-- all places in order -/
def slots (l : Layout) : List Slot :=
  l.fields.map Field.slot ++ (l.tail.map (Slot.mk .repeated)).toList

def types (l : Layout) : List OperandType := l.slots.map .operand

/-- the fewest operand words of an instruction with this layout -/
def minWordCount (l : Layout) : Nat :=
  ((l.fields.filter (!·.optional)).map (·.kind.minWords)).foldr (· + ·) 0

/-- A property of all layouts goes from a layout without fields to one with a field more in front. -/
@[elab_as_elim] theorem cons_induction {motive : Layout → Prop} (empty : ∀ opcode tail, motive ⟨opcode, [], tail⟩)
    (cons : ∀ f l, motive l → motive (cons f l)) (l : Layout) : motive l := by
  obtain ⟨opcode, fields, tail⟩ := l
  induction fields with
  | nil => exact empty opcode tail
  | cons f fs ih => exact cons f _ ih

@[simp] theorem types_cons (f : Field) (l : Layout) : (cons f l).types = .operand f.slot :: l.types := rfl

@[simp] theorem fields_cons (f : Field) (l : Layout) : (cons f l).fields = f :: l.fields := rfl

@[simp] theorem tail_cons (f : Field) (l : Layout) : (cons f l).tail = l.tail := rfl

theorem map_cons_eq_ok {f : Field} {r : Except LayoutError Layout} {l : Layout} (h : r.map (cons f) = .ok l) :
    ∃ m, r = .ok m ∧ l = cons f m := by
  cases r with
  | error => simp [Except.map] at h
  | ok m => exact ⟨m, rfl, (Except.ok.inj h).symm⟩

theorem types_of_ofTypesFrom {opcode : UInt16} {position : Nat} {types : List OperandType} {l : Layout}
    (h : ofTypesFrom opcode position types = .ok l) : l.opcode = opcode ∧ l.types = types := by
  fun_induction ofTypesFrom opcode position types generalizing l with
  | case1 => obtain rfl := Except.ok.inj h; exact ⟨rfl, rfl⟩
  | case2 => simp at h
  | case3 position type k hslot =>
    obtain rfl := Except.ok.inj h
    rw [OperandType.eq_operand_of_slot? hslot]
    exact ⟨rfl, rfl⟩
  | case4 => simp at h
  | case5 position type k rest hslot ih =>
    obtain ⟨m, hm, rfl⟩ := map_cons_eq_ok h
    rw [OperandType.eq_operand_of_slot? hslot, types_cons, (ih hm).2]
    exact ⟨(ih hm).1, rfl⟩
  | case6 position type k rest hslot ih =>
    obtain ⟨m, hm, rfl⟩ := map_cons_eq_ok h
    rw [OperandType.eq_operand_of_slot? hslot, types_cons, (ih hm).2]
    exact ⟨(ih hm).1, rfl⟩

theorem ofTypesFrom_types (l : Layout) (position : Nat) : ofTypesFrom l.opcode position l.types = .ok l := by
  induction l using cons_induction generalizing position with
  | empty opcode tail => cases tail <;> rfl
  | cons f l ih =>
    obtain ⟨k, optional⟩ := f
    cases optional with
    | true => exact congrArg (Except.map (cons ⟨k, true⟩)) (ih (position + 1))
    | false => exact congrArg (Except.map (cons ⟨k, false⟩)) (ih (position + 1))

/-- The accepted layouts are the values of this type, and a layout is determined by its opcode and its types. -/
theorem ofTypes_eq_ok_iff {opcode : UInt16} {types : List OperandType} {l : Layout} :
    ofTypes opcode types = .ok l ↔ l.opcode = opcode ∧ l.types = types := by
  refine ⟨types_of_ofTypesFrom, ?_⟩
  rintro ⟨rfl, rfl⟩
  exact ofTypesFrom_types l 0

theorem exists_map_cons_iff {f : Field} {r : Except LayoutError Layout} :
    (∃ l, r.map (cons f) = .ok l) ↔ ∃ m, r = .ok m := by
  refine ⟨?_, ?_⟩
  · rintro ⟨l, h⟩
    obtain ⟨m, hm, -⟩ := map_cons_eq_ok h
    exact ⟨m, hm⟩
  · rintro ⟨m, rfl⟩
    exact ⟨cons f m, rfl⟩

theorem exists_ofTypesFrom_iff {opcode : UInt16} {position : Nat} {slots : List Slot} :
    (∃ l, ofTypesFrom opcode position (slots.map .operand) = .ok l) ↔ ∀ s ∈ slots.dropLast, s.presence ≠ .repeated := by
  induction slots generalizing position with
  | nil => exact iff_of_true ⟨_, rfl⟩ (by simp)
  | cons s slots ih =>
    obtain ⟨presence, k⟩ := s
    cases slots with
    | nil => exact iff_of_true (by cases presence <;> exact ⟨_, rfl⟩) (by simp)
    | cons s slots =>
      rw [List.dropLast_cons_cons, List.forall_mem_cons, ← @ih (position + 1)]
      cases presence with
      | repeated => simp [ofTypesFrom, OperandType.slot?]
      | required => simp [ofTypesFrom, OperandType.slot?, exists_map_cons_iff]
      | optional => simp [ofTypesFrom, OperandType.slot?, exists_map_cons_iff]

/-- Types of operands are a layout when only the last of them is repeated. -/
theorem exists_ofTypes_iff {opcode : UInt16} {slots : List Slot} :
    (∃ l, ofTypes opcode (slots.map .operand) = .ok l) ↔ ∀ s ∈ slots.dropLast, s.presence ≠ .repeated :=
  exists_ofTypesFrom_iff

theorem opcode_of_resolve {table : OpcodeTable} {opcode : UInt16} {l : Layout} (h : resolve table opcode = .ok l) :
    l.opcode = opcode := by
  unfold resolve at h
  split at h
  · cases h
  · exact (ofTypes_eq_ok_iff.mp h).1

end Layout

end Spirv
