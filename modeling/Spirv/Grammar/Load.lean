/-
From a listing to a grammar. Kinds are taken in the order of the listing, then instructions; the first fault ends it. Of
several names for one value the preferred one is kept: a standard name before the same name with a vendor's suffix,
otherwise the alphabetically first. Every mask kind has a table in the end, if only one without bits.
-/
import Spirv.Grammar.Basic
import Spirv.Grammar.Listing

namespace Spirv

inductive LoadFault where
  | unknownKind (name : String)
  | wrongCategory (kind : String)
  /-- the name of the mask word without set bits cannot ask for operands -/
  | emptyMaskWithParams
  | notSingleBit (kind enumerant : String)
  | quantifiedParam (kind enumerant : String)
  | tooManyParams (kind enumerant : String)
  /-- two names of one bit ask for different operands -/
  | aliasesDiffer (kind first second : String)
  | valueWithParams (kind enumerant : String)
  | wrongBases (kind : String)
  /-- IDs and literals have neither enumerants nor bases -/
  | partsOfPlainKind
  | badLayout (instruction : String) (error : LayoutError)
  | repeatedOpcode (opcode : UInt16)
deriving DecidableEq, Repr

def LoadFault.message : LoadFault → String
  | .unknownKind name => "unknown operand kind `" ++ name ++ "`"
  | .wrongCategory kind => "operand kind `" ++ kind ++ "`"
  | .emptyMaskWithParams => ""
  | .notSingleBit kind enumerant => kind ++ "." ++ enumerant ++ " is not a single bit"
  | .quantifiedParam kind enumerant => kind ++ "." ++ enumerant
  | .tooManyParams kind enumerant => kind ++ "." ++ enumerant ++ " implies too many operands"
  | .aliasesDiffer kind first second =>
    kind ++ " bits " ++ first ++ " and " ++ second ++ " share a bit index but differ in definition"
  | .valueWithParams kind enumerant =>
    kind ++ "." ++ enumerant ++ " implies operands, which is unsupported for value enums"
  | .wrongBases kind => kind
  | .partsOfPlainKind => ""
  | .badLayout instruction error => instruction ++ ": " ++ error.message
  | .repeatedOpcode opcode => "multiple instructions with opcode " ++ opcode.toNat.repr

/-! ## Names of one value -/

/-- whether `vendor` is `standard` with a suffix of capital letters -/
def isVendorForm (standard vendor : String) : Bool :=
  let suffix := vendor.toList.drop standard.length
  standard.toList.isPrefixOf vendor.toList && !suffix.isEmpty && suffix.all Char.isUpper

/-- the name to keep of two for one value -/
def preferredName (a b : String) : String :=
  if isVendorForm a b then a
  else if isVendorForm b a then b
  else if b < a then b else a

/-! ## Kinds -/

def kindNamed (name : String) : Except LoadFault Kind :=
  match Kind.ofName? name with
  | some k => .ok k
  | none => .error (.unknownKind name)

/-- the most operands that one bit may ask for -/
def maxParams : Nat := 3

/-- the kinds that a bit asks for, `count` of which were read before -/
def loadParams (kind enumerant : String) : Nat → List OperandListing → Except LoadFault (List Kind)
  | _, [] => .ok []
  | count, p :: ps => do
    if p.quantifier.isSome then throw (.quantifiedParam kind enumerant)
    let k ← kindNamed p.kind
    if maxParams ≤ count then throw (.tooManyParams kind enumerant)
    return k :: (← loadParams kind enumerant (count + 1) ps)

/-- a mask table in the making -/
structure MaskDraft where
  emptyName : Option String
  table : MaskTable Kind
deriving DecidableEq, Repr

namespace MaskDraft

def start : MaskDraft := ⟨none, .empty "None"⟩

/-- adds one name: of the word without set bits, or of a bit -/
def add (kind : String) (d : MaskDraft) (e : EnumerantListing) : Except LoadFault MaskDraft :=
  if e.value = 0 then
    if e.params.isEmpty then .ok { d with emptyName := some ((d.emptyName.map (preferredName · e.name)).getD e.name) }
    else .error .emptyMaskWithParams
  else
    match e.value.singleBit? with
    | none => .error (.notSingleBit kind e.name)
    | some bit => do
      let params ← loadParams kind e.name 0 e.params
      match d.table.bit? bit with
      | none => return { d with table := d.table.define bit ⟨e.name, params⟩ }
      | some known =>
        if known.params = params then
          return { d with table := d.table.define bit ⟨preferredName known.name e.name, params⟩ }
        else throw (.aliasesDiffer kind known.name e.name)

def finish (d : MaskDraft) : MaskTable Kind := { d.table with emptyName := d.emptyName.getD d.table.emptyName }

end MaskDraft

def loadMask (kind : String) (enumerants : List EnumerantListing) : Except LoadFault (MaskTable Kind) := do
  return (← enumerants.foldlM (MaskDraft.add kind) .start).finish

/-- adds one name of a value -/
def addValue (kind : String) (values : Table Word String) (e : EnumerantListing) :
    Except LoadFault (Table Word String) :=
  if e.params.isEmpty then
    .ok (values.insert e.value (((values.get? e.value).map (preferredName · e.name)).getD e.name))
  else .error (.valueWithParams kind e.name)

def loadValues (kind : String) (enumerants : List EnumerantListing) : Except LoadFault (Table Word String) :=
  enumerants.foldlM (addValue kind) .empty

/-- the tables that listed kinds fill -/
structure KindTables where
  masks : Table MaskKind (MaskTable Kind)
  enums : Table EnumKind (Table Word String)
deriving Repr

namespace KindTables

/-- takes in one listed kind; a later listing of a kind replaces an earlier one -/
def add (t : KindTables) (l : KindListing) : Except LoadFault KindTables := do
  let kind ← kindNamed l.kind
  match l.category, kind with
  | .bitEnum, .mask m => return { t with masks := t.masks.insert m (← loadMask l.kind (l.enumerants.getD [])) }
  | .valueEnum, .enum e => return { t with enums := t.enums.insert e (← loadValues l.kind (l.enumerants.getD [])) }
  | .composite, .pair p =>
    let bases ← l.bases.mapM (·.mapM kindNamed)
    if bases = some [p.halves.1, p.halves.2] then return t else throw (.wrongBases l.kind)
  | .id, .id _ | .literal, .literal _ | .literal, .string =>
    if l.enumerants.isNone && l.bases.isNone then return t else throw .partsOfPlainKind
  | _, _ => throw (.wrongCategory l.kind)

/-- gives a table without bits to a mask kind that has none -/
def complete (t : KindTables) : KindTables :=
  { t with
    masks := MaskKind.all.foldl
      (fun masks m => if (masks.get? m).isSome then masks else masks.insert m (.empty "None")) t.masks }

end KindTables

/-! ## Instructions -/

def OperandListing.type (o : OperandListing) : Except LoadFault OperandType := do
  let kind ← kindNamed o.kind
  match o.quantifier with
  | none => return .operand ⟨.required, kind⟩
  | some .optional => return .operand ⟨.optional, kind⟩
  | some .repeated => return .operand ⟨.repeated, kind⟩

/-- the tables that listed instructions fill -/
structure InstructionTables where
  instructions : Table UInt16 InstructionDef
  opcodes : List (String × UInt16)
deriving Repr

/-- takes in one listed instruction; its name leads to it from now on -/
def InstructionTables.add (t : InstructionTables) (l : InstructionListing) : Except LoadFault InstructionTables := do
  let types ← l.operands.mapM OperandListing.type
  match Layout.ofTypes l.opcode types with
  | .error e => throw (.badLayout l.name e)
  | .ok _ =>
    if (t.instructions.get? l.opcode).isSome then throw (.repeatedOpcode l.opcode)
    return ⟨t.instructions.insert l.opcode ⟨l.name, types⟩, (l.name, l.opcode) :: t.opcodes⟩

namespace Grammar

def ofListing (l : Listing) : Except LoadFault Grammar := do
  let kinds ← l.kinds.foldlM KindTables.add ⟨.empty, .empty⟩
  let kinds := kinds.complete
  let instructions ← l.instructions.foldlM InstructionTables.add ⟨.empty, []⟩
  return {
    magic := l.magic
    version := ⟨l.major, l.minor, l.revision⟩
    instructions := instructions.instructions
    opcodes := instructions.opcodes
    masks := kinds.masks
    enums := kinds.enums }

end Grammar

end Spirv
