/-
The JSON form of a listing. Records are objects with known fields, or rows of their parts in order. Names of kinds,
instructions and enumerants are written without a backslash; numbers may also be written as text (`Numeral`).
-/
import Spirv.Grammar.Listing
import Spirv.Json.Value

namespace Spirv

open Json (Value)

/-- a number, or a text to be read as one; nothing for any other value -/
def Numeral.ofJson? : Value → Option (Except NumeralError Word)
  | .number n => (Value.natural? 0xffffffff (.number n)).map fun n => .ok (.ofNat n)
  | v => v.bare?.map Numeral.read

namespace Listing

def word? (v : Value) : Option Word :=
  match Numeral.ofJson? v with
  | some (.ok w) => some w
  | _ => none

def byte? (v : Value) : Option UInt8 := (v.natural? 0xff).map .ofNat

def quantifier? : Value → Option Quantifier :=
  Value.choice? fun name => [("?", .optional), ("*", .repeated)].lookup name

def category? : Value → Option Category :=
  Value.choice? fun name =>
    [("BitEnum", .bitEnum), ("ValueEnum", .valueEnum), ("Id", .id), ("Literal", .literal),
     ("Composite", .composite)].lookup name

/-- any string -/
def text? : Value → Option String
  | .string t => some t.chars
  | _ => none

/-- an operand; it may also carry a name for the reader, which is not kept -/
def operand? (v : Value) : Option OperandListing := do
  match ← v.record? [.needed "kind", .needed "quantifier", .needed "name"] with
  | [some kind, quantifier, name] =>
    let _ ← Value.optional? text? name
    return ⟨← kind.bare?, ← Value.optional? quantifier? quantifier⟩
  | _ => none

/-- operands may be left out, but are not null -/
def operands? : Option Value → Option (List OperandListing)
  | none => some []
  | some v => v.list? operand?

def instruction? (v : Value) : Option InstructionListing := do
  match ← v.record? [.needed "opname", .needed "opcode", .last "operands"] with
  | [some name, some opcode, operands] =>
    return ⟨← name.bare?, .ofNat (← opcode.natural? 0xffff), ← operands? operands⟩
  | _ => none

def enumerant? (v : Value) : Option EnumerantListing := do
  match ← v.record? [.needed "enumerant", .needed "value", .last "parameters"] with
  | [some name, some value, params] => return ⟨← name.bare?, ← word? value, ← operands? params⟩
  | _ => none

def kind? (v : Value) : Option KindListing := do
  match ← v.record? [.needed "category", .needed "kind", .needed "enumerants", .needed "bases"] with
  | [some category, some kind, enumerants, bases] =>
    return ⟨← category? category, ← kind.bare?, ← Value.optional? (·.list? enumerant?) enumerants,
      ← Value.optional? (·.list? Value.bare?) bases⟩
  | _ => none

def ofJson? (v : Value) : Option Listing := do
  match ← v.record? [.needed "magic_number", .needed "major_version", .needed "minor_version",
      .needed "revision", .needed "instructions", .needed "operand_kinds"] with
  | [some magic, some major, some minor, some revision, some instructions, some kinds] =>
    return ⟨← word? magic, ← byte? major, ← byte? minor, ← byte? revision,
      ← instructions.list? instruction?, ← kinds.list? kind?⟩
  | _ => none

/-- the listing that a JSON text holds -/
def read? (s : String) : Option Listing := (Json.parse? s).bind ofJson?

end Listing

end Spirv
