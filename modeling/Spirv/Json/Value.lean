/-
JSON values, built from tokens. What has been read of the arrays and objects around a value is kept as a stack of frames,
so that each token is one step; a text is a value when the last step delivers one with no frame around it. Objects keep
their fields in order and may repeat a key.
-/
import Spirv.Json.Token

namespace Spirv.Json

inductive Value where
  | null
  | bool (value : Bool)
  | number (natural : Option Nat)
  | string (text : Text)
  | array (items : List Value)
  | object (fields : List (Text × Value))
deriving Repr

/-- what stands in front of a value in the array or object around it, last first -/
inductive Frame where
  | item (before : List Value)
  | field (before : List (Text × Value)) (name : Text)

/-- what has to come next -/
inductive Reading where
  | value (around : List Frame)
  | firstItem (around : List Frame)
  | firstName (around : List Frame)
  | name (fields : List (Text × Value)) (around : List Frame)
  | colon (fields : List (Text × Value)) (name : Text) (around : List Frame)
  | behindItem (items : List Value) (around : List Frame)
  | behindField (fields : List (Text × Value)) (around : List Frame)
  | complete (value : Value)

namespace Reading

/-- a value is complete -/
def deliver (v : Value) : List Frame → Reading
  | [] => .complete v
  | .item before :: around => .behindItem (v :: before) around
  | .field before t :: around => .behindField ((t, v) :: before) around

/-- the first token of a value -/
def start (around : List Frame) : Token → Option Reading
  | .openArray => some (.firstItem around)
  | .openObject => some (.firstName around)
  | .null => some (deliver .null around)
  | .bool b => some (deliver (.bool b) around)
  | .number n => some (deliver (.number n) around)
  | .string t => some (deliver (.string t) around)
  | _ => none

def step (r : Reading) (t : Token) : Option Reading :=
  match r, t with
  | .value around, t => start around t
  | .firstItem around, .closeArray => some (deliver (.array []) around)
  | .firstItem around, t => start (.item [] :: around) t
  | .firstName around, .closeObject => some (deliver (.object []) around)
  | .firstName around, .string t => some (.colon [] t around)
  | .name fields around, .string t => some (.colon fields t around)
  | .colon fields t around, .colon => some (.value (.field fields t :: around))
  | .behindItem items around, .comma => some (.value (.item items :: around))
  | .behindItem items around, .closeArray => some (deliver (.array items.reverse) around)
  | .behindField fields around, .comma => some (.name fields around)
  | .behindField fields around, .closeObject => some (deliver (.object fields.reverse) around)
  | _, _ => none

end Reading

/-- the value that a text denotes -/
def parse? (s : String) : Option Value := do
  let tokens ← tokens? s.toList
  match ← tokens.toList.foldlM Reading.step (.value []) with
  | .complete v => some v
  | _ => none

namespace Value

/-! ## Reading values as data -/

/-- a number written as a plain natural, up to a bound -/
def natural? (max : Nat) : Value → Option Nat
  | .number (some n) => if n ≤ max then some n else none
  | _ => none

/-- a string written without a backslash -/
def bare? : Value → Option String
  | .string t => if t.bare then some t.chars else none
  | _ => none

def list? {α : Type} (item? : Value → Option α) : Value → Option (List α)
  | .array items => items.mapM item?
  | _ => none

/-- a value that may be left out or null -/
def optional? {α : Type} (value? : Value → Option α) : Option Value → Option (Option α)
  | none | some .null => some none
  | some v => (value? v).map some

/-- one of several names: as a string, or as an object with null under that name -/
def choice? {α : Type} (named? : String → Option α) : Value → Option α
  | .string t => named? t.chars
  | .object [(t, .null)] => named? t.chars
  | _ => none

/-- a part of a record -/
structure Part where
  name : String
  /-- whether a record written as a row may end before it -/
  droppable : Bool
deriving DecidableEq, Repr

def Part.needed (name : String) : Part := ⟨name, false⟩

def Part.last (name : String) : Part := ⟨name, true⟩

/-- the parts of a record written as an object, each key at most once -/
def ofObject? (parts : List Part) (fields : List (Text × Value)) : Option (List (Option Value)) :=
  let keys := fields.map (·.1.chars)
  if keys.all (fun key => parts.any (·.name = key)) && keys.eraseDups.length = keys.length then
    some (parts.map fun p => (fields.find? (·.1.chars = p.name)).map (·.2))
  else none

/-- the parts of a record written as a row, in their order -/
def ofRow? : List Part → List Value → Option (List (Option Value))
  | [], [] => some []
  | [], _ :: _ => none
  | p :: ps, [] => if p.droppable then (ofRow? ps []).map (none :: ·) else none
  | _ :: ps, v :: vs => (ofRow? ps vs).map (some v :: ·)

def record? (parts : List Part) : Value → Option (List (Option Value))
  | .object fields => ofObject? parts fields
  | .array items => ofRow? parts items
  | _ => none

end Value

end Spirv.Json
