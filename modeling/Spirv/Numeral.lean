/-
Numbers written as text. A numeral is a row of decimal digits, or a row of hexadecimal digits of either case behind `0x`;
one plus sign may stand in front of the digits, leading zeros mean nothing, and the number must fit a word.
-/
import Spirv.Text.Quoted
import Spirv.Word

namespace Spirv

/-- what keeps a row of digits from being a word -/
inductive DigitsFault where
  | empty
  | foreign
  | tooLarge
deriving DecidableEq, Repr

def DigitsFault.message : DigitsFault → String
  | .empty => "cannot parse integer from empty string"
  | .foreign => "invalid digit found in string"
  | .tooLarge => "number too large to fit in target type"

inductive NumeralError where
  /-- neither decimal nor marked as hexadecimal -/
  | unmarked (text : String)
  | hexadecimal (text : String) (fault : DigitsFault)
deriving DecidableEq, Repr

def NumeralError.message : NumeralError → String
  | .unmarked text => "DecOrHex string form doesn't start with 0x: " ++ Text.quoted text
  | .hexadecimal text fault => "DecOrHex " ++ Text.quoted text ++ ": " ++ fault.message

namespace Numeral

/-- the value of a digit of either case in a base up to 16 -/
def digit? (base : Nat) (c : Char) : Option Nat :=
  let n := c.toNat
  let value? :=
    if '0' ≤ c ∧ c ≤ '9' then some (n - '0'.toNat)
    else if 'a' ≤ c ∧ c ≤ 'f' then some (n - 'a'.toNat + 10)
    else if 'A' ≤ c ∧ c ≤ 'F' then some (n - 'A'.toNat + 10)
    else none
  value?.filter (· < base)

/-- reads digits behind those that gave `value`; a foreign character is found before the number is seen to be too large -/
def digits (base value : Nat) : List Char → Except DigitsFault Nat
  | [] => .ok value
  | c :: cs =>
    match digit? base c with
    | none => .error .foreign
    | some d => if base * value + d < 2 ^ 32 then digits base (base * value + d) cs else .error .tooLarge

/-- reads digits with an optional plus sign in front -/
def unsigned (base : Nat) : List Char → Except DigitsFault Nat
  | [] => .error .empty
  | ['+'] => .error .foreign
  | '+' :: cs => digits base 0 cs
  | cs => digits base 0 cs

def ofChars (cs : List Char) : Except NumeralError Word :=
  match unsigned 10 cs with
  | .ok n => .ok (.ofNat n)
  | .error _ =>
    match cs with
    | '0' :: 'x' :: digits =>
      match unsigned 16 digits with
      | .ok n => .ok (.ofNat n)
      | .error fault => .error (.hexadecimal (.ofList cs) fault)
    | _ => .error (.unmarked (.ofList cs))

/-- the word that a text denotes -/
def read (s : String) : Except NumeralError Word := ofChars s.toList

end Numeral

end Spirv
