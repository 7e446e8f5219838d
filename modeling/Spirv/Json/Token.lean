/-
The tokens of a JSON text. A scanner goes through the characters one at a time; it is between tokens, inside a string, or
inside a run of characters that will be a number or a word. Strings remember whether they were written without a
backslash, numbers whether they were written as plain naturals.
-/
import Spirv.Numeral

namespace Spirv.Json

structure Text where
  chars : String
  /-- no character was written with a backslash -/
  bare : Bool
deriving DecidableEq, Repr

inductive Token where
  | openArray | closeArray | openObject | closeObject | comma | colon
  | null
  | bool (value : Bool)
  /-- the value of digits without sign, fraction and exponent; nothing for any other number -/
  | number (natural : Option Nat)
  | string (text : Text)
deriving DecidableEq, Repr

/-! ## Numbers and words -/

/-- splits off a row of decimal digits, which must not be empty -/
def takeDigits? (cs : List Char) : Option (List Char × List Char) :=
  match cs.takeWhile Char.isDigit with
  | [] => none
  | ds => some (ds, cs.dropWhile Char.isDigit)

/-- passes over a fraction, if there is one -/
def skipFraction? : List Char → Option (List Char)
  | '.' :: cs => (takeDigits? cs).map (·.2)
  | cs => some cs

/-- passes over an exponent, if there is one -/
def skipExponent? : List Char → Option (List Char)
  | 'e' :: cs | 'E' :: cs =>
    let digits := match cs with
      | '+' :: ds | '-' :: ds => ds
      | ds => ds
    (takeDigits? digits).map (·.2)
  | cs => some cs

/-- the value of decimal digits -/
def valueOfDigits (cs : List Char) : Nat := cs.foldl (fun n c => 10 * n + (c.toNat - '0'.toNat)) 0

def number? (cs : List Char) : Option Token :=
  let (minus, cs) := match cs with
    | '-' :: cs => (true, cs)
    | cs => (false, cs)
  match takeDigits? cs with
  | none | some ('0' :: _ :: _, _) => none
  | some (digits, rest) =>
    match (skipFraction? rest).bind skipExponent? with
    | some [] => some (.number (if minus || !rest.isEmpty then none else some (valueOfDigits digits)))
    | _ => none

def word? (cs : List Char) : Option Token :=
  if cs = "null".toList then some .null
  else if cs = "true".toList then some (.bool true)
  else if cs = "false".toList then some (.bool false)
  else none

def isNumberChar (c : Char) : Bool := c.isDigit || c = '-' || c = '+' || c = '.' || c = 'e' || c = 'E'

/-! ## Scanning -/

/-- where a scanner is; characters of an unfinished token are kept last first -/
inductive Scan where
  | between
  | word (chars : List Char)
  | number (chars : List Char)
  /-- inside a string; after the first half of a surrogate pair the second half must follow -/
  | string (chars : List Char) (bare : Bool) (half : Option Nat)
  /-- behind a backslash -/
  | escape (chars : List Char) (half : Option Nat)
  /-- among the four digits of a code unit -/
  | unit (chars : List Char) (half : Option Nat) (missing value : Nat)
deriving DecidableEq, Repr

structure Scanner where
  tokens : Array Token
  scan : Scan
deriving DecidableEq, Repr

namespace Scanner

def start : Scanner := ⟨#[], .between⟩

def goto (s : Scanner) (scan : Scan) : Scanner := { s with scan }

def emit (s : Scanner) (t : Token) : Scanner := ⟨s.tokens.push t, .between⟩

/-- a character between tokens -/
def between (s : Scanner) (c : Char) : Option Scanner :=
  match c with
  | ' ' | '\n' | '\t' | '\r' => some (s.goto .between)
  | '[' => some (s.emit .openArray)
  | ']' => some (s.emit .closeArray)
  | '\x7b' => some (s.emit .openObject)
  | '\x7d' => some (s.emit .closeObject)
  | ',' => some (s.emit .comma)
  | ':' => some (s.emit .colon)
  | '"' => some (s.goto (.string [] true none))
  | c =>
    if c.isDigit || c = '-' then some (s.goto (.number [c]))
    else if c.isLower then some (s.goto (.word [c]))
    else none

/-- the character of a one-letter escape -/
def escaped? : Char → Option Char
  | '"' => some '"'
  | '\\' => some '\\'
  | '/' => some '/'
  | 'b' => some '\x08'
  | 'f' => some '\x0c'
  | 'n' => some '\n'
  | 'r' => some '\r'
  | 't' => some '\t'
  | _ => none

/-- a complete code unit inside a string -/
def ofUnit (chars : List Char) (half : Option Nat) (unit : Nat) : Option Scan :=
  let isFirst := 0xd800 ≤ unit && unit < 0xdc00
  let isSecond := 0xdc00 ≤ unit && unit < 0xe000
  match half with
  | some first =>
    if isSecond then
      some (.string (.ofNat (0x10000 + (first - 0xd800) * 0x400 + (unit - 0xdc00)) :: chars) false none)
    else none
  | none =>
    if isSecond then none
    else if isFirst then some (.string chars false (some unit))
    else some (.string (.ofNat unit :: chars) false none)

/-- takes in one character; nothing if no JSON text goes on like this -/
def step (s : Scanner) (c : Char) : Option Scanner :=
  match s.scan with
  | .between => s.between c
  | .word chars =>
    if c.isLower then some (s.goto (.word (c :: chars)))
    else (word? chars.reverse).bind fun t => (s.emit t).between c
  | .number chars =>
    if isNumberChar c then some (s.goto (.number (c :: chars)))
    else (number? chars.reverse).bind fun t => (s.emit t).between c
  | .string chars bare half =>
    if c = '\\' then some (s.goto (.escape chars half))
    else if half.isSome || c.toNat < 0x20 then none
    else if c = '"' then some (s.emit (.string ⟨.ofList chars.reverse, bare⟩))
    else some (s.goto (.string (c :: chars) bare none))
  | .escape chars half =>
    if c = 'u' then some (s.goto (.unit chars half 4 0))
    else if half.isSome then none
    else (escaped? c).map fun e => s.goto (.string (e :: chars) false none)
  | .unit chars half missing value =>
    match Numeral.digit? 16 c with
    | none => none
    | some d =>
      let value := 16 * value + d
      if 1 < missing then some (s.goto (.unit chars half (missing - 1) value))
      else (ofUnit chars half value).map s.goto

/-- the tokens, when the text may end here -/
def finish? (s : Scanner) : Option (Array Token) :=
  match s.scan with
  | .between => some s.tokens
  | .word chars => (word? chars.reverse).map s.tokens.push
  | .number chars => (number? chars.reverse).map s.tokens.push
  | _ => none

end Scanner

def tokens? (cs : List Char) : Option (Array Token) := (cs.foldlM Scanner.step .start).bind Scanner.finish?

end Spirv.Json
