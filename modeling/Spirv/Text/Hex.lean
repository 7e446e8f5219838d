/-
Words in base 16, lower case: as short as possible (`hex`), in eight digits (`hexWord`), and as a bracketed row.
-/
import Spirv.Word

namespace Spirv.Text

/-- the digits without leading zeros -/
def hex (w : Word) : String := .ofList (Nat.toDigits 16 w.toNat)

/-- all eight digits -/
def hexWord (w : Word) : String :=
  let digits := Nat.toDigits 16 w.toNat
  .ofList (List.replicate (8 - digits.length) '0' ++ digits)

/-- a row of words between brackets -/
def hexWords (ws : List Word) : String := "[" ++ ", ".intercalate (ws.map hexWord) ++ "]"

end Spirv.Text
