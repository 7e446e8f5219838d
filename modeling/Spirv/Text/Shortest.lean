/-
Binary32 numbers as decimals. A number stands for every real that rounds to it; of the decimals among these, those with
the fewest digits are taken, and of them the nearest, upwards from a tie. Magnitudes are counted in units of 2^-151, in
which the numbers and the ends of their intervals are whole. From 10^-4 up to, but not including, 10^16 a number is
written with a decimal point and at least one digit behind it, otherwise with an exponent.
-/
import Spirv.Word

namespace Spirv.Text

/-- the magnitudes that round to a number, in units of 2^-151 -/
structure RoundingInterval where
  low : Nat
  value : Nat
  high : Nat
  /-- whether the ends round to the number too -/
  closed : Bool
deriving DecidableEq, Repr

/-- the number `digits * 10 ^ exponent` -/
structure Decimal where
  digits : Nat
  exponent : Int
deriving DecidableEq, Repr

/-- the number of units that make one -/
def unitsPerOne : Nat := Nat.pow 2 151

namespace RoundingInterval

/-- the interval of a positive finite number with this exponent field and fraction field -/
def ofFields (exponent fraction : Nat) : RoundingInterval :=
  let unit := Nat.pow 2 (max exponent 1 - 1)
  let significand := if exponent = 0 then fraction else Nat.pow 2 23 + fraction
  -- below a power of two the neighbour is only half as far away
  let below := if fraction = 0 ∧ 1 < exponent then 1 else 2
  ⟨(4 * significand - below) * unit, 4 * significand * unit, (4 * significand + 2) * unit, significand % 2 = 0⟩

/-- the multiple of `10 ^ exponent` in the interval that is nearest to the value; a tie goes up -/
def nearest? (t : RoundingInterval) (exponent : Int) : Option Nat :=
  let scale := Nat.pow 10 (-exponent).toNat
  let step := Nat.pow 10 exponent.toNat * unitsPerOne
  let value := t.value * scale
  let lower := value / step
  let inside (n : Nat) : Bool :=
    if t.closed then t.low * scale ≤ n * step && n * step ≤ t.high * scale
    else t.low * scale < n * step && n * step < t.high * scale
  match inside lower, inside (lower + 1) with
  | true, true => if value - lower * step < (lower + 1) * step - value then some lower else some (lower + 1)
  | true, false => some lower
  | false, true => some (lower + 1)
  | false, false => none

/-- goes down the exponents until one has a multiple in the interval -/
def search (t : RoundingInterval) : Nat → Int → Decimal
  | 0, exponent => ⟨t.value * Nat.pow 10 (-exponent).toNat / unitsPerOne, exponent⟩
  | steps + 1, exponent =>
    match t.nearest? exponent with
    | some digits => ⟨digits, exponent⟩
    | none => t.search steps (exponent - 1)

/-- the shortest decimal that rounds to the number -/
def shortest (t : RoundingInterval) : Decimal :=
  -- 1233 / 4096 is close to the decimal logarithm of 2; the search starts above the first digit
  t.search 16 (((t.value.log2 : Int) - 151) * 1233 / 4096 + 2)

end RoundingInterval

namespace Decimal

/-- with a decimal point -/
def positional (d : Decimal) : String :=
  let digits := d.digits.repr
  if 0 ≤ d.exponent then digits ++ .ofList (List.replicate d.exponent.toNat '0') ++ ".0"
  else
    let places := (-d.exponent).toNat
    let digits := .ofList (List.replicate (places + 1 - digits.length) '0') ++ digits
    let whole := digits.length - places
    .ofList (digits.toList.take whole) ++ "." ++ .ofList (digits.toList.drop whole)

/-- with one digit before the point and an exponent -/
def scientific (d : Decimal) : String :=
  let digits := d.digits.repr.toList
  let exponent := d.exponent + (digits.length - 1 : Nat)
  let fraction := match digits.tail with
    | [] => ""
    | more => "." ++ .ofList more
  let sign := if exponent < 0 then "-" else ""
  .ofList (digits.take 1) ++ fraction ++ "e" ++ sign ++ exponent.natAbs.repr

/-- the power of ten of the first digit -/
def magnitude (d : Decimal) : Int := d.exponent + (d.digits.repr.length - 1 : Nat)

def text (d : Decimal) : String :=
  if -4 ≤ d.magnitude ∧ d.magnitude < 16 then d.positional else d.scientific

end Decimal

/-- the text of the binary32 number with these bits -/
def binary32 (w : Word) : String :=
  let exponent := w.toNat / Nat.pow 2 23 % 256
  let fraction := w.toNat % Nat.pow 2 23
  let sign := if Nat.pow 2 31 ≤ w.toNat then "-" else ""
  if exponent = 255 then if fraction = 0 then sign ++ "inf" else "NaN"
  else if exponent = 0 ∧ fraction = 0 then sign ++ "0.0"
  else sign ++ (RoundingInterval.ofFields exponent fraction).shortest.text

end Spirv.Text
