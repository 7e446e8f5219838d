/-
The set bits of a word, lowest first. A scan keeps what is left of the word, shifted down, and the number of bits it has
already passed; each step finds the lowest set bit of the rest and shifts it out. `setBits` runs the scan to its end and
`singleBit?` names the bit of a word that has exactly one.
-/
import Spirv.Word

namespace Spirv

/-- position of a bit in a word, 0 being the least significant -/
abbrev BitIndex := Fin 32

/-- There is a bit, so numerals are positions. -/
instance BitIndex.instNeZero : @NeZero Nat Zero.ofOfNat0 32 := Nat.instNeZeroSucc

/-- the word in which this bit alone is set -/
def BitIndex.toMask (i : BitIndex) : Word := 1 <<< UInt32.ofNat i.val

namespace Word

/-- the number of zero bits below the lowest set bit; 32 for the word without one -/
def trailingZeros (w : Word) : Nat := go 32 w.toNat
where
  go : Nat → Nat → Nat
    | 0, _ => 0
    | bits + 1, n => if n % 2 = 1 then 0 else go bits (n / 2) + 1

/-- shifts by any amount; nothing is left after 32 places -/
def shiftOut (w : Word) (places : Nat) : Word :=
  if places < 32 then w >>> UInt32.ofNat places else 0

end Word

/-- a scan through the bits of a word -/
structure BitScan where
  /-- the bits not yet passed, from position 0 on -/
  rest : Word
  /-- how many bits were passed -/
  passed : Nat
deriving DecidableEq, Repr

namespace BitScan

/-- the lowest set bit of what is left, and the scan behind it -/
def next? (s : BitScan) : Option (BitIndex × BitScan) :=
  if s.rest = 0 then none
  else
    let zeros := s.rest.trailingZeros
    some (Fin.ofNat 32 (s.passed + zeros), ⟨s.rest.shiftOut (zeros + 1), s.passed + zeros + 1⟩)

theorem shiftOut_lt {w : Word} (h : w ≠ 0) (places : Nat) : (w.shiftOut (places + 1)).toNat < w.toNat := by
  have hw : 0 < w.toNat := Nat.pos_of_ne_zero fun h0 => h (by rwa [← UInt32.toNat_inj])
  unfold Word.shiftOut
  split
  · rename_i hp
    have : 2 ≤ 2 ^ (places + 1) := by
      have := Nat.one_le_two_pow (n := places)
      rw [Nat.pow_succ]; omega
    rw [UInt32.toNat_shiftRight, UInt32.toNat_ofNat', Nat.mod_eq_of_lt (by omega), Nat.mod_eq_of_lt (by omega),
      Nat.shiftRight_eq_div_pow]
    exact Nat.div_lt_self hw this
  · simpa using hw

theorem next?_lt {s t : BitScan} {i : BitIndex} (h : s.next? = some (i, t)) : t.rest.toNat < s.rest.toNat := by
  unfold next? at h
  split at h
  · simp at h
  · rename_i hne
    simp only [Option.some.injEq, Prod.mk.injEq] at h
    obtain ⟨-, rfl⟩ := h
    exact shiftOut_lt hne _

/-- every set bit still ahead -/
def drain (s : BitScan) : List BitIndex :=
  match h : s.next? with
  | none => []
  | some (i, t) =>
    have := next?_lt h
    i :: t.drain
termination_by s.rest.toNat

end BitScan

namespace Word

/-- the positions of the set bits, ascending -/
def setBits (w : Word) : List BitIndex := BitScan.drain ⟨w, 0⟩

/-- the position of the only set bit; nothing for a word with none or several -/
def singleBit? (w : Word) : Option BitIndex :=
  if w ≠ 0 ∧ w &&& (w - 1) = 0 then some (Fin.ofNat 32 w.trailingZeros) else none

end Word

end Spirv
