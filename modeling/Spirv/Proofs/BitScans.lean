/-
A scan through the bits of a word, call by call. Between two calls the word is in two parts: the bits that were found are
its low part, and what is left is its high part, shifted down by the number of bits that were passed
(`BitScan.Completes`). A call moves the lowest bit from the one part to the other, so the parts make up the word after any
number of calls; at the end nothing is left, and the bits that were found are the word.

The parts also bound the arithmetic of a scan. A set bit of the high part is a bit of the word, so the number of passed
bits never goes beyond 32, and a scan that counts in a byte and shifts by checked amounts goes the same way.

- `BitScan.Completes.behind`, `BitScan.completes_after`: one call and any number of calls keep the parts.
- `BitScan.answer?_eq`: each call answers the next of the set bits, and after them nothing.
- `Guarded.Scan.after_ofBitScan`, `Guarded.Scan.answer?_ofBitScan`: the scan that counts in a byte.
- `Word.ofBits_setBits`, `Word.setBits_ofBits`: words and ascending positions determine each other.

Main result:
- `BitScan.scan_exact`: what a scan answers, and the states it goes through.
-/
import Spirv.Proofs.MaskTexts
import Spirv.Proofs.NoTraps

namespace Spirv

namespace Word

/-! ## Words from positions -/

/-- the word in which the bits at these positions are set -/
def ofBits (l : List BitIndex) : Word := l.foldl (fun w i => w ||| i.toMask) 0

variable {l : List BitIndex}

theorem testBit_ofBits {i : BitIndex} : (ofBits l).toNat.testBit i.val ↔ i ∈ l := by
  rw [ofBits, BitIndex.testBit_foldl_or]
  simp

/-- A position above all others adds its power of two. -/
theorem toNat_ofBits_concat {i : BitIndex} (h : (ofBits l).toNat < 2 ^ i.val) :
    (ofBits (l ++ [i])).toNat = (ofBits l).toNat + 2 ^ i.val := by
  have hor : ofBits (l ++ [i]) = ofBits l ||| i.toMask := by
    rw [ofBits, List.foldl_append]
    rfl
  calc (ofBits (l ++ [i])).toNat = 2 ^ i.val * 1 ||| (ofBits l).toNat := by
        rw [hor, UInt32.toNat_or, BitIndex.toNat_toMask, Nat.or_comm, Nat.mul_one]
    _ = 2 ^ i.val * 1 + (ofBits l).toNat := (Nat.two_pow_add_eq_or_of_lt h 1).symm
    _ = (ofBits l).toNat + 2 ^ i.val := by rw [Nat.mul_one, Nat.add_comm]

/-- Ascending positions are the set bits of their word. -/
theorem setBits_ofBits (h : l.Pairwise (· < ·)) : (ofBits l).setBits = l :=
  (eq_setBits h fun _ => testBit_ofBits.symm).symm

end Word

namespace BitScan

/-! ## One call -/

/-- What was found is the low part of the word, and what is left is the high part, shifted down. -/
structure Completes (w : Word) (found : List BitIndex) (s : BitScan) : Prop where
  passed_le : s.passed ≤ 32
  found_lt : (Word.ofBits found).toNat < 2 ^ s.passed
  eq_add : w.toNat = (Word.ofBits found).toNat + s.rest.toNat * 2 ^ s.passed

variable {w : Word} {found : List BitIndex} {s : BitScan}

theorem completes_start (w : Word) : Completes w [] ⟨w, 0⟩ :=
  ⟨Nat.zero_le 32, Nat.one_pos, by simp [Word.ofBits]⟩

theorem Completes.within (h : Completes w found s) : s.Within := by
  refine ⟨h.passed_le, ?_⟩
  calc s.rest.toNat * 2 ^ s.passed ≤ w.toNat := by
        rw [h.eq_add]
        exact Nat.le_add_left _ _
    _ < 2 ^ 32 := w.toNat_lt

/-- A call moves the lowest bit that is left to those that were found. -/
theorem Completes.behind (h : Completes w found s) (hrest : s.rest ≠ 0) :
    Completes w (found ++ [s.lowest]) s.behind := by
  have hval : s.lowest.val = s.passed + s.rest.trailingZeros := h.within.val_lowest hrest
  have hpassed : s.behind.passed = s.lowest.val + 1 := congrArg (· + 1) hval.symm
  -- the bits that were found are all below the next one
  have hlt : (Word.ofBits found).toNat < 2 ^ s.lowest.val := by
    apply Nat.lt_of_lt_of_le h.found_lt
    exact Nat.pow_le_pow_right (by decide) (by omega)
  have hfound := Word.toNat_ofBits_concat hlt
  refine ⟨h.within.add_trailingZeros_lt hrest, ?_, ?_⟩
  · rw [hfound, hpassed, Nat.pow_succ]
    omega
  · rw [h.eq_add, shifted_rest hrest, hfound, hval, Nat.add_assoc]

/-! ## Any number of calls -/

/-- the scan after this many calls; a call at the end leaves it as it is -/
def after (s : BitScan) : Nat → BitScan
  | 0 => s
  | n + 1 =>
    match (after s n).next? with
    | none => after s n
    | some (_, t) => t

/-- what the call after this many others answers -/
def answer? (s : BitScan) (n : Nat) : Option BitIndex := (s.after n).next?.map (·.1)

variable {n : Nat}

theorem after_succ_of_zero (hrest : (s.after n).rest = 0) : s.after (n + 1) = s.after n := by
  rw [after, next?_of_zero hrest]

theorem after_succ_of_ne_zero (hrest : (s.after n).rest ≠ 0) : s.after (n + 1) = (s.after n).behind := by
  rw [after, next?_of_ne_zero hrest]

theorem answer?_of_zero (hrest : (s.after n).rest = 0) : s.answer? n = none := by
  rw [answer?, next?_of_zero hrest]
  rfl

theorem answer?_of_ne_zero (hrest : (s.after n).rest ≠ 0) : s.answer? n = some (s.after n).lowest := by
  rw [answer?, next?_of_ne_zero hrest]
  rfl

/-- What is still ahead after some calls is what was ahead, without what they answered. -/
theorem drain_after (s : BitScan) (n : Nat) : (s.after n).drain = s.drain.drop n := by
  induction n with
  | zero => rfl
  | succ n ih =>
    rw [← List.tail_drop, ← ih]
    by_cases hrest : (s.after n).rest = 0
    · rw [after_succ_of_zero hrest, drain_of_zero hrest]
      rfl
    · rw [after_succ_of_ne_zero hrest, drain_of_ne_zero hrest]
      rfl

/-- **Each call answers the next of the bits that are ahead**, and after them nothing. -/
theorem answer?_eq (s : BitScan) (n : Nat) : s.answer? n = s.drain[n]? := by
  rw [← List.head?_drop, ← drain_after]
  by_cases hrest : (s.after n).rest = 0
  · rw [answer?_of_zero hrest, drain_of_zero hrest]
    rfl
  · rw [answer?_of_ne_zero hrest, drain_of_ne_zero hrest]
    rfl

/-- **The parts make up the word after any number of calls.** -/
theorem completes_after (w : Word) (n : Nat) : Completes w (w.setBits.take n) (after ⟨w, 0⟩ n) := by
  induction n with
  | zero => exact completes_start w
  | succ n ih =>
    have hanswer : w.setBits[n]? = answer? ⟨w, 0⟩ n := (answer?_eq ⟨w, 0⟩ n).symm
    rw [List.take_add_one, hanswer]
    by_cases hrest : (after ⟨w, 0⟩ n).rest = 0
    · rw [answer?_of_zero hrest, after_succ_of_zero hrest]
      simpa using ih
    · rw [answer?_of_ne_zero hrest, after_succ_of_ne_zero hrest]
      exact ih.behind hrest

theorem rest_after_length (w : Word) : (after ⟨w, 0⟩ w.setBits.length).rest = 0 := by
  by_contra hrest
  have hdrain : (after ⟨w, 0⟩ w.setBits.length).drain = w.setBits.drop w.setBits.length := drain_after ⟨w, 0⟩ _
  rw [drain_of_ne_zero hrest, List.drop_length] at hdrain
  cases hdrain

end BitScan

namespace Word

/-- The word of its set bits: nothing is left at the end of a scan. -/
theorem ofBits_setBits (w : Word) : ofBits w.setBits = w := by
  have hparts := (BitScan.completes_after w w.setBits.length).eq_add
  rw [BitScan.rest_after_length, List.take_length] at hparts
  apply UInt32.toNat_inj.mp
  simpa using hparts.symm

theorem length_setBits_le (w : Word) : w.setBits.length ≤ 32 := by
  calc w.setBits.length ≤ (List.finRange 32).length := by
        rw [setBits_eq_filter]
        exact List.length_filter_le _ _
    _ = 32 := List.length_finRange

/-- A word has a single bit if a scan finds just that one. -/
theorem singleBit?_eq_some_iff_setBits {w : Word} {i : BitIndex} : w.singleBit? = some i ↔ w.setBits = [i] := by
  have hmask : ofBits [i] = i.toMask := UInt32.zero_or
  rw [singleBit?_eq_some_iff, ← BitIndex.toMask_eq_iff, ← hmask]
  refine ⟨?_, ?_⟩
  · rintro rfl
    exact setBits_ofBits (List.pairwise_singleton _ i)
  · intro h
    rw [← h, ofBits_setBits]

end Word

/-! ## Counting in a byte -/

namespace Guarded.Scan

open Outcome

theorem next?_ofBitScan {s : BitScan} (h : s.Within) :
    (ofBitScan s).next? = .done (s.next?.map fun p => (.ofNat p.1.val, ofBitScan p.2)) := by
  by_cases hrest : s.rest = 0
  · rw [next?_of_zero hrest, BitScan.next?_of_zero hrest]
    rfl
  · rw [next?_of_ne_zero h hrest, BitScan.next?_of_ne_zero hrest]
    rfl

section Calls

variable (w : Word)

theorem next?_after (n : Nat) : (ofBitScan (BitScan.after ⟨w, 0⟩ n)).next? =
    .done (((BitScan.answer? ⟨w, 0⟩ n).map fun i => .ofNat i.val).map
      fun i => (i, ofBitScan (BitScan.after ⟨w, 0⟩ (n + 1)))) := by
  rw [next?_ofBitScan (BitScan.completes_after w n).within, BitScan.answer?, BitScan.after]
  cases (BitScan.after ⟨w, 0⟩ n).next? <;> rfl

theorem after_of_answer?_eq_none (n : Nat)
    (h : ((BitScan.answer? ⟨w, 0⟩ n).map fun i : BitIndex => UInt8.ofNat i.val) = none) :
    ofBitScan (BitScan.after ⟨w, 0⟩ (n + 1)) = ofBitScan (BitScan.after ⟨w, 0⟩ n) := by
  have hnext : (BitScan.after ⟨w, 0⟩ n).next? = none := Option.map_eq_none_iff.mp (Option.map_eq_none_iff.mp h)
  rw [BitScan.after, hnext]

theorem after_ofBitScan (n : Nat) : after next? ⟨w, 0⟩ n = .done (ofBitScan (BitScan.after ⟨w, 0⟩ n)) :=
  after_eq_done (fun n => ofBitScan (BitScan.after ⟨w, 0⟩ n)) _ (next?_after w) (after_of_answer?_eq_none w) n

theorem answer?_ofBitScan (n : Nat) :
    answer? next? ⟨w, 0⟩ n = .done ((BitScan.answer? ⟨w, 0⟩ n).map fun i => .ofNat i.val) :=
  answer?_eq_done (fun n => ofBitScan (BitScan.after ⟨w, 0⟩ n)) _ (next?_after w) (after_of_answer?_eq_none w) n

end Calls

end Guarded.Scan

/-! ## Main result -/

namespace BitScan

/-- **A scan is exact.** Each call answers the next of the set bits and, after at most 32 of them, nothing. They are the
positions at which the word has a bit, in ascending order, and together they give the word back.

A scan that counts in a byte answers the same and never traps: no sum is too large for a byte, and no shift is by as many
places as a word has unless that was checked. In every state that it goes through, the bits that were found and those that
are left make up the word, and behind the next bit at most 32 bits are passed.

A word has a single bit if a scan finds just that one. -/
theorem scan_exact (w : Word) :
    (∀ n, answer? ⟨w, 0⟩ n = w.setBits[n]?) ∧ w.setBits.length ≤ 32 ∧
    w.setBits.Pairwise (· < ·) ∧ (∀ i, i ∈ w.setBits ↔ w.toNat.testBit i.val) ∧
    Word.ofBits w.setBits = w ∧
    (∀ n, Guarded.answer? Guarded.Scan.next? ⟨w, 0⟩ n = .done (w.setBits[n]?.map fun i => .ofNat i.val)) ∧
    (∀ n, ∃ s : Guarded.Scan, Guarded.after Guarded.Scan.next? ⟨w, 0⟩ n = .done s ∧
      (s.rest ≠ 0 → s.passed.toNat + s.rest.trailingZeros + 1 ≤ 32) ∧
      (Word.ofBits (w.setBits.take n)).toNat < 2 ^ s.passed.toNat ∧
      w.toNat = (Word.ofBits (w.setBits.take n)).toNat + s.rest.toNat * 2 ^ s.passed.toNat) ∧
    ∀ i, w.singleBit? = some i ↔ w.setBits = [i] := by
  refine ⟨answer?_eq ⟨w, 0⟩, w.length_setBits_le, w.pairwise_setBits, fun i => Word.mem_setBits_iff, w.ofBits_setBits,
    ?_, ?_, fun i => Word.singleBit?_eq_some_iff_setBits⟩
  · intro n
    rw [Guarded.Scan.answer?_ofBitScan, answer?_eq]
    rfl
  · intro n
    have hparts := completes_after w n
    have hpassed : (Guarded.Scan.ofBitScan (after ⟨w, 0⟩ n)).passed.toNat = (after ⟨w, 0⟩ n).passed := by
      have hle := hparts.passed_le
      rw [Guarded.Scan.ofBitScan, UInt8.toNat_ofNat']
      omega
    refine ⟨_, Guarded.Scan.after_ofBitScan w n, ?_⟩
    rw [hpassed]
    exact ⟨hparts.within.add_trailingZeros_lt, hparts.found_lt, hparts.eq_add⟩

/-- The top bit is the last that is found, and the sum is 32 there. -/
theorem scan_exact_sample :
    Guarded.after Guarded.Scan.next? ⟨0x80000105, 0⟩ 3 = .done ⟨0x400000, 9⟩ ∧ (0x400000 : Word) ≠ 0 ∧
    (9 : UInt8).toNat + Word.trailingZeros 0x400000 + 1 ≤ 32 ∧
    answer? ⟨0x80000105, 0⟩ 3 = some 31 ∧ answer? ⟨0x80000105, 0⟩ 4 = none ∧
    Word.singleBit? 0x80000000 = some 31 := by
  obtain ⟨hanswer, -, -, -, -, -, hstates, -⟩ := scan_exact 0x80000105
  obtain ⟨-, -, -, -, -, -, -, hsingle⟩ := scan_exact 0x80000000
  have hafter : Guarded.after Guarded.Scan.next? ⟨0x80000105, 0⟩ 3 = .done ⟨0x400000, 9⟩ := by decide +kernel
  have hrest : (0x400000 : Word) ≠ 0 := by decide
  obtain ⟨s, hs, hsum, -⟩ := hstates 3
  obtain rfl : s = ⟨0x400000, 9⟩ := Outcome.done.inj (hs.symm.trans hafter)
  refine ⟨hafter, hrest, hsum hrest, ?_, ?_, ?_⟩
  · rw [hanswer]
    decide +kernel
  · rw [hanswer]
    decide +kernel
  · rw [hsingle]
    decide +kernel

end BitScan

end Spirv
