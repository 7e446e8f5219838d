/-
Scanning the set bits of a word. A word that is not zero is an odd number shifted up by its trailing zeros, and a step of
the scan goes on with what is above that odd number's lowest bit. So the number of bits that were passed and the bits that
are left always fit together into one word (`BitScan.Within`), which bounds every position and every shift of a scan.

- `Word.exists_odd`: a word by its trailing zeros.
- `Word.toNat_shiftOut`: shifting out is dividing, by any number of places.
- `BitScan.shifted_rest`: what a step of a scan does; `BitScan.Within.add_trailingZeros_lt`, `BitScan.Within.behind`: what it
  keeps.
- `BitScan.drain_of_zero`, `BitScan.drain_of_ne_zero`: all the steps of a scan, one at a time.
- `BitScan.Within.mem_drain_iff`, `Word.mem_setBits_iff`: a scan finds the set bits, and only those.
- `BitScan.Within.pairwise_drain`, `Word.pairwise_setBits`: it finds them in ascending order. There is one such list of them, so
  `Word.setBits_eq_filter` names it.
- `Word.singleBit?_eq_some_iff`: a word with a single bit is the power of two of its position.
-/
import Mathlib.Algebra.Group.Nat.Defs
import Spirv.Bits

namespace Spirv

namespace Word

theorem exists_odd_of_lt {bits n : Nat} (hpos : n ≠ 0) (hlt : n < 2 ^ bits) :
    ∃ q, n = 2 ^ trailingZeros.go bits n * (2 * q + 1) := by
  induction bits generalizing n with
  | zero => omega
  | succ bits ih =>
    rw [trailingZeros.go]
    by_cases hodd : n % 2 = 1
    · rw [if_pos hodd]
      exact ⟨n / 2, by omega⟩
    · rw [if_neg hodd]
      rw [Nat.pow_succ] at hlt
      obtain ⟨q, hq⟩ := ih (n := n / 2) (by omega) (by omega)
      refine ⟨q, ?_⟩
      calc n = 2 * (n / 2) := by omega
        _ = 2 * (2 ^ trailingZeros.go bits (n / 2) * (2 * q + 1)) := by rw [← hq]
        _ = 2 ^ (trailingZeros.go bits (n / 2) + 1) * (2 * q + 1) := by rw [Nat.pow_succ', Nat.mul_assoc]

variable {w : Word}

theorem toNat_ne_zero (h : w ≠ 0) : w.toNat ≠ 0 := fun h0 => h (by rwa [← UInt32.toNat_inj])

/-- A word that is not zero is an odd number shifted up by its trailing zeros. -/
theorem exists_odd (h : w ≠ 0) : ∃ q, w.toNat = 2 ^ w.trailingZeros * (2 * q + 1) :=
  exists_odd_of_lt (toNat_ne_zero h) w.toNat_lt

theorem toNat_shiftOut (w : Word) (places : Nat) : (w.shiftOut places).toNat = w.toNat / 2 ^ places := by
  unfold shiftOut
  split
  · rename_i hplaces
    have hmod : places % 2 ^ 32 % 32 = places := by omega
    rw [UInt32.toNat_shiftRight, UInt32.toNat_ofNat', hmod, Nat.shiftRight_eq_div_pow]
  · rename_i hplaces
    have hpow : 2 ^ 32 ≤ 2 ^ places := Nat.pow_le_pow_right (by omega) (by omega)
    exact (Nat.div_eq_of_lt (Nat.lt_of_lt_of_le w.toNat_lt hpow)).symm

/-- The lowest set bit is behind the trailing zeros; the bits above it are those that are left when it is shifted out. -/
theorem testBit_iff (h : w ≠ 0) (j : Nat) : w.toNat.testBit j ↔ j = w.trailingZeros ∨
    w.trailingZeros + 1 ≤ j ∧ (w.shiftOut (w.trailingZeros + 1)).toNat.testBit (j - (w.trailingZeros + 1)) := by
  obtain ⟨q, hq⟩ := exists_odd h
  rw [toNat_shiftOut, Nat.testBit_div_two_pow]
  rcases Nat.lt_trichotomy j w.trailingZeros with hlt | heq | hgt
  · have hfalse : w.toNat.testBit j = false := by
      rw [hq, Nat.testBit_two_pow_mul, decide_eq_false (by omega), Bool.false_and]
    rw [hfalse]
    exact iff_of_false (by simp) (by omega)
  · refine iff_of_true ?_ (.inl heq)
    rw [hq, heq, Nat.testBit_two_pow_mul]
    simp
  · rw [Nat.sub_add_cancel hgt]
    refine ⟨fun hbit => .inr ⟨hgt, hbit⟩, ?_⟩
    rintro (heq | ⟨-, hbit⟩)
    · omega
    · exact hbit

theorem ne_zero_of_two_pow {n : Nat} (h : w.toNat = 2 ^ n) : w ≠ 0 := by
  intro hzero
  rw [hzero] at h
  exact Nat.ne_of_lt (Nat.two_pow_pos n) h

theorem lt_of_two_pow {n : Nat} (h : w.toNat = 2 ^ n) : n < 32 := by
  have hlt := w.toNat_lt
  rw [h] at hlt
  exact (Nat.pow_lt_pow_iff_right (by omega)).mp hlt

theorem trailingZeros_of_two_pow {n : Nat} (h : w.toNat = 2 ^ n) : w.trailingZeros = n := by
  obtain ⟨q, hq⟩ := exists_odd (ne_zero_of_two_pow h)
  have hpow : 2 ^ w.trailingZeros * (2 * q + 1) = 2 ^ n := hq.symm.trans h
  rcases Nat.lt_trichotomy w.trailingZeros n with hlt | heq | hgt
  · -- what is left of the power is even
    obtain ⟨d, rfl⟩ := Nat.exists_eq_add_of_lt hlt
    have hodd : 2 * q + 1 = 2 ^ (d + 1) := by
      apply Nat.eq_of_mul_eq_mul_left (Nat.two_pow_pos w.trailingZeros)
      rw [hpow, ← Nat.pow_add, Nat.add_assoc]
    rw [Nat.pow_succ] at hodd
    omega
  · exact heq
  · have hlt : 2 ^ n < 2 ^ w.trailingZeros := Nat.pow_lt_pow_right (by omega) hgt
    have hle : 2 ^ w.trailingZeros ≤ 2 ^ w.trailingZeros * (2 * q + 1) := Nat.le_mul_of_pos_right _ (Nat.succ_pos _)
    omega

theorem and_sub_one_eq_zero_iff (h : w ≠ 0) : w &&& (w - 1) = 0 ↔ ∃ n, w.toNat = 2 ^ n := by
  have hpos : w.toNat ≠ 0 := toNat_ne_zero h
  have hle : (1 : Word) ≤ w := by
    rw [UInt32.le_iff_toNat_le]
    exact Nat.one_le_iff_ne_zero.mpr hpos
  calc w &&& (w - 1) = 0 ↔ w.toNat &&& (w.toNat - 1) = 0 := by
        rw [← UInt32.toNat_inj, UInt32.toNat_and, UInt32.toNat_sub_of_le _ _ hle]
        rfl
    _ ↔ ∃ n, w.toNat = 2 ^ n := Nat.and_sub_one_eq_zero_iff_isPowerOfTwo hpos

/-- A word with a single bit is the power of two of its position. -/
theorem singleBit?_eq_some_iff {i : BitIndex} : w.singleBit? = some i ↔ w.toNat = 2 ^ i.val := by
  rw [singleBit?]
  by_cases hbit : w ≠ 0 ∧ w &&& (w - 1) = 0
  · obtain ⟨n, hn⟩ := (and_sub_one_eq_zero_iff hbit.1).mp hbit.2
    rw [if_pos hbit, trailingZeros_of_two_pow hn, Option.some.injEq, hn, Fin.ext_iff, Fin.val_ofNat,
      Nat.mod_eq_of_lt (lt_of_two_pow hn)]
    exact (Nat.pow_right_inj (by omega)).symm
  · rw [if_neg hbit]
    refine iff_of_false (by simp) ?_
    intro h
    have hne : w ≠ 0 := ne_zero_of_two_pow h
    exact hbit ⟨hne, (and_sub_one_eq_zero_iff hne).mpr ⟨i.val, h⟩⟩

end Word

namespace BitScan

/-- What is left fits into the bits that were not passed. -/
structure Within (s : BitScan) : Prop where
  passed_le : s.passed ≤ 32
  rest_lt : s.rest.toNat * 2 ^ s.passed < 2 ^ 32

theorem within_start (w : Word) : Within ⟨w, 0⟩ := ⟨Nat.zero_le 32, by simpa using w.toNat_lt⟩

variable {s : BitScan}

/-- the position of the next set bit -/
def lowest (s : BitScan) : BitIndex := Fin.ofNat 32 (s.passed + s.rest.trailingZeros)

/-- the scan behind its next set bit -/
def behind (s : BitScan) : BitScan :=
  ⟨s.rest.shiftOut (s.rest.trailingZeros + 1), s.passed + s.rest.trailingZeros + 1⟩

/-- What is left, put back to its place, is its lowest bit and what is left behind that bit. -/
theorem shifted_rest (hrest : s.rest ≠ 0) : s.rest.toNat * 2 ^ s.passed =
    2 ^ (s.passed + s.rest.trailingZeros) + s.behind.rest.toNat * 2 ^ s.behind.passed := by
  obtain ⟨q, hq⟩ := Word.exists_odd hrest
  have hbehind : s.behind.rest.toNat = q := by
    rw [behind, Word.toNat_shiftOut, hq, Nat.pow_succ, ← Nat.div_div_eq_div_mul,
      Nat.mul_div_cancel_left _ (Nat.two_pow_pos _)]
    omega
  have hpassed : 2 ^ s.behind.passed = 2 ^ (s.passed + s.rest.trailingZeros) * 2 := Nat.pow_succ 2 _
  calc s.rest.toNat * 2 ^ s.passed = (2 * q + 1) * 2 ^ (s.passed + s.rest.trailingZeros) := by
        rw [hq, Nat.add_comm s.passed, Nat.pow_add, Nat.mul_comm (2 ^ _) (2 * q + 1), Nat.mul_assoc]
    _ = 2 ^ (s.passed + s.rest.trailingZeros) + q * (2 ^ (s.passed + s.rest.trailingZeros) * 2) := by
        rw [Nat.add_mul, Nat.one_mul, Nat.add_comm, Nat.mul_comm 2 q, Nat.mul_assoc, Nat.mul_comm 2]
    _ = 2 ^ (s.passed + s.rest.trailingZeros) + s.behind.rest.toNat * 2 ^ s.behind.passed := by
        rw [hbehind, hpassed]

/-- The next set bit is a bit of a word. -/
theorem Within.add_trailingZeros_lt (h : s.Within) (hrest : s.rest ≠ 0) : s.passed + s.rest.trailingZeros < 32 := by
  have hlt : 2 ^ (s.passed + s.rest.trailingZeros) < 2 ^ 32 := by
    apply Nat.lt_of_le_of_lt _ h.rest_lt
    rw [shifted_rest hrest]
    exact Nat.le_add_right _ _
  exact (Nat.pow_lt_pow_iff_right (by omega)).mp hlt

theorem Within.val_lowest (h : s.Within) (hrest : s.rest ≠ 0) : s.lowest.val = s.passed + s.rest.trailingZeros :=
  Nat.mod_eq_of_lt (h.add_trailingZeros_lt hrest)

theorem Within.behind (h : s.Within) (hrest : s.rest ≠ 0) : s.behind.Within := by
  refine ⟨h.add_trailingZeros_lt hrest, ?_⟩
  apply Nat.lt_of_le_of_lt _ h.rest_lt
  rw [shifted_rest hrest]
  exact Nat.le_add_left _ _

theorem next?_of_zero (hrest : s.rest = 0) : s.next? = none := if_pos hrest

theorem next?_of_ne_zero (hrest : s.rest ≠ 0) : s.next? = some (s.lowest, s.behind) := if_neg hrest

theorem drain_of_zero (hrest : s.rest = 0) : s.drain = [] := by
  have hnone := next?_of_zero hrest
  rw [drain]
  split
  · rfl
  · rename_i h
    rw [hnone] at h
    cases h

theorem drain_of_ne_zero (hrest : s.rest ≠ 0) : s.drain = s.lowest :: s.behind.drain := by
  have hsome := next?_of_ne_zero hrest
  rw [drain]
  split
  · rename_i h
    rw [hsome] at h
    cases h
  · rename_i h
    rw [hsome] at h
    cases h
    rfl

theorem behind_lt (hrest : s.rest ≠ 0) : s.behind.rest.toNat < s.rest.toNat := shiftOut_lt hrest _

/-- What a scan finds are the set bits that it has not passed. -/
theorem Within.mem_drain_iff (h : s.Within) {i : BitIndex} :
    i ∈ s.drain ↔ s.passed ≤ i.val ∧ s.rest.toNat.testBit (i.val - s.passed) := by
  induction hn : s.rest.toNat using Nat.strongRecOn generalizing s with
  | ind n ih =>
    subst hn
    by_cases hrest : s.rest = 0
    · rw [drain_of_zero hrest, hrest]
      simp
    · rw [drain_of_ne_zero hrest, List.mem_cons, ih _ (behind_lt hrest) (h.behind hrest) rfl, Fin.ext_iff,
        h.val_lowest hrest, Word.testBit_iff hrest, Nat.sub_sub]
      simp only [BitScan.behind]
      refine ⟨?_, ?_⟩
      · rintro (heq | ⟨hle, hbit⟩)
        · exact ⟨by omega, .inl (by omega)⟩
        · exact ⟨by omega, .inr ⟨by omega, hbit⟩⟩
      · rintro ⟨hle, heq | ⟨hlt, hbit⟩⟩
        · exact .inl (by omega)
        · exact .inr ⟨by omega, hbit⟩

/-- A scan goes up. -/
theorem Within.pairwise_drain (h : s.Within) : s.drain.Pairwise (· < ·) := by
  induction hn : s.rest.toNat using Nat.strongRecOn generalizing s with
  | ind n ih =>
    subst hn
    by_cases hrest : s.rest = 0
    · rw [drain_of_zero hrest]
      exact .nil
    · rw [drain_of_ne_zero hrest]
      refine .cons (fun i hi => ?_) (ih _ (behind_lt hrest) (h.behind hrest) rfl)
      have hpassed : s.passed + s.rest.trailingZeros + 1 ≤ i.val := ((h.behind hrest).mem_drain_iff.mp hi).1
      rw [Fin.lt_def, h.val_lowest hrest]
      exact hpassed

end BitScan

namespace Word

/-- The positions that are found are those of the set bits. -/
theorem mem_setBits_iff {w : Word} {i : BitIndex} : i ∈ w.setBits ↔ w.toNat.testBit i.val := by
  rw [setBits, (BitScan.within_start w).mem_drain_iff]
  simp

theorem pairwise_setBits (w : Word) : w.setBits.Pairwise (· < ·) := (BitScan.within_start w).pairwise_drain

/-- Ascending positions of the set bits are the positions found. -/
theorem eq_setBits {w : Word} {l : List BitIndex} (hl : l.Pairwise (· < ·))
    (hmem : ∀ i, i ∈ l ↔ w.toNat.testBit i.val) : l = w.setBits := by
  have nodup {l : List BitIndex} (hl : l.Pairwise (· < ·)) : l.Nodup := hl.imp Fin.ne_of_lt
  have hperm : l.Perm w.setBits := by
    apply (List.perm_ext_iff_of_nodup (nodup hl) (nodup w.pairwise_setBits)).mpr
    intro i
    rw [hmem, mem_setBits_iff]
  apply List.Perm.eq_of_pairwise _ hl w.pairwise_setBits hperm
  intro i j _ _ hij hji
  exact absurd hji (Fin.lt_asymm hij)

theorem setBits_eq_filter (w : Word) : w.setBits = (List.finRange 32).filter fun i => w.toNat.testBit i.val := by
  refine (eq_setBits ?_ ?_).symm
  · exact (List.pairwise_lt_finRange 32).filter _
  · intro i
    simp [List.mem_finRange]

end Word

end Spirv
