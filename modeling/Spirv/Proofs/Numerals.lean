/-
Numbers in printed text are read back as what they are. The digits of a number are read one after the other, the last of
them last, so reading goes along with the recursion that writes them; zeros in front change nothing. What can be read back
is not written in two ways, which is what the lemmas about `hex` and `hexWord` say.

- `Numeral.digits_toDigits`: digits that were written are read as the number, in any base up to 16.
- `Numeral.isAlphanum_of_mem_toDigits`: no digit is a mark of punctuation.
- `Text.hex_inj`, `Text.hexWord_inj`: words with one text are equal.
-/
import Mathlib.Algebra.Group.Nat.Defs
import Spirv.Numeral
import Spirv.Text.Hex

namespace Spirv

namespace Numeral

theorem digit?_digitChar {base d : Nat} (hbase : base ≤ 16) (hd : d < base) : digit? base d.digitChar = some d := by
  have hall : ∀ base < 17, ∀ d < base, digit? base d.digitChar = some d := by decide +kernel
  exact hall base (by omega) d hd

theorem digits_nil (base value : Nat) : digits base value [] = .ok value := rfl

theorem digits_cons (base value : Nat) (c : Char) (cs : List Char) : digits base value (c :: cs) =
    match digit? base c with
    | none => .error .foreign
    | some d => if base * value + d < 2 ^ 32 then digits base (base * value + d) cs else .error .tooLarge := rfl

theorem digits_append (base value : Nat) (cs ds : List Char) :
    digits base value (cs ++ ds) = digits base value cs >>= fun n => digits base n ds := by
  induction cs generalizing value with
  | nil => rfl
  | cons c cs ih =>
    rw [List.cons_append, digits_cons, digits_cons]
    cases digit? base c with
    | none => rfl
    | some d =>
      simp only
      split
      · exact ih _
      · rfl

theorem digits_digitChar {base value d : Nat} (hbase : base ≤ 16) (hd : d < base) (hvalue : base * value + d < 2 ^ 32) :
    digits base value [d.digitChar] = .ok (base * value + d) := by
  simp only [digits_cons, digits_nil, digit?_digitChar hbase hd]
  rw [if_pos hvalue]

/-- The digits of a number are read as this number. -/
theorem digits_toDigits {base : Nat} (hpos : 1 < base) (hbase : base ≤ 16) {n : Nat} (hn : n < 2 ^ 32) :
    digits base 0 (base.toDigits n) = .ok n := by
  induction n using Nat.strongRecOn with
  | ind n ih =>
    rw [Nat.toDigits_eq_if hpos]
    split
    · rename_i hlt
      rw [digits_digitChar hbase hlt (by omega), Nat.mul_zero, Nat.zero_add]
    · rename_i hle
      have hdiv : n / base < n := Nat.div_lt_self (by omega) hpos
      have hmod : n % base < base := Nat.mod_lt n (by omega)
      have heq : base * (n / base) + n % base = n := Nat.div_add_mod n base
      rw [digits_append, ih (n / base) hdiv (by omega)]
      exact (digits_digitChar hbase hmod (by omega)).trans (by rw [heq])

/-- Zeros in front mean nothing. -/
theorem digits_zeros (base count : Nat) (hbase : 0 < base) (hle : base ≤ 16) (cs : List Char) :
    digits base 0 (List.replicate count '0' ++ cs) = digits base 0 cs := by
  induction count with
  | zero => rfl
  | succ count ih =>
    have hzero : digit? base '0' = some 0 := digit?_digitChar hle hbase
    rw [List.replicate_succ, List.cons_append, digits_cons]
    simp only [hzero]
    exact ih

theorem toDigits_inj {base : Nat} (hpos : 1 < base) (hbase : base ≤ 16) {m n : Nat} (hm : m < 2 ^ 32) (hn : n < 2 ^ 32)
    (h : base.toDigits m = base.toDigits n) : m = n := by
  have hread : digits base 0 (base.toDigits m) = .ok n := by rw [h, digits_toDigits hpos hbase hn]
  exact Except.ok.inj ((digits_toDigits hpos hbase hm).symm.trans hread)

theorem isAlphanum_of_mem_toDigits {base : Nat} (hpos : 1 < base) (hbase : base ≤ 16) {n : Nat} {c : Char}
    (h : c ∈ base.toDigits n) : c.isAlphanum := by
  have hdigit : ∀ d < 16, d.digitChar.isAlphanum := by decide
  induction n using Nat.strongRecOn with
  | ind n ih =>
    rw [Nat.toDigits_eq_if hpos] at h
    split at h
    · rename_i hlt
      rw [List.mem_singleton.mp h]
      exact hdigit n (by omega)
    · rename_i hle
      rcases List.mem_append.mp h with h | h
      · exact ih (n / base) (Nat.div_lt_self (by omega) hpos) h
      · have hmod : n % base < base := Nat.mod_lt n (by omega)
        rw [List.mem_singleton.mp h]
        exact hdigit (n % base) (by omega)

end Numeral

namespace Text

theorem toList_hex (w : Word) : (hex w).toList = Nat.toDigits 16 w.toNat := String.toList_ofList

theorem hex_inj {v w : Word} : hex v = hex w ↔ v = w := by
  refine ⟨?_, congrArg hex⟩
  intro h
  rw [hex, hex, String.ofList_inj] at h
  exact UInt32.toNat_inj.mp (Numeral.toDigits_inj (by decide) (by decide) v.toNat_lt w.toNat_lt h)

theorem toList_hexWord (w : Word) : (hexWord w).toList =
    List.replicate (8 - (Nat.toDigits 16 w.toNat).length) '0' ++ Nat.toDigits 16 w.toNat := String.toList_ofList

theorem digits_hexWord (w : Word) : Numeral.digits 16 0 (hexWord w).toList = .ok w.toNat := by
  rw [toList_hexWord, Numeral.digits_zeros _ _ (by decide) (by decide),
    Numeral.digits_toDigits (by decide) (by decide) w.toNat_lt]

theorem hexWord_inj {v w : Word} : hexWord v = hexWord w ↔ v = w := by
  refine ⟨?_, congrArg hexWord⟩
  intro h
  have hread : Numeral.digits 16 0 (hexWord v).toList = .ok w.toNat := by rw [h, digits_hexWord]
  exact UInt32.toNat_inj.mp (Except.ok.inj ((digits_hexWord v).symm.trans hread))

theorem isAlphanum_of_mem_hexWord {w : Word} {c : Char} (h : c ∈ (hexWord w).toList) : c.isAlphanum := by
  rw [toList_hexWord] at h
  rcases List.mem_append.mp h with h | h
  · rw [List.eq_of_mem_replicate h]
    decide
  · exact Numeral.isAlphanum_of_mem_toDigits (by decide) (by decide) h

theorem toList_hexWord_ne_nil (w : Word) : (hexWord w).toList ≠ [] := by
  rw [toList_hexWord]
  exact List.append_ne_nil_of_right_ne_nil _ Nat.toDigits_ne_nil

end Text

end Spirv
