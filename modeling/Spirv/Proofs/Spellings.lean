/-
How numbers are spelled. A number is a row of decimal digits, or `0x` and a row of hexadecimal digits of either case; a plus
sign may stand in front of the row, and zeros in front change nothing. `Numeral.Spells` is this grammar, with the number that
a spelling amounts to as the sum of its digits times the powers of the base. It knows no bound; the reader does, and it gives up
as soon as what it has read no longer fits a word.

- `Numeral.digit?_eq_some_iff`: one digit.
- `Numeral.digits_eq_ok_iff`: a row behind digits that were read already. What was read never gets smaller, so a row that is
  given up amounts to too much.
- `Numeral.Spells.unique`: a text spells one number at most, as no decimal row begins with `0x`.

Main result:
- `Numeral.reads_what_is_spelled`: a text is read as a word if, and only if, it spells it.
-/
import Mathlib.Data.List.Forall2
import Mathlib.Data.Nat.Digits.Defs
import Spirv.Proofs.Numerals

namespace Spirv

namespace Numeral

/-! ## The grammar -/

/-- the character is this digit, in lower or upper case -/
def IsDigit (base : Nat) (c : Char) (d : Nat) : Prop := d < base ∧ (c = d.digitChar ∨ c = d.digitChar.toUpper)

/-- one or more digits, the most significant first, that amount to the number -/
def Amounts (base : Nat) (cs : List Char) (n : Nat) : Prop :=
  cs ≠ [] ∧ ∃ ds, List.Forall₂ (IsDigit base) cs ds ∧ Nat.ofDigits base ds.reverse = n

/-- such a row, with or without a plus sign in front -/
inductive Signed (base : Nat) : List Char → Nat → Prop where
  | bare {cs n} (h : Amounts base cs n) : Signed base cs n
  | plus {cs n} (h : Amounts base cs n) : Signed base ('+' :: cs) n

/-- the texts that stand for a number -/
inductive Spells : List Char → Nat → Prop where
  | decimal {cs n} (h : Signed 10 cs n) : Spells cs n
  | hexadecimal {cs n} (h : Signed 16 cs n) : Spells ('0' :: 'x' :: cs) n

/-! ## One digit -/

variable {base : Nat}

theorem isDigit_of_digit? {c : Char} {d : Nat} (h : digit? base c = some d) : IsDigit base c d := by
  have hdecimal : ∀ d < 10, d.digitChar.toNat = d + '0'.toNat := by decide
  have hlower : ∀ d < 6, (d + 10).digitChar.toNat = d + 'a'.toNat := by decide
  have hupper : ∀ d < 6, (d + 10).digitChar.toUpper.toNat = d + 'A'.toNat := by decide
  have hzero : '0'.toNat = 48 := rfl
  have hnine : '9'.toNat = 57 := rfl
  obtain ⟨hvalue, hlt⟩ := Option.filter_eq_some_iff.mp h
  refine ⟨of_decide_eq_true hlt, ?_⟩
  split at hvalue
  · rename_i hrange
    obtain rfl := Option.some.inj hvalue
    have hle : '0'.toNat ≤ c.toNat ∧ c.toNat ≤ '9'.toNat := hrange
    left
    apply Char.toNat_inj.mp
    rw [hdecimal _ (by omega)]
    omega
  split at hvalue
  · rename_i hrange
    obtain rfl := Option.some.inj hvalue
    have hle : 'a'.toNat ≤ c.toNat ∧ c.toNat ≤ 'a'.toNat + 5 := hrange
    left
    apply Char.toNat_inj.mp
    rw [hlower _ (by omega)]
    omega
  split at hvalue
  · rename_i hrange
    obtain rfl := Option.some.inj hvalue
    have hle : 'A'.toNat ≤ c.toNat ∧ c.toNat ≤ 'A'.toNat + 5 := hrange
    right
    apply Char.toNat_inj.mp
    rw [hupper _ (by omega)]
    omega
  · cases hvalue

theorem digit?_eq_some_iff (hbase : base ≤ 16) {c : Char} {d : Nat} : digit? base c = some d ↔ IsDigit base c d := by
  have hupper : ∀ base < 17, ∀ d < base, digit? base d.digitChar.toUpper = some d := by decide +kernel
  refine ⟨isDigit_of_digit?, ?_⟩
  rintro ⟨hd, rfl | rfl⟩
  · exact digit?_digitChar hbase hd
  · exact hupper base (by omega) d hd

theorem not_isDigit_plus (hbase : base ≤ 16) (d : Nat) : ¬IsDigit base '+' d := by
  rw [← digit?_eq_some_iff hbase]
  intro h
  cases h

/-! ## Rows of digits -/

/-- the first digit of a row moves what stands in front of it up by one place -/
theorem ofDigits_reverse_cons (base value d : Nat) (ds : List Nat) :
    base ^ (d :: ds).length * value + Nat.ofDigits base (d :: ds).reverse =
      base ^ ds.length * (base * value + d) + Nat.ofDigits base ds.reverse := by
  rw [List.reverse_cons, Nat.ofDigits_append, Nat.ofDigits_singleton, List.length_reverse, List.length_cons, Nat.pow_succ,
    Nat.mul_add, Nat.mul_assoc]
  omega

/-- A row is read, behind digits that gave `value`, as the number that all these digits amount to. -/
theorem digits_eq_ok_iff (hpos : 0 < base) (hbase : base ≤ 16) {value n : Nat} (hvalue : value < 2 ^ 32) {cs : List Char} :
    digits base value cs = .ok n ↔ n < 2 ^ 32 ∧ ∃ ds, List.Forall₂ (IsDigit base) cs ds ∧
      base ^ ds.length * value + Nat.ofDigits base ds.reverse = n := by
  induction cs generalizing value with
  | nil =>
    rw [digits_nil]
    constructor
    · intro h
      obtain rfl := Except.ok.inj h
      exact ⟨hvalue, [], .nil, by simp⟩
    · rintro ⟨-, ds, hds, rfl⟩
      cases hds
      simp
  | cons c cs ih =>
    rw [digits_cons]
    cases hd : digit? base c with
    | none =>
      refine iff_of_false (by simp) ?_
      rintro ⟨-, ds, hds, -⟩
      cases hds with
      | cons hc =>
        rw [(digit?_eq_some_iff hbase).mpr hc] at hd
        cases hd
    | some d =>
      have hc := (digit?_eq_some_iff hbase).mp hd
      -- all digits of the row, from this one and the digits behind it
      have hrow : (∃ ds, List.Forall₂ (IsDigit base) (c :: cs) ds ∧
            base ^ ds.length * value + Nat.ofDigits base ds.reverse = n) ↔
          ∃ ds, List.Forall₂ (IsDigit base) cs ds ∧
            base ^ ds.length * (base * value + d) + Nat.ofDigits base ds.reverse = n := by
        constructor
        · rintro ⟨ds, hds, rfl⟩
          cases hds with
          | cons hc' hds =>
            obtain rfl := Option.some.inj (hd.symm.trans ((digit?_eq_some_iff hbase).mpr hc'))
            exact ⟨_, hds, (ofDigits_reverse_cons base value _ _).symm⟩
        · rintro ⟨ds, hds, rfl⟩
          exact ⟨d :: ds, .cons hc hds, ofDigits_reverse_cons base value d ds⟩
      simp only
      split
      · rename_i hfits
        rw [ih hfits, hrow]
      · rename_i hlarge
        refine iff_of_false (by simp) ?_
        rw [hrow]
        rintro ⟨hn, ds, -, rfl⟩
        have hle : base * value + d ≤ base ^ ds.length * (base * value + d) :=
          Nat.le_mul_of_pos_left _ (Nat.pow_pos hpos)
        omega

/-! ## Rows with a plus sign -/

theorem digits_zero_eq_ok_iff (hpos : 0 < base) (hbase : base ≤ 16) {n : Nat} {cs : List Char} (hcs : cs ≠ []) :
    digits base 0 cs = .ok n ↔ n < 2 ^ 32 ∧ Amounts base cs n := by
  simp [digits_eq_ok_iff hpos hbase (Nat.two_pow_pos 32), Amounts, hcs]

theorem not_amounts_plus (hbase : base ≤ 16) {cs : List Char} {n : Nat} : ¬Amounts base ('+' :: cs) n := by
  rintro ⟨-, ds, hds, -⟩
  cases hds with
  | cons hc => exact not_isDigit_plus hbase _ hc

theorem signed_plus_iff (hbase : base ≤ 16) {cs : List Char} {n : Nat} : Signed base ('+' :: cs) n ↔ Amounts base cs n := by
  refine ⟨?_, .plus⟩
  intro h
  cases h with
  | bare h => exact absurd h (not_amounts_plus hbase)
  | plus h => exact h

theorem signed_iff_of_ne {c : Char} (hc : c ≠ '+') {cs : List Char} {n : Nat} :
    Signed base (c :: cs) n ↔ Amounts base (c :: cs) n := by
  refine ⟨?_, .bare⟩
  intro h
  cases h with
  | bare h => exact h
  | plus => exact absurd rfl hc

theorem unsigned_of_ne {c : Char} (hc : c ≠ '+') (cs : List Char) :
    unsigned base (c :: cs) = digits base 0 (c :: cs) := by
  unfold unsigned
  split
  · rename_i h
    cases h
  · rename_i h
    exact absurd (List.cons.inj h).1 hc
  · rename_i h
    exact absurd (List.cons.inj h).1 hc
  · rfl

theorem unsigned_eq_ok_iff (hpos : 0 < base) (hbase : base ≤ 16) {n : Nat} {cs : List Char} :
    unsigned base cs = .ok n ↔ n < 2 ^ 32 ∧ Signed base cs n := by
  cases cs with
  | nil =>
    refine iff_of_false (by simp [unsigned]) ?_
    rintro ⟨-, h⟩
    cases h with
    | bare h => exact h.1 rfl
  | cons c cs =>
    by_cases hc : c = '+'
    · subst hc
      rw [signed_plus_iff hbase]
      cases cs with
      | nil => exact iff_of_false (by simp [unsigned]) fun h => h.2.1 rfl
      | cons d cs => exact digits_zero_eq_ok_iff hpos hbase (List.cons_ne_nil _ _)
    · rw [unsigned_of_ne hc, signed_iff_of_ne hc]
      exact digits_zero_eq_ok_iff hpos hbase (List.cons_ne_nil _ _)

/-! ## One spelling, one number -/

theorem IsDigit.unique (hbase : base ≤ 16) : Relator.RightUnique (IsDigit base) := by
  intro c d e hd he
  rw [← digit?_eq_some_iff hbase] at hd he
  exact Option.some.inj (hd.symm.trans he)

theorem Amounts.unique (hbase : base ≤ 16) {cs : List Char} {m n : Nat} (hm : Amounts base cs m) (hn : Amounts base cs n) :
    m = n := by
  obtain ⟨-, ds, hds, rfl⟩ := hm
  obtain ⟨-, es, hes, rfl⟩ := hn
  rw [(IsDigit.unique hbase).forall₂ hds hes]

theorem Signed.unique (hbase : base ≤ 16) {cs : List Char} {m n : Nat} (hm : Signed base cs m) (hn : Signed base cs n) :
    m = n := by
  cases hm with
  | bare hm =>
    cases hn with
    | bare hn => exact hm.unique hbase hn
    | plus => exact absurd hm (not_amounts_plus hbase)
  | plus hm => exact hm.unique hbase ((signed_plus_iff hbase).mp hn)

/-- The letter behind the zero is no decimal digit. -/
theorem not_signed_marked {cs : List Char} {n : Nat} : ¬Signed 10 ('0' :: 'x' :: cs) n := by
  rw [signed_iff_of_ne (by decide)]
  rintro ⟨-, ds, hds, -⟩
  cases hds with
  | cons _ hds =>
    cases hds with
    | cons hx =>
      rw [← digit?_eq_some_iff (by decide)] at hx
      cases hx

theorem spells_marked_iff {cs : List Char} {n : Nat} : Spells ('0' :: 'x' :: cs) n ↔ Signed 16 cs n := by
  refine ⟨?_, .hexadecimal⟩
  intro h
  cases h with
  | decimal h => exact absurd h not_signed_marked
  | hexadecimal h => exact h

/-- A text spells one number at most. -/
theorem Spells.unique {cs : List Char} {m n : Nat} (hm : Spells cs m) (hn : Spells cs n) : m = n := by
  cases hm with
  | decimal hm =>
    cases hn with
    | decimal hn => exact hm.unique (by decide) hn
    | hexadecimal => exact absurd hm not_signed_marked
  | hexadecimal hm => exact hm.unique (by decide) (spells_marked_iff.mp hn)

/-! ## Main result -/

theorem ofNat_eq_iff_signed (hpos : 0 < base) (hbase : base ≤ 16) {cs : List Char} {n : Nat} (h : unsigned base cs = .ok n)
    (w : Word) : UInt32.ofNat n = w ↔ Signed base cs w.toNat := by
  obtain ⟨hn, hsigned⟩ := (unsigned_eq_ok_iff hpos hbase).mp h
  constructor
  · rintro rfl
    rw [UInt32.toNat_ofNat', Nat.mod_eq_of_lt hn]
    exact hsigned
  · intro hw
    rw [hsigned.unique hbase hw, UInt32.ofNat_toNat]

theorem not_signed_of_fault (hpos : 0 < base) (hbase : base ≤ 16) {cs : List Char} {fault : DigitsFault}
    (h : unsigned base cs = .error fault) (w : Word) : ¬Signed base cs w.toNat := by
  intro hw
  rw [(unsigned_eq_ok_iff hpos hbase).mpr ⟨w.toNat_lt, hw⟩] at h
  cases h

/-- Only a text that is no row of decimal digits is looked at for the mark of a hexadecimal one. -/
theorem ofChars_eq_ok_iff {cs : List Char} {w : Word} : ofChars cs = .ok w ↔ Spells cs w.toNat := by
  unfold ofChars
  split
  · rename_i n hdecimal
    rw [Except.ok.injEq, ofNat_eq_iff_signed (by decide) (by decide) hdecimal]
    refine ⟨.decimal, ?_⟩
    intro h
    cases h with
    | decimal h => exact h
    | hexadecimal => exact absurd ((unsigned_eq_ok_iff (by decide) (by decide)).mp hdecimal).2 not_signed_marked
  · rename_i hdecimal
    split
    · rename_i row
      rw [spells_marked_iff]
      split
      · rename_i n hmarked
        rw [Except.ok.injEq, ofNat_eq_iff_signed (by decide) (by decide) hmarked]
      · rename_i hmarked
        exact iff_of_false (by simp) (not_signed_of_fault (by decide) (by decide) hmarked w)
    · rename_i hunmarked
      refine iff_of_false (by simp) ?_
      intro h
      cases h with
      | decimal h => exact not_signed_of_fault (by decide) (by decide) hdecimal w h
      | hexadecimal => exact hunmarked _ rfl

/-- the digits of a number with zeros in front, and a plus sign in front of these or not -/
def row (base n : Nat) (sign : Bool) (zeros : Nat) : List Char :=
  (if sign then ['+'] else []) ++ (List.replicate zeros '0' ++ base.toDigits n)

theorem signed_row (hpos : 1 < base) (hbase : base ≤ 16) (w : Word) (sign : Bool) (zeros : Nat) :
    Signed base (row base w.toNat sign zeros) w.toNat := by
  have hread : digits base 0 (List.replicate zeros '0' ++ base.toDigits w.toNat) = .ok w.toNat := by
    rw [digits_zeros base zeros (by omega) hbase, digits_toDigits hpos hbase w.toNat_lt]
  have hne : List.replicate zeros '0' ++ base.toDigits w.toNat ≠ [] :=
    List.append_ne_nil_of_right_ne_nil _ Nat.toDigits_ne_nil
  obtain ⟨-, hrow⟩ := (digits_zero_eq_ok_iff (by omega) hbase hne).mp hread
  cases sign with
  | false => exact .bare hrow
  | true => exact .plus hrow

/-- **A text is read as the word that it spells.** A text that spells no number below the bound is refused, and no text spells
two numbers. Every word has a decimal and a hexadecimal spelling, with or without a sign, behind any number of zeros, and is
read from it. -/
theorem reads_what_is_spelled :
    (∀ s (w : Word), read s = .ok w ↔ Spells s.toList w.toNat) ∧
    (∀ s, (∃ e, read s = .error e) ↔ ∀ n, Spells s.toList n → 2 ^ 32 ≤ n) ∧
    (∀ cs m n, Spells cs m → Spells cs n → m = n) ∧
    ∀ (w : Word) sign zeros, read (.ofList (row 10 w.toNat sign zeros)) = .ok w ∧
      read (.ofList ('0' :: 'x' :: row 16 w.toNat sign zeros)) = .ok w := by
  have hread (s : String) (w : Word) : read s = .ok w ↔ Spells s.toList w.toNat := ofChars_eq_ok_iff
  refine ⟨hread, fun s => ?_, fun cs m n => Spells.unique, fun w sign zeros => ?_⟩
  · constructor
    · rintro ⟨e, he⟩ n hn
      by_contra hlt
      have hw := (hread s (.ofNat n)).mpr (by rwa [UInt32.toNat_ofNat', Nat.mod_eq_of_lt (by omega)])
      rw [he] at hw
      cases hw
    · intro h
      cases hs : read s with
      | error e => exact ⟨e, rfl⟩
      | ok w =>
        have hle := h _ ((hread s w).mp hs)
        exact absurd w.toNat_lt (Nat.not_lt.mpr hle)
  · rw [hread, hread, String.toList_ofList, String.toList_ofList]
    exact ⟨.decimal (signed_row (by decide) (by decide) w sign zeros),
      .hexadecimal (signed_row (by decide) (by decide) w sign zeros)⟩

/-- digits of both cases behind a sign, and a number that is one too large -/
example : read "0x+00fF" = .ok 255 ∧ read "4294967296" = .error (.unmarked "4294967296") := by decide +kernel

end Numeral

end Spirv
