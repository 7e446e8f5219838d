/-
Texts as bytes. The bytes of a text are those of its characters one after the other, up to four for each. The first byte of
a character says how many there are and the rest of them go by the number of the character, so the zero byte stands for NUL
alone, and a character with a smaller number has smaller bytes. Texts are therefore in the same order by their bytes and by
their characters.

- `toList_toUTF8`: the bytes of a text.
- `zero_mem_toUTF8_iff`: which texts have a zero byte.
- `toUTF8_lt_iff`: the order of two texts.
-/
import Mathlib.Tactic.SplitIfs
import Spirv.Word

namespace Spirv.Text

/-! ## Bytes of a text -/

theorem toList_loop_eq (bs : ByteArray) (i : Nat) (done : List UInt8) :
    ByteArray.toList.loop bs i done = done.reverse ++ bs.data.toList.drop i := by
  fun_induction ByteArray.toList.loop bs i done with
  | case1 i done h ih =>
    have hi : i < bs.data.toList.length := by simpa using h
    have hget : bs.get! i = bs.data.toList[i] := by simp [ByteArray.get!, h]
    rw [ih, List.drop_eq_getElem_cons hi, hget, List.reverse_cons, List.append_assoc, List.singleton_append]
  | case2 i done h =>
    have hi : bs.data.toList.length ≤ i := by simpa using Nat.le_of_not_lt h
    rw [List.drop_eq_nil_of_le hi, List.append_nil]

theorem toList_eq_data (bs : ByteArray) : bs.toList = bs.data.toList := by
  rw [ByteArray.toList, toList_loop_eq]
  rfl

theorem length_toList (bs : ByteArray) : bs.toList.length = bs.size := by
  rw [toList_eq_data]
  rfl

/-- The bytes of a text are those of its characters. -/
theorem toList_toUTF8 (s : String) : s.toUTF8.toList = s.toList.flatMap String.utf8EncodeChar := by
  rw [toList_eq_data, String.toUTF8_eq_toByteArray, ← String.utf8Encode_toList, List.utf8Encode,
    List.toList_data_toByteArray]

/-! ## The zero byte -/

theorem toNat_val_lt (c : Char) : c.val.toNat < 0x110000 := by
  obtain h | h := c.valid
  · exact Nat.lt_trans h (by decide)
  · exact h.2

theorem zero_mem_utf8EncodeChar_iff {c : Char} : 0 ∈ String.utf8EncodeChar c ↔ c = '\x00' := by
  have hlt := toNat_val_lt c
  have hc : c = '\x00' ↔ c.val.toNat = 0 := by
    rw [← Char.toNat_inj]
    rfl
  rw [hc, String.utf8EncodeChar]
  generalize c.val.toNat = v at hlt
  split_ifs
  all_goals
    simp only [List.mem_cons, List.not_mem_nil, or_false, ← UInt8.toNat_inj, UInt8.toNat_ofNat', UInt8.toNat_ofNat]
    omega

/-- A text has a zero byte when it has a NUL in it. -/
theorem zero_mem_toUTF8_iff {s : String} : 0 ∈ s.toUTF8.toList ↔ '\x00' ∈ s.toList := by
  rw [toList_toUTF8]
  simp [zero_mem_utf8EncodeChar_iff]

/-! ## The order -/

/-- The bytes of the smaller character are smaller, whatever follows. -/
theorem utf8EncodeChar_append_lt {c d : Char} (h : c < d) (xs ys : List UInt8) :
    String.utf8EncodeChar c ++ xs < String.utf8EncodeChar d ++ ys := by
  have hd := toNat_val_lt d
  have hlt : c.val.toNat < d.val.toNat := h
  rw [String.utf8EncodeChar, String.utf8EncodeChar]
  generalize c.val.toNat = v, d.val.toNat = w at hd hlt
  -- characters of different lengths differ in the first byte, others in the first digit of the number that differs
  split_ifs
  all_goals
    simp (disch := omega) only [List.cons_append, List.nil_append, List.cons_lt_cons_iff, ← UInt8.toNat_inj,
      UInt8.lt_iff_toNat_lt, UInt8.toNat_ofNat', Nat.mod_eq_of_lt, Nat.add_lt_add_iff_right, Nat.add_right_cancel_iff]
    omega

theorem flatMap_utf8EncodeChar_lt {cs ds : List Char} (h : cs < ds) :
    cs.flatMap String.utf8EncodeChar < ds.flatMap String.utf8EncodeChar := by
  induction cs generalizing ds with
  | nil =>
    cases ds with
    | nil => exact absurd h (List.lt_irrefl [])
    | cons d ds =>
      have hne : (d :: ds).flatMap String.utf8EncodeChar ≠ [] := by simp
      obtain ⟨b, bs, hbs⟩ := List.exists_cons_of_ne_nil hne
      rw [hbs]
      exact List.nil_lt_cons b bs
  | cons c cs ih =>
    cases ds with
    | nil => exact absurd h (List.not_lt_nil _)
    | cons d ds =>
      rw [List.flatMap_cons, List.flatMap_cons]
      obtain hcd | ⟨rfl, hlt⟩ := List.cons_lt_cons_iff.mp h
      · exact utf8EncodeChar_append_lt hcd ..
      · exact List.append_left_lt (ih hlt)

/-- Texts are in the order of their bytes. -/
theorem toUTF8_lt_iff {s t : String} : s.toUTF8.toList < t.toUTF8.toList ↔ s < t := by
  rw [toList_toUTF8, toList_toUTF8, String.lt_iff]
  refine ⟨?_, flatMap_utf8EncodeChar_lt⟩
  intro h
  apply Decidable.byContradiction
  intro hnot
  obtain hlt | heq := List.le_iff_lt_or_eq.mp (List.not_lt.mp hnot)
  · exact List.lt_asymm h (flatMap_utf8EncodeChar_lt hlt)
  · rw [heq] at h
    exact List.lt_irrefl _ h

end Spirv.Text
