/-
The text of a mask shows the word. It is a row of pieces: the names of the set bits and, if set bits are left that have no
name, their number. When names can be told apart, and from a number (`MaskTable.Legible`), each bit can be read off the
pieces: one that is defined by its name, any other by the number.

- `MaskTable.testBit_unnamed`: the set bits without a name.
- `MaskTable.Legible.name_mem_pieces_iff`, `MaskTable.Legible.number_mem_pieces_iff`: what a piece says about the word.

Main result:
- `MaskTable.Legible.text_inj`: two words of a mask have two texts.
-/
import Mathlib.Data.List.Nodup
import Spirv.Disassembly
import Spirv.Proofs.SetBits
import Spirv.Proofs.Tokens

namespace Spirv

namespace BitIndex

theorem toNat_toMask (i : BitIndex) : i.toMask.toNat = 2 ^ i.val := by
  have hall : ∀ i : BitIndex, i.toMask.toNat = 2 ^ i.val := by decide
  exact hall i

theorem toMask_eq_iff {w : Word} {i : BitIndex} : w = i.toMask ↔ w.toNat = 2 ^ i.val := by
  rw [← UInt32.toNat_inj, toNat_toMask]

theorem toMask_inj {i j : BitIndex} : i.toMask = j.toMask ↔ i = j := by
  rw [toMask_eq_iff, toNat_toMask, Fin.ext_iff]
  exact Nat.pow_right_inj (by decide)

theorem toMask_ne_zero (i : BitIndex) : i.toMask ≠ 0 := Word.ne_zero_of_two_pow i.toNat_toMask

theorem testBit_foldl_or (l : List BitIndex) (u : Word) (j : BitIndex) :
    (l.foldl (fun u i => u ||| i.toMask) u).toNat.testBit j.val ↔ u.toNat.testBit j.val ∨ j ∈ l := by
  induction l generalizing u with
  | nil => simp
  | cons i l ih =>
    rw [List.foldl_cons, ih, UInt32.toNat_or, Nat.testBit_or, toNat_toMask, Nat.testBit_two_pow, Bool.or_eq_true,
      decide_eq_true_iff, List.mem_cons, Fin.ext_iff, or_assoc, @eq_comm _ i.val]

end BitIndex

/-- Words with the same bits are equal. -/
theorem Word.eq_of_testBit_eq {v w : Word} (h : ∀ i : BitIndex, v.toNat.testBit i.val ↔ w.toNat.testBit i.val) : v = w := by
  apply UInt32.toNat_inj.mp
  apply Nat.eq_of_testBit_eq
  intro i
  by_cases hi : i < 32
  · exact Bool.eq_iff_iff.mpr (h ⟨i, hi⟩)
  · have hbit (w : Word) : w.toNat.testBit i = false := by
      apply Nat.testBit_lt_two_pow
      exact Nat.lt_of_lt_of_le w.toNat_lt (Nat.pow_le_pow_right (by decide) (by omega))
    rw [hbit, hbit]

namespace MaskTable

variable {α : Type} {t : MaskTable α}

/-! ## Set bits with a name, and without one -/

theorem mem_named_iff {w : Word} {name : String} :
    name ∈ t.named w ↔ ∃ i known, w.toNat.testBit i.val ∧ t.bit? i = some known ∧ known.name = name := by
  simp only [named, List.mem_map, List.mem_filterMap, Word.mem_setBits_iff]
  refine ⟨?_, ?_⟩
  · intro h
    obtain ⟨known, ⟨i, hbit, hknown⟩, hname⟩ := h
    exact ⟨i, known, hbit, hknown, hname⟩
  · intro h
    obtain ⟨i, known, hbit, hknown, hname⟩ := h
    exact ⟨known, ⟨i, hbit, hknown⟩, hname⟩

theorem testBit_unnamed {w : Word} {i : BitIndex} :
    (t.unnamed w).toNat.testBit i.val ↔ w.toNat.testBit i.val ∧ t.bit? i = none := by
  rw [unnamed, BitIndex.testBit_foldl_or, List.mem_filter, Word.mem_setBits_iff, Option.isNone_iff_eq_none]
  simp

/-! ## Names that can be told apart -/

/-- all names of the table: of the word without set bits, and of the bits -/
def names (t : MaskTable α) : List String := t.emptyName :: t.defined.map (·.2.name)

/-- The names differ, do not begin as a number does, and have neither a blank in them nor the mark between two names. -/
structure Legible (t : MaskTable α) : Prop where
  distinct : t.names.Nodup
  plain : ∀ s ∈ t.names, s.toList ≠ [] ∧ s.toList.head? ≠ some '0' ∧ ' ' ∉ s.toList ∧ '|' ∉ s.toList

theorem name_mem_names {i : BitIndex} {known : BitDef α} (h : t.bit? i = some known) : known.name ∈ t.names :=
  List.mem_cons_of_mem _ (List.mem_map_of_mem (mem_defined_iff.mpr h))

/-- Two bits with one name are one bit. -/
theorem Legible.bit_inj (h : t.Legible) {i j : BitIndex} {known known' : BitDef α} (hi : t.bit? i = some known)
    (hj : t.bit? j = some known') (hname : known.name = known'.name) : i = j := by
  have hdistinct := (List.nodup_cons.mp h.distinct).2
  exact congrArg Prod.fst (List.inj_on_of_nodup_map hdistinct (mem_defined_iff.mpr hi) (mem_defined_iff.mpr hj) hname)

theorem Legible.emptyName_ne (h : t.Legible) {i : BitIndex} {known : BitDef α} (hi : t.bit? i = some known) :
    t.emptyName ≠ known.name := by
  intro hname
  exact (List.nodup_cons.mp h.distinct).1 (hname ▸ List.mem_map_of_mem (mem_defined_iff.mpr hi))

/-! ## Pieces of a text -/

/-- a mask word as a number -/
def number (w : Word) : String := "0x" ++ Text.hex w

/-- the pieces that the text of a word is made of -/
def pieces (t : MaskTable α) (w : Word) : List String :=
  if w = 0 then [t.emptyName]
  else t.named w ++ if t.unnamed w = 0 then [] else [number (t.unnamed w)]

theorem text_eq (w : Word) : t.text w = "|".intercalate (t.pieces w) := by
  rw [text, pieces]
  split
  · rfl
  · rfl

theorem toList_number (w : Word) : (number w).toList = '0' :: 'x' :: Nat.toDigits 16 w.toNat := by
  rw [number, String.toList_append, Text.toList_hex]
  rfl

theorem number_inj {v w : Word} : number v = number w ↔ v = w := by
  refine ⟨?_, congrArg number⟩
  intro h
  rw [← String.toList_inj, toList_number, toList_number] at h
  apply Text.hex_inj.mp
  rw [← String.toList_inj, Text.toList_hex, Text.toList_hex]
  exact (List.cons.inj (List.cons.inj h).2).2

theorem isAlphanum_of_mem_number {w : Word} {c : Char} (h : c ∈ (number w).toList) : c.isAlphanum := by
  rw [toList_number, List.mem_cons, List.mem_cons] at h
  rcases h with rfl | rfl | h
  · decide
  · decide
  · exact Numeral.isAlphanum_of_mem_toDigits (by decide) (by decide) h

theorem Legible.ne_number (h : t.Legible) {s : String} (hs : s ∈ t.names) (w : Word) : s ≠ number w := by
  rintro rfl
  exact (h.plain _ hs).2.1 (by rw [toList_number]; rfl)

theorem mem_pieces_iff {w : Word} {s : String} : s ∈ t.pieces w ↔
    w = 0 ∧ s = t.emptyName ∨ s ∈ t.named w ∨ t.unnamed w ≠ 0 ∧ s = number (t.unnamed w) := by
  rw [pieces]
  split
  · rename_i hw
    have hbits : Word.setBits 0 = [] := BitScan.drain_of_zero rfl
    simp [hw, named, unnamed, hbits]
  · rename_i hw
    rw [List.mem_append]
    split
    · rename_i hunnamed
      simp [hw, hunnamed]
    · rename_i hunnamed
      simp [hw, hunnamed]

/-- The name of a bit is a piece when the bit is set. -/
theorem Legible.name_mem_pieces_iff (h : t.Legible) {w : Word} {i : BitIndex} {known : BitDef α}
    (hi : t.bit? i = some known) : known.name ∈ t.pieces w ↔ w.toNat.testBit i.val := by
  rw [mem_pieces_iff, mem_named_iff]
  refine ⟨?_, fun hbit => .inr (.inl ⟨i, known, hbit, hi, rfl⟩)⟩
  rintro (⟨-, hname⟩ | ⟨j, known', hbit, hj, hname⟩ | ⟨-, hname⟩)
  · exact absurd hname.symm (h.emptyName_ne hi)
  · rwa [h.bit_inj hi hj hname.symm]
  · exact absurd hname (h.ne_number (name_mem_names hi) _)

/-- A number is a piece when it is what the set bits without a name amount to. -/
theorem Legible.number_mem_pieces_iff (h : t.Legible) {u w : Word} (hu : u ≠ 0) :
    number u ∈ t.pieces w ↔ t.unnamed w = u := by
  rw [mem_pieces_iff, mem_named_iff]
  refine ⟨?_, fun heq => .inr (.inr ⟨heq ▸ hu, by rw [heq]⟩)⟩
  rintro (⟨-, hname⟩ | ⟨i, known, -, hi, hname⟩ | ⟨-, hnumber⟩)
  · exact absurd hname.symm (h.ne_number List.mem_cons_self u)
  · exact absurd hname (h.ne_number (name_mem_names hi) u)
  · exact (number_inj.mp hnumber).symm

theorem Legible.unnamed_eq_of_pieces (h : t.Legible) {v w : Word} (hpieces : t.pieces v = t.pieces w) :
    t.unnamed v = t.unnamed w := by
  by_cases hv : t.unnamed v = 0
  · by_cases hw : t.unnamed w = 0
    · rw [hv, hw]
    · exact (h.number_mem_pieces_iff hw).mp (hpieces ▸ (h.number_mem_pieces_iff hw).mpr rfl)
  · exact ((h.number_mem_pieces_iff hv).mp (hpieces ▸ (h.number_mem_pieces_iff hv).mpr rfl)).symm

/-- The pieces show every bit, by its name or in the number. -/
theorem Legible.pieces_inj (h : t.Legible) {v w : Word} (hpieces : t.pieces v = t.pieces w) : v = w := by
  apply Word.eq_of_testBit_eq
  intro i
  cases hi : t.bit? i with
  | some known => rw [← h.name_mem_pieces_iff hi, ← h.name_mem_pieces_iff hi, hpieces]
  | none =>
    have hunnamed (w : Word) : w.toNat.testBit i.val ↔ (t.unnamed w).toNat.testBit i.val := by
      rw [testBit_unnamed]
      exact (and_iff_left hi).symm
    rw [hunnamed v, hunnamed w, h.unnamed_eq_of_pieces hpieces]

/-! ## Main result -/

/-- A piece is a name or a number. -/
theorem forall_mem_pieces {P : String → Prop} (hnames : ∀ s ∈ t.names, P s) (hnumbers : ∀ u, P (number u)) (w : Word) :
    ∀ s ∈ t.pieces w, P s := by
  intro s hs
  rcases mem_pieces_iff.mp hs with ⟨-, rfl⟩ | hs | ⟨-, rfl⟩
  · exact hnames _ List.mem_cons_self
  · obtain ⟨i, known, -, hi, rfl⟩ := mem_named_iff.mp hs
    exact hnames _ (name_mem_names hi)
  · exact hnumbers _

theorem not_mem_number {c : Char} (hc : ¬c.isAlphanum) (u : Word) : c ∉ (number u).toList :=
  fun hmem => hc (isAlphanum_of_mem_number hmem)

/-- **Two words of a mask have two texts**, whether or not their bits have names. -/
theorem Legible.text_inj (h : t.Legible) {v w : Word} (htext : t.text v = t.text w) : v = w := by
  have hpiece (w : Word) : ∀ x ∈ (t.pieces w).map String.toList, x ≠ [] ∧ '|' ∉ x := by
    rw [List.forall_mem_map]
    apply forall_mem_pieces
    · intro s hs
      obtain ⟨hne, -, -, hbar⟩ := h.plain s hs
      exact ⟨hne, hbar⟩
    · exact fun u => ⟨by rw [toList_number]; simp, not_mem_number (by decide) u⟩
  have hbar : "|".toList = ['|'] := rfl
  rw [text_eq, text_eq, ← String.toList_inj, String.toList_intercalate, String.toList_intercalate, hbar] at htext
  have hrow := intercalate_inj (hpiece v) (hpiece w) htext
  exact h.pieces_inj ((List.map_inj_right fun _ _ => String.toList_inj.mp).mp hrow)

/-- A mark that is in no name is in no text, unless it stands between two names. -/
theorem not_mem_text {c : Char} (hc : ¬c.isAlphanum) (hbar : c ≠ '|') (hnames : ∀ s ∈ t.names, c ∉ s.toList) (w : Word) :
    c ∉ (t.text w).toList := by
  rw [text_eq, String.toList_intercalate]
  apply not_mem_intercalate (fun hmem => hbar (List.mem_singleton.mp hmem))
  rw [List.forall_mem_map]
  exact forall_mem_pieces hnames (not_mem_number hc) w

end MaskTable

end Spirv
