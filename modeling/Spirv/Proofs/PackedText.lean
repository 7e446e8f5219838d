/-
Text in words. Packed text ends in the first word with a zero byte, so its bytes are those of whole words without one, and
then up to three more. If nothing but zero bytes follows them in the last word, the words are those that the bytes are
packed into, and an operand with such words is known by its text.

- `Word.flatMap_bytes_packTerminated`: what bytes are packed into. There is always a zero byte behind them, so if they come out
  even, it has a word of its own.
- `Word.unpackTerminated_packTerminated`: packed bytes, unpacked again.
- `Word.packTerminated_unpackTerminated`: zero-padded words, packed again.

Main results:
- `Operand.words_eq_of_text?`: zero-padded operands with one text have the same words.
- `Operand.text_packing_canonical`: a text without NUL comes back from its operand, and among the operands that carry a
  text, its own is the one that nothing but zero bytes follows it in.
-/
import Spirv.Proofs.Decoding
import Spirv.Proofs.Utf8

namespace Spirv

namespace Word

/-- Nothing but zero bytes follows the first of them. -/
def ZeroPadded (words : List Word) : Prop := ∀ b ∈ (words.flatMap bytes).dropWhile (· != 0), b = 0

variable {w : Word} {words : List Word}

theorem unpackTerminated_cons (hw : w.hasZeroByte = false) :
    unpackTerminated (w :: words) = bytes w ++ unpackTerminated words := by
  rw [unpackTerminated, List.flatMap_cons, List.takeWhile_append_of_pos]
  · rfl
  · simpa [hasZeroByte] using hw

theorem ZeroPadded.of_cons (h : ZeroPadded (w :: words)) (hw : w.hasZeroByte = false) : ZeroPadded words := by
  rw [ZeroPadded, List.flatMap_cons, List.dropWhile_append_of_pos] at h
  · exact h
  · simpa [hasZeroByte] using hw

theorem packTerminated_bytes_append (w : Word) (bs : List UInt8) :
    packTerminated (bytes w ++ bs) = w :: packTerminated bs := by
  calc packTerminated (bytes w ++ bs) = ofBytes (byte w 0) (byte w 1) (byte w 2) (byte w 3) :: packTerminated bs := by
        simp only [bytes, List.cons_append, List.nil_append, packTerminated]
    _ = w :: packTerminated bs := by rw [ofBytes_bytes]

/-- The last word has the rest of the text in it, less than four bytes. -/
theorem packTerminated_unpackTerminated_last (hw : w.hasZeroByte = true) (h : ZeroPadded [w]) :
    packTerminated (unpackTerminated [w]) = [w] := by
  rw [← ofBytes_bytes w] at hw h ⊢
  generalize byte w 0 = b₀, byte w 1 = b₁, byte w 2 = b₂, byte w 3 = b₃ at hw h ⊢
  simp only [ZeroPadded, List.flatMap_cons, List.flatMap_nil, List.append_nil, hasZeroByte, unpackTerminated,
    bytes_ofBytes] at hw h ⊢
  by_cases h₀ : b₀ = 0
  · simp_all [packTerminated]
  by_cases h₁ : b₁ = 0
  · simp_all [packTerminated]
  by_cases h₂ : b₂ = 0
  · simp_all [packTerminated]
  · simp_all [packTerminated]

/-- Zero-padded words are what their text is packed into. -/
theorem packTerminated_unpackTerminated (hfits : Shape.terminated.Fits words) (h : ZeroPadded words) :
    packTerminated (unpackTerminated words) = words := by
  obtain ⟨init, last, rfl, hlast, hinit⟩ := hfits
  induction init with
  | nil => exact packTerminated_unpackTerminated_last hlast h
  | cons w init ih =>
    rw [List.forall_mem_cons] at hinit
    rw [List.cons_append] at h ⊢
    rw [unpackTerminated_cons hinit.1, packTerminated_bytes_append, ih (h.of_cons hinit.1) hinit.2]

/-! ## Packed bytes -/

theorem length_packTerminated (bs : List UInt8) : (packTerminated bs).length = bs.length / 4 + 1 := by
  fun_induction packTerminated bs with
  | case5 b₀ b₁ b₂ b₃ rest ih =>
    simp only [List.length_cons, ih]
    omega
  | _ => simp

/-- Behind the bytes there is at least one zero byte, and nothing but zero bytes. -/
theorem flatMap_bytes_packTerminated (bs : List UInt8) :
    ∃ n, (packTerminated bs).flatMap bytes = bs ++ 0 :: List.replicate n 0 := by
  -- four bytes at a time; without a remainder the last word is all padding
  fun_induction packTerminated bs with
  | case1 => exact ⟨3, rfl⟩
  | case2 b₀ => exact ⟨2, by simp [bytes_ofBytes]⟩
  | case3 b₀ b₁ => exact ⟨1, by simp [bytes_ofBytes]⟩
  | case4 b₀ b₁ b₂ => exact ⟨0, by simp [bytes_ofBytes]⟩
  | case5 b₀ b₁ b₂ b₃ rest ih =>
    obtain ⟨n, ih⟩ := ih
    exact ⟨n, by simp [bytes_ofBytes, ih]⟩

variable {bs : List UInt8}

theorem terminated_fits_packTerminated (h : 0 ∉ bs) : Shape.terminated.Fits (packTerminated bs) := by
  have single {w : Word} (hw : w.hasZeroByte = true) : Shape.terminated.Fits [w] := ⟨[], w, rfl, hw, nofun⟩
  fun_induction packTerminated bs with
  | case5 b₀ b₁ b₂ b₃ rest ih =>
    simp only [List.mem_cons, not_or] at h
    obtain ⟨h₀, h₁, h₂, h₃, hrest⟩ := h
    obtain ⟨init, last, hwords, hlast, hinit⟩ := ih hrest
    refine ⟨ofBytes b₀ b₁ b₂ b₃ :: init, last, by rw [hwords, List.cons_append], hlast, ?_⟩
    refine List.forall_mem_cons.mpr ⟨?_, hinit⟩
    simp [hasZeroByte, bytes_ofBytes, Ne.symm h₀, Ne.symm h₁, Ne.symm h₂, Ne.symm h₃]
  | _ => exact single (by simp [hasZeroByte, bytes_ofBytes])

theorem bne_zero_of_mem (h : 0 ∉ bs) : ∀ b ∈ bs, (b != 0) = true :=
  fun _ hb => bne_iff_ne.mpr (ne_of_mem_of_not_mem hb h)

/-- Bytes without a zero byte are unpacked as they were packed. -/
theorem unpackTerminated_packTerminated (h : 0 ∉ bs) : unpackTerminated (packTerminated bs) = bs := by
  obtain ⟨n, hn⟩ := flatMap_bytes_packTerminated bs
  rw [unpackTerminated, hn, List.takeWhile_append_of_pos (bne_zero_of_mem h)]
  simp

theorem zeroPadded_packTerminated (h : 0 ∉ bs) : ZeroPadded (packTerminated bs) := by
  obtain ⟨n, hn⟩ := flatMap_bytes_packTerminated bs
  rw [ZeroPadded, hn, List.dropWhile_append_of_pos (bne_zero_of_mem h)]
  simp

theorem zero_notMem_unpackTerminated (words : List Word) : 0 ∉ unpackTerminated words := by
  intro h
  have := List.all_eq_true.mp List.all_takeWhile _ h
  simp at this

/-- Only the last word can be padded. -/
theorem zeroPadded_append_singleton_iff {init : List Word} {last : Word}
    (hinit : ∀ w ∈ init, w.hasZeroByte = false) :
    ZeroPadded (init ++ [last]) ↔ ∀ b ∈ (bytes last).dropWhile (· != 0), b = 0 := by
  have hzero : 0 ∉ init.flatMap bytes := by
    intro hmem
    obtain ⟨w, hw, hmem⟩ := List.mem_flatMap.mp hmem
    have hw := hinit w hw
    simp only [hasZeroByte, List.any_eq_false, beq_iff_eq] at hw
    exact hw 0 hmem rfl
  rw [ZeroPadded, List.flatMap_append, List.dropWhile_append_of_pos (bne_zero_of_mem hzero), List.flatMap_singleton]

end Word

namespace Operand

theorem fromUTF8?_eq_some_iff {bs : ByteArray} {s : String} : String.fromUTF8? bs = some s ↔ bs = s.toByteArray := by
  rw [String.fromUTF8?]
  refine ⟨?_, ?_⟩
  · intro h
    split at h
    · rw [← Option.some.inj h]
      rfl
    · cases h
  · intro h
    rw [dif_pos (h ▸ s.isValidUTF8)]
    subst h
    rfl

/-- If the words carry a text, nothing but zero bytes follows it. -/
def ZeroPadded (o : Operand) : Prop := o.text?.isSome → Word.ZeroPadded o.words

/-- An operand carries the text that has its bytes. -/
theorem text?_eq_some_iff {words : List Word} {s : String} :
    text? ⟨Kind.string.type, words⟩ = some s ↔ Word.unpackTerminated words = s.toUTF8.toList := by
  rw [text?, if_pos rfl, fromUTF8?_eq_some_iff, Text.toList_eq_data]
  refine ⟨?_, ?_⟩
  · intro h
    rw [String.toUTF8_eq_toByteArray, ← h]
  · intro h
    rw [h]
    rfl

theorem ofText?_of_notMem {s : String} (h : '\x00' ∉ s.toList) :
    ofText? s = some ⟨Kind.string.type, Word.packTerminated s.toUTF8.toList⟩ := if_neg h

/-- Zero-padded operands with one text have the same words. -/
theorem words_eq_of_text? {us vs : List Word} {s : String} (hus : Shape.terminated.Fits us)
    (hvs : Shape.terminated.Fits vs) (hupad : ZeroPadded ⟨Kind.string.type, us⟩)
    (hvpad : ZeroPadded ⟨Kind.string.type, vs⟩) (hu : text? ⟨Kind.string.type, us⟩ = some s)
    (hv : text? ⟨Kind.string.type, vs⟩ = some s) : us = vs := by
  calc us = Word.packTerminated (Word.unpackTerminated us) :=
        (Word.packTerminated_unpackTerminated hus (hupad (by rw [hu]; rfl))).symm
    _ = Word.packTerminated (Word.unpackTerminated vs) := by
        rw [text?_eq_some_iff.mp hu, text?_eq_some_iff.mp hv]
    _ = vs := Word.packTerminated_unpackTerminated hvs (hvpad (by rw [hv]; rfl))

/-- A text that an operand carries has no NUL. -/
theorem nul_notMem_of_text? {words : List Word} {s : String} (h : text? ⟨Kind.string.type, words⟩ = some s) :
    '\x00' ∉ s.toList := by
  intro hnul
  have hzero := Text.zero_mem_toUTF8_iff.mpr hnul
  rw [← text?_eq_some_iff.mp h] at hzero
  exact Word.zero_notMem_unpackTerminated words hzero

/-- The operand of the text that an operand carries is this operand, if nothing but zero bytes follows the text. -/
theorem ofText?_eq_some_iff_zeroPadded {words : List Word} {s : String} (hfits : Shape.terminated.Fits words)
    (h : text? ⟨Kind.string.type, words⟩ = some s) :
    ofText? s = some ⟨Kind.string.type, words⟩ ↔ Word.ZeroPadded words := by
  have hbytes := text?_eq_some_iff.mp h
  rw [ofText?_of_notMem (nul_notMem_of_text? h), ← hbytes, Option.some.injEq, mk.injEq]
  refine ⟨?_, ?_⟩
  · rintro ⟨-, hpacked⟩
    rw [← hpacked]
    exact Word.zeroPadded_packTerminated (Word.zero_notMem_unpackTerminated words)
  · intro hpadded
    exact ⟨rfl, Word.packTerminated_unpackTerminated hfits hpadded⟩

end Operand

/-! ## Texts in instructions -/

variable {x : Expansion}

theorem Groups.of_integers (ws : List Word) : Groups x (List.replicate ws.length (.literal .integer))
    (ws.map fun w => ⟨(Kind.literal .integer).type, [w]⟩) := by
  induction ws with
  | nil => exact .nil
  | cons w ws ih => exact .plain nofun rfl ih

/-- Text is decoded up to its end, and the words behind it one by one. -/
theorem Layout.decode_text_append {words : List Word} (hfits : Shape.terminated.Fits words) (opcode : UInt16)
    (rest : List Word) :
    decode x ⟨opcode, [⟨.string, false⟩], some (.literal .integer)⟩ (words ++ rest) =
      .ok (⟨Kind.string.type, words⟩ :: rest.map fun w => ⟨(Kind.literal .integer).type, [w]⟩) := by
  rw [decode_eq_ok_iff]
  refine ⟨?_, ?_⟩
  · rw [List.flatMap_cons, List.flatMap_map, List.flatMap_singleton']
  · have htext : Groups x [.string] [⟨Kind.string.type, words⟩] := .plain nofun hfits .nil
    have hrest : Admits x ⟨opcode, [], some (.literal .integer)⟩ _ :=
      admits_tail_iff.mpr ⟨rest.length, Groups.of_integers rest⟩
    exact admits_cons_iff (f := ⟨.string, false⟩).mpr (.inr ⟨_, _, rfl, htext, hrest⟩)

/-! ## Main result -/

namespace Operand

/-- **A text and its operand.** A text without NUL has an operand, of one word for each four of its bytes and one more, in
which only the last word has a zero byte. The operand carries the text, and decoding finds it in front of any words.
An operand that carries a text, whoever wrote it, is the operand of that text if, and only if, the bytes of its last
word are zero from the first zero byte on. -/
theorem text_packing_canonical :
    (∀ s : String, '\x00' ∉ s.toList → ∃ o, ofText? s = some o ∧ o.type = Kind.string.type ∧
      o.words.length = s.toUTF8.size / 4 + 1 ∧
      (∃ init last, o.words = init ++ [last] ∧ last.hasZeroByte = true ∧ ∀ w ∈ init, w.hasZeroByte = false) ∧
      o.text? = some s ∧
      ∀ (x : Expansion) (opcode : UInt16), ∃ l,
        Layout.ofTypes opcode [.operand ⟨.required, .string⟩, .operand ⟨.repeated, .literal .integer⟩] = .ok l ∧
        ∀ rest, l.decode x (o.words ++ rest) =
          .ok (o :: rest.map fun w => ⟨.operand ⟨.required, .literal .integer⟩, [w]⟩)) ∧
    ∀ (init : List Word) (last : Word) (s : String), last.hasZeroByte = true → (∀ w ∈ init, w.hasZeroByte = false) →
      text? ⟨Kind.string.type, init ++ [last]⟩ = some s →
      (ofText? s = some ⟨Kind.string.type, init ++ [last]⟩ ↔ ∀ b ∈ last.bytes.dropWhile (· != 0), b = 0) := by
  refine ⟨?_, ?_⟩
  · intro s hs
    have hzero : 0 ∉ s.toUTF8.toList := mt Text.zero_mem_toUTF8_iff.mp hs
    have hfits := Word.terminated_fits_packTerminated hzero
    refine ⟨_, ofText?_of_notMem hs, rfl, ?_, hfits, ?_, ?_⟩
    · rw [Word.length_packTerminated, Text.length_toList]
    · exact text?_eq_some_iff.mpr (Word.unpackTerminated_packTerminated hzero)
    · intro x opcode
      exact ⟨_, rfl, Layout.decode_text_append hfits opcode⟩
  · intro init last s hlast hinit htext
    have hfits : Shape.terminated.Fits (init ++ [last]) := ⟨init, last, rfl, hlast, hinit⟩
    rw [ofText?_eq_some_iff_zeroPadded hfits htext, Word.zeroPadded_append_singleton_iff hinit]

/-- Four bytes take a second word; a byte behind the zero byte is not seen in the text, but it is in the words. -/
theorem text_packing_canonical_sample :
    (∃ o, ofText? "main" = some o ∧ o.words.length = "main".toUTF8.size / 4 + 1 ∧ o.text? = some "main") ∧
      text? ⟨Kind.string.type, [0x01006261]⟩ = some "ab" ∧
      ofText? "ab" ≠ some ⟨Kind.string.type, [0x01006261]⟩ := by
  have htext : text? ⟨Kind.string.type, [0x01006261]⟩ = some "ab" := text?_eq_some_iff.mpr (by decide +kernel)
  refine ⟨?_, htext, ?_⟩
  · obtain ⟨o, ho, -, hlength, -, hback, -⟩ := text_packing_canonical.1 "main" (by decide)
    exact ⟨o, ho, hlength, hback⟩
  · have hpadded := text_packing_canonical.2 [] 0x01006261 "ab" (by decide) nofun htext
    exact mt hpadded.mp (by decide)

end Operand

end Spirv
