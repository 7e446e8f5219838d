/-
Decoding and encoding undo each other. Both accept exactly the operands that the layout admits, the decoder from their
words (`Layout.decode_eq_ok_iff`) and the encoder to their words (`Layout.encode_of_admits`), so each result follows from
the language alone.

Main results:
- `encode_of_decode`: decoded operands are encoded to the words they were decoded from, behind a header word. The only
  thing that can go wrong is that there are more words than a header word can count.
- `decode_of_encode`: whatever operands the encoder accepts, the words behind the header word are theirs and are decoded
  to them again.
-/
import Spirv.Proofs.Decoding
import Spirv.Proofs.Encoding

namespace Spirv

variable {x : Expansion}

theorem Layout.encode_eq_of_decode {l : Layout} {words : List Word} {operands : List Operand}
    (h : l.decode x words = .ok operands) :
    l.encode x operands =
      if words.length + 1 < 65536 then .ok (headerWord (words.length + 1) l.opcode :: words).toArray
      else .error (.wordCountOverflow (words.length + 1)) := by
  obtain ⟨rfl, hos⟩ := Layout.decode_eq_ok_iff.mp h
  exact Layout.encode_of_admits hos

theorem Layout.decode_eq_of_encode {l : Layout} {operands : List Operand} {out : Array Word}
    (h : l.encode x operands = .ok out) :
    out.size < 65536 ∧ out = (headerWord out.size l.opcode :: operands.flatMap (·.words)).toArray ∧
      l.decode x (operands.flatMap (·.words)) = .ok operands := by
  have hos := Layout.admits_of_encode h
  rw [Layout.encode_of_admits hos] at h
  simp only at h
  split at h
  · rename_i htotal
    obtain rfl := Except.ok.inj h
    exact ⟨htotal, rfl, Layout.decode_eq_ok_iff.mpr ⟨rfl, hos⟩⟩
  · cases h

/-- **Decode, then encode.** -/
theorem encode_of_decode {opcode : UInt16} {types : List OperandType} {l : Layout} {words : List Word}
    {operands : List Operand} (hl : Layout.ofTypes opcode types = .ok l) (h : l.decode x words = .ok operands) :
    l.encode x operands =
      if words.length ≤ 65534 then
        .ok ((UInt32.ofNat (words.length + 1) <<< 16 ||| opcode.toUInt32) :: words).toArray
      else .error (.wordCountOverflow (words.length + 1)) := by
  obtain ⟨rfl, -⟩ := Layout.ofTypes_eq_ok_iff.mp hl
  rw [Layout.encode_eq_of_decode h]
  by_cases hlen : words.length ≤ 65534
  · rw [if_pos hlen, if_pos (by omega), headerWord_eq_or (by omega)]
  · rw [if_neg hlen, if_neg (by omega)]

theorem encode_of_decode_sample :
    Layout.ofTypes 9 Sample.types = .ok Sample.layout ∧
      Sample.layout.decode Grammar.core.expand Sample.words = .ok Sample.operands ∧
      Sample.layout.encode Grammar.core.expand Sample.operands = .ok (0x90009 :: Sample.words).toArray := by
  have hl : Layout.ofTypes 9 Sample.types = .ok Sample.layout := rfl
  have hdecode : Sample.layout.decode Grammar.core.expand Sample.words = .ok Sample.operands := by
    with_unfolding_all rfl
  exact ⟨hl, hdecode, encode_of_decode hl hdecode⟩

/-- **Encode, then decode.** -/
theorem decode_of_encode {opcode : UInt16} {types : List OperandType} {l : Layout} {operands : List Operand}
    {out : Array Word} (hl : Layout.ofTypes opcode types = .ok l) (h : l.encode x operands = .ok out) :
    out.size ≤ 65535 ∧ out[0]? = some (UInt32.ofNat out.size <<< 16 ||| opcode.toUInt32) ∧
      out.toList.drop 1 = operands.flatMap (·.words) ∧ l.decode x (out.toList.drop 1) = .ok operands := by
  obtain ⟨rfl, -⟩ := Layout.ofTypes_eq_ok_iff.mp hl
  obtain ⟨hsize, hout, hdecode⟩ := Layout.decode_eq_of_encode h
  have hdrop : out.toList.drop 1 = operands.flatMap (·.words) := by
    rw [hout]
    rfl
  have hhead : out[0]? = some (headerWord out.size l.opcode) := by
    have := congrArg (·[0]?) hout
    simpa only [List.getElem?_toArray, List.getElem?_cons_zero] using this
  refine ⟨by omega, ?_, hdrop, hdrop ▸ hdecode⟩
  rw [hhead, headerWord_eq_or hsize]

theorem decode_of_encode_sample :
    Sample.layout.encode Grammar.core.expand Sample.operands = .ok (0x90009 :: Sample.words).toArray ∧
      Sample.layout.decode Grammar.core.expand Sample.words = .ok Sample.operands := by
  have hl : Layout.ofTypes 9 Sample.types = .ok Sample.layout := rfl
  have hencode : Sample.layout.encode Grammar.core.expand Sample.operands = .ok (0x90009 :: Sample.words).toArray := by
    with_unfolding_all rfl
  exact ⟨hencode, (decode_of_encode hl hencode).2.2.2⟩

end Spirv
