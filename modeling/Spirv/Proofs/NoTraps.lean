/-
The codec never traps. One instruction is decoded and encoded without a trap; what is left are the steps of the callers:
the words of an instruction are cut out behind its header word when there are as many as the header declares, and a header
is copied out of words of which there are at least as many as it has. So each call of a stream or a module reader is done,
and any number of calls is, by induction. `codec_never_traps` is about the whole codec.

- `decodeFirst_cons`: the first instruction of a row of words.
- `streamNext?_eq`, `moduleNext?_eq`: one call.
- `answer?_eq_done`: any number of calls, for anything that is called again and again.
- `ofBytes_eq`, `pushInstruction_eq`: opening a module, and writing.
-/
import Spirv.Proofs.GuardedOperands
import Spirv.Proofs.ModuleReading

namespace Spirv

namespace Guarded

open Outcome

variable {g : Grammar} {table : OpcodeTable}

/-! ## One call -/

/-- An instruction is found at the front of words as it is found behind its header word. -/
theorem decodeFirst_cons (header : Word) (rest : List Word) : decodeFirst g table (header :: rest) =
    ofResult ((InstructionStream.readAfter g.expand table header rest).map fun p => (p.1, header.declaredCount)) := by
  rw [decodeFirst, List.head?_cons]
  simp only [InstructionStream.readAfter]
  rcases hsplit : splitInstruction header rest with e | ⟨body, behind⟩
  · rcases splitInstruction_eq_error_iff.mp hsplit with ⟨hzero, -⟩ | ⟨hshort, -⟩
    · rw [if_pos hzero]
      rfl
    · rw [if_neg (by omega), if_pos (by simpa using hshort)]
      rfl
  · obtain ⟨rfl, hcount⟩ := splitInstruction_eq_ok_iff.mp hsplit
    have hpart : part (header :: (body ++ behind)) 1 header.declaredCount = .done body := by
      rw [part_of_le (by omega) (by simp; omega), hcount, List.take_succ_cons, List.take_left]
      rfl
    rw [if_neg (by omega), if_neg (by simp; omega), hpart]
    simp only [Instruction.decode]
    cases hresolve : Layout.resolve table header.opcode with
    | error e => rfl
    | ok l =>
      simp only [ofResult, done_bind, decode_types]
      cases l.decode g.expand body <;> rfl

/-- What is behind an instruction are the words behind those that it takes. -/
theorem drop_of_readAfter {header : Word} {rest behind : List Word} {i : Instruction}
    (h : InstructionStream.readAfter g.expand table header rest = .ok (i, behind)) :
    header.declaredCount ≤ (header :: rest).length ∧ (header :: rest).drop header.declaredCount = behind := by
  obtain ⟨body, rfl, header', body', heq, hcount, -⟩ := InstructionStream.readAfter_eq_ok_iff.mp h
  obtain ⟨rfl, rfl⟩ := List.cons.inj heq
  rw [hcount]
  exact ⟨by simp, by simp⟩

theorem streamNext?_eq (g : Grammar) (table : OpcodeTable) (s : InstructionStream) : streamNext? g table s =
    .done ((s.next? g.expand table).map fun p => (p.1.toOption, p.2)) := by
  obtain ⟨words, offset⟩ := s
  cases words with
  | nil => rfl
  | cons header rest =>
    rw [streamNext?, InstructionStream.next?, if_neg (by simp), decodeFirst_cons, attempt_ofResult, done_bind]
    rcases hread : InstructionStream.readAfter g.expand table header rest with e | ⟨i, behind⟩
    · simp only [hread]
      rfl
    · obtain ⟨hle, hdrop⟩ := drop_of_readAfter hread
      have hpart : part (header :: rest) header.declaredCount (header :: rest).length = .done behind := by
        rw [part_of_le hle (Nat.le_refl _), List.take_length, hdrop]
      simp only [hread, Except.map, Except.toOption, hpart, done_bind]
      rfl

theorem moduleNext?_eq (g : Grammar) (r : ModuleReader) :
    moduleNext? g r = .done ((r.next? g).map fun p => (p.1.toOption, p.2)) := by
  rw [moduleNext?, ModuleReader.next?]
  cases hdrop : r.words.toList.drop r.position with
  | nil =>
    have hnone : r.words[r.position]? = none := by
      rw [← Array.getElem?_toList, ← List.head?_drop, hdrop]
      rfl
    rw [hnone]
    rfl
  | cons header rest =>
    have hheader : r.words[r.position]? = some header := by
      rw [← Array.getElem?_toList, ← List.head?_drop, hdrop]
      rfl
    rw [hheader, if_neg (by simp), decodeFirst_cons, attempt_ofResult, done_bind]
    simp only [ModuleReader.readAt_eq_readAfter hdrop]
    cases InstructionStream.readAfter g.expand g.table header rest <;> rfl

/-! ## Any number of calls -/

section Calls

variable {σ β : Type} {next : σ → Outcome (Option (β × σ))} (run : Nat → σ) (told : Nat → Option β)

theorem after_eq_done (hnext : ∀ n, next (run n) = .done ((told n).map fun b => (b, run (n + 1))))
    (hend : ∀ n, told n = none → run (n + 1) = run n) (n : Nat) : after next (run 0) n = .done (run n) := by
  induction n with
  | zero => rfl
  | succ n ih =>
    rw [after, ih, done_bind, hnext, done_bind]
    cases htold : told n with
    | none => exact congrArg Outcome.done (hend n htold).symm
    | some b => rfl

theorem answer?_eq_done (hnext : ∀ n, next (run n) = .done ((told n).map fun b => (b, run (n + 1))))
    (hend : ∀ n, told n = none → run (n + 1) = run n) (n : Nat) : answer? next (run 0) n = .done (told n) := by
  rw [answer?, after_eq_done run told hnext hend, done_bind, hnext, done_bind]
  cases told n <;> rfl

end Calls

theorem answer?_streamNext?_eq (s : InstructionStream) (n : Nat) :
    answer? (streamNext? g table) s n = .done ((s.answer? g.expand table n).map Except.toOption) := by
  refine answer?_eq_done (s.after g.expand table) (fun n => (s.answer? g.expand table n).map Except.toOption) ?_ ?_ n
  · intro n
    rw [streamNext?_eq, InstructionStream.answer?, InstructionStream.after]
    cases (s.after g.expand table n).next? g.expand table <;> rfl
  · intro n hnone
    exact InstructionStream.after_succ_of_answer?_eq_none (Option.map_eq_none_iff.mp hnone)

theorem answer?_moduleNext?_eq (r : ModuleReader) (n : Nat) :
    answer? (moduleNext? g) r n = .done ((r.answer? g n).map Except.toOption) := by
  refine answer?_eq_done (r.after g) (fun n => (r.answer? g n).map Except.toOption) ?_ ?_ n
  · intro n
    rw [moduleNext?_eq, ModuleReader.answer?, ModuleReader.after]
    cases (r.after g n).next? g <;> rfl
  · intro n hnone
    have hend : (r.after g n).next? g = none := Option.map_eq_none_iff.mp (Option.map_eq_none_iff.mp hnone)
    rw [ModuleReader.after, hend]

/-! ## Opening and writing -/

theorem ofBytes_eq (g : Grammar) (bytes : List UInt8) :
    Guarded.ofBytes g bytes = ofResult (ModuleReader.ofBytes g bytes) := by
  rw [Guarded.ofBytes, ModuleReader.ofBytes]
  cases Word.ofByteList? bytes with
  | none => rfl
  | some stored =>
    simp only
    by_cases hshort : stored.size < Header.size
    · have hnone : Header.ofWords? stored = none := dif_neg (by omega)
      rw [if_pos hshort, hnone]
      rfl
    · obtain ⟨storedHeader, hstored⟩ := Header.exists_ofWords? (Nat.le_of_not_lt hshort)
      have hfirst : element stored.toList 0 = .done storedHeader.magic := by
        rw [element, ← List.head?_eq_getElem?, Header.head?_of_ofWords? hstored]
      rw [if_neg hshort, hstored, hfirst, done_bind]
      cases horder : ByteOrder.ofFirst? g.magic storedHeader.magic with
      | none =>
        simp only [horder]
        rfl
      | some order =>
        have hsize : Header.size ≤ (order.normalize stored).size := by
          cases order <;> simpa [ByteOrder.normalize] using hshort
        obtain ⟨header, hheader⟩ := Header.exists_ofWords? hsize
        obtain ⟨rest, hwords⟩ := Header.ofWords?_eq_some_iff.mp hheader
        have hpart : part (order.normalize stored).toList 0 Header.size = .done header.toList := by
          rw [part_of_le (Nat.zero_le _) hsize, hwords]
          rfl
        simp only [horder, hheader, hpart, done_bind]
        rfl

theorem pushInstruction_eq (g : Grammar) (i : Instruction) (m : ModuleWriter) :
    pushInstruction g i m = ofFault (m.pushInstruction g i) := by
  rw [pushInstruction, ModuleWriter.pushInstruction]
  cases hlayout : g.layout i.opcode with
  | error e => rfl
  | ok l =>
    simp only [ofResult, done_bind, encode_types, ModuleWriter.push]
    cases l.encode g.expand i.operands <;> rfl

/-! ## Main result -/

/-- **The codec never traps.** Whatever the grammar is: decoding and encoding by a list of types that is a layout, of any
words and any operands; any number of calls of a stream, over any opcode table and any words; opening any bytes, and any
number of calls of a module reader; appending any instruction to any module; and going through the set bits of any word.
Each of them makes all its partial steps, and comes to what the running definitions come to. -/
theorem codec_never_traps (g : Grammar) :
    (∀ opcode types l, Layout.ofTypes opcode types = .ok l →
      (∀ words, (decode g types words).Follows (l.decode g.expand words)) ∧
        ∀ operands, (encode g opcode types operands).Follows (l.encode g.expand operands)) ∧
    (∀ table s n,
      answer? (streamNext? g table) s n = .done ((s.answer? g.expand table n).map Except.toOption)) ∧
    (∀ bytes, (Guarded.ofBytes g bytes).Follows (ModuleReader.ofBytes g bytes)) ∧
    (∀ r n, answer? (moduleNext? g) r n = .done ((r.answer? g n).map Except.toOption)) ∧
    (∀ i m, pushInstruction g i m = ofFault (m.pushInstruction g i) ∧
      ∀ trap, pushInstruction g i m ≠ .trapped trap) ∧
    ∀ w, setBits w = .done (w.setBits.map fun i => .ofNat i.val) := by
  refine ⟨?_, ?_, ?_, ?_, ?_, ?_⟩
  · intro opcode types l hl
    obtain ⟨rfl, rfl⟩ := Layout.ofTypes_eq_ok_iff.mp hl
    exact ⟨fun words => follows_iff.mpr (decode_types l words),
      fun operands => follows_iff.mpr (encode_types l operands)⟩
  · intro table s n
    exact answer?_streamNext?_eq s n
  · intro bytes
    exact follows_iff.mpr (ofBytes_eq g bytes)
  · intro r n
    exact answer?_moduleNext?_eq r n
  · intro i m
    rw [pushInstruction_eq]
    exact ⟨rfl, ofFault_ne_trapped _⟩
  · exact setBits_eq

theorem codec_never_traps_sample :
    Layout.ofTypes 9 Sample.types = .ok Sample.layout ∧
      decode Grammar.core Sample.types Sample.words = .done Sample.operands ∧
      encode Grammar.core 9 Sample.types [⟨.absent, []⟩] = .refused := by
  have hl : Layout.ofTypes 9 Sample.types = .ok Sample.layout := rfl
  obtain ⟨hdecode, hencode⟩ := (codec_never_traps Grammar.core).1 9 Sample.types Sample.layout hl
  have hok : Sample.layout.decode Grammar.core.expand Sample.words = .ok Sample.operands := by with_unfolding_all rfl
  refine ⟨hl, ?_, ?_⟩
  · rw [(hdecode Sample.words).eq, hok]
    rfl
  · rw [(hencode [⟨.absent, []⟩]).eq]
    with_unfolding_all rfl

end Guarded

end Spirv
