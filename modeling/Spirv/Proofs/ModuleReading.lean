/-
Reading a module is reading the stream behind its header. The reader keeps all words of the module and a position among
them, the stream only the words that are left and how many it has read; `Tracks` says when the two stand at the same
place. They part in one point: a failure takes the reader to the end of its words, while the stream gives up what is
left and stays where it is. So positions agree as long as there is something to read, which is when they are reported.

- `readAt_eq_readAfter`: an instruction is read in the same way among all words and in front of those that are left.
- `Tracks.next?_of_some`, `Tracks.next?_of_none`: one call of either.
- `Tracks.after`, `Tracks.answer?_eq`: any number of calls.
- `Tracks.items_eq_outcomes`: everything up to the end.

Main result:
- `answer?_eq_stream_answer?`: a module is read as the stream behind its header.
-/
import Spirv.Proofs.Outcomes
import Spirv.Proofs.StoredModules

namespace Spirv

namespace ModuleReader

variable {g : Grammar} {x : Expansion} {table : OpcodeTable} {r : ModuleReader} {s t : InstructionStream}

/-! ## Runs -/

/-- the reader after this many calls; a call at the end leaves it as it is -/
def after (g : Grammar) (r : ModuleReader) : Nat → ModuleReader
  | 0 => r
  | n + 1 =>
    match (after g r n).next? g with
    | none => after g r n
    | some (_, t) => t

/-- what the call after this many others answers -/
def answer? (g : Grammar) (r : ModuleReader) (n : Nat) : Option (Except ModuleError Instruction) :=
  ((r.after g n).next? g).map (·.1)

/-! ## One call -/

theorem readAt_eq_readAfter {words : Array Word} {position : Nat} {header : Word} {rest : List Word}
    (h : words.toList.drop position = header :: rest) :
    readAt x table words position header = (InstructionStream.readAfter x table header rest).map (·.1) := by
  have hleft : words.size - position = rest.length + 1 := by
    rw [← Array.length_toList, ← List.length_drop, h, List.length_cons]
  have hbehind : words.toList.drop (position + 1) = rest := by
    rw [← List.drop_drop, h, List.drop_one, List.tail_cons]
  unfold readAt InstructionStream.readAfter
  simp only [hleft]
  rcases hsplit : splitInstruction header rest with e | ⟨body, behind⟩
  · rcases splitInstruction_eq_error_iff.mp hsplit with ⟨hzero, rfl⟩ | ⟨hshort, rfl⟩
    · rw [if_pos hzero]
      rfl
    · rw [if_neg (by omega), if_pos hshort]
      rfl
  · obtain ⟨rfl, hcount⟩ := splitInstruction_eq_ok_iff.mp hsplit
    have hbody : (words.extract (position + 1) (position + header.declaredCount)).toList = body := by
      have hlen : position + header.declaredCount - (position + 1) = body.length := by omega
      rw [Array.toList_extract, List.extract_eq_take_drop, hbehind, hlen, List.take_left]
    rw [if_neg (by omega), if_neg (by simp [hcount]), hbody]
    simp only
    cases Instruction.decode x table header.opcode body <;> rfl

/-- The reader stands where the stream stands, which is the one behind the header. -/
structure Tracks (r : ModuleReader) (s : InstructionStream) : Prop where
  rest : s.rest = r.words.toList.drop r.position
  /-- at the end they may differ, as a failure moves the reader but not the stream -/
  position : s.rest ≠ [] → r.position = Header.size + s.offset

theorem Tracks.next?_of_none (h : Tracks r s) (hnext : s.next? g.expand g.table = none) : r.next? g = none := by
  have hend : r.words.toList.drop r.position = [] := by
    rw [← h.rest]
    exact InstructionStream.next?_eq_none_iff.mp hnext
  have hnone : r.words[r.position]? = none := by
    rw [← Array.getElem?_toList, ← List.head?_drop, hend]
    rfl
  rw [next?, hnone]

/-- Both read the same, and a failure is reported with the place that both have. -/
theorem Tracks.next?_of_some {a : Except ReadError Instruction} (h : Tracks r s)
    (hnext : s.next? g.expand g.table = some (a, t)) :
    ∃ r', r.next? g = some (a.mapError (.malformed (Header.size + s.offset)), r') ∧ Tracks r' t := by
  obtain ⟨words, offset⟩ := s
  cases words with
  | nil => cases hnext
  | cons header rest =>
    have hdrop : r.words.toList.drop r.position = header :: rest := h.rest.symm
    have hheader : r.words[r.position]? = some header := by
      rw [← Array.getElem?_toList, ← List.head?_drop, hdrop]
      rfl
    have hposition : r.position = Header.size + offset := h.position (List.cons_ne_nil header rest)
    rw [next?, hheader]
    simp only [readAt_eq_readAfter hdrop]
    rcases hread : InstructionStream.readAfter g.expand g.table header rest with e | ⟨i, behind⟩
    · rw [InstructionStream.next?_of_failure hread] at hnext
      obtain ⟨rfl, rfl⟩ := Prod.mk.inj (Option.some.inj hnext)
      -- the reader is at the end of its words now, where nothing is left
      refine ⟨_, by rw [← hposition]; rfl, ?_, fun hne => absurd rfl hne⟩
      exact (List.drop_of_length_le (by simp)).symm
    · obtain ⟨body, rfl, hbody⟩ := InstructionStream.readAfter_eq_ok_iff.mp hread
      have hnext' := InstructionStream.next?_of_read hbody behind offset
      rw [List.cons_append] at hnext'
      rw [hnext'] at hnext
      obtain ⟨rfl, rfl⟩ := Prod.mk.inj (Option.some.inj hnext)
      obtain ⟨_, _, heq, hcount, -⟩ := hbody
      obtain ⟨rfl, rfl⟩ := List.cons.inj heq
      refine ⟨_, rfl, ?_, ?_⟩
      · simp only
        rw [← List.drop_drop, hdrop, hcount]
        simp
      · intro _
        simp only
        rw [hposition, hcount, List.length_cons, Nat.add_assoc]

/-! ## Any number of calls -/

theorem Tracks.after (h : Tracks r s) (n : Nat) : Tracks (r.after g n) (s.after g.expand g.table n) := by
  induction n with
  | zero => exact h
  | succ n ih =>
    rw [ModuleReader.after, InstructionStream.after]
    cases hnext : (s.after g.expand g.table n).next? g.expand g.table with
    | none =>
      rw [ih.next?_of_none hnext]
      exact ih
    | some p =>
      obtain ⟨a, t⟩ := p
      obtain ⟨r', hr', htracks⟩ := ih.next?_of_some hnext
      rw [hr']
      exact htracks

theorem Tracks.answer?_eq (h : Tracks r s) (n : Nat) :
    r.answer? g n = (s.answer? g.expand g.table n).map
      (Except.mapError (.malformed (Header.size + (s.after g.expand g.table n).offset))) := by
  rw [answer?, InstructionStream.answer?]
  cases hnext : (s.after g.expand g.table n).next? g.expand g.table with
  | none =>
    rw [(h.after n).next?_of_none hnext]
    rfl
  | some p =>
    obtain ⟨a, t⟩ := p
    obtain ⟨r', hr', -⟩ := (h.after n).next?_of_some hnext
    rw [hr']
    rfl

/-! ## Everything up to the end -/

theorem items_go_of_none {done : Array (Except ModuleError Instruction)} (h : r.next? g = none) :
    items.go g done r = done := by
  rw [items.go]
  split
  · rfl
  · rename_i h'
    rw [h] at h'
    cases h'

theorem items_go_of_some {done : Array (Except ModuleError Instruction)} {item : Except ModuleError Instruction}
    {r' : ModuleReader} (h : r.next? g = some (item, r')) : items.go g done r = items.go g (done.push item) r' := by
  rw [items.go]
  split
  · rename_i h'
    rw [h] at h'
    cases h'
  · rename_i h'
    rw [h] at h'
    cases h'
    rfl

theorem Tracks.items_go_eq {done : Array (Except ModuleError Instruction)} (h : Tracks r s) :
    (items.go g done r).toList = done.toList ++ (s.outcomes g.expand g.table).map
      (InstructionStream.Outcome.report fun start => .malformed (Header.size + start)) := by
  induction s using InstructionStream.run_induction g.expand g.table generalizing r done with
  | ended offset =>
    rw [items_go_of_none (h.next?_of_none rfl), InstructionStream.outcomes_nil, List.map_nil, List.append_nil]
  | failed header rest offset e hread =>
    obtain ⟨r', hr', htracks⟩ := h.next?_of_some (InstructionStream.next?_of_failure hread offset)
    rw [items_go_of_some hr', items_go_of_none (htracks.next?_of_none rfl), Array.toList_push,
      InstructionStream.outcomes_of_failure hread]
    rfl
  | read i words rest offset hread ih =>
    obtain ⟨r', hr', htracks⟩ := h.next?_of_some (InstructionStream.next?_of_read hread rest offset)
    rw [items_go_of_some hr', ih htracks, Array.toList_push, InstructionStream.outcomes_of_read hread,
      List.map_cons, List.append_assoc]
    rfl

theorem Tracks.items_eq_outcomes (h : Tracks r s) :
    (r.items g).toList = (s.outcomes g.expand g.table).map
      (InstructionStream.Outcome.report fun start => .malformed (Header.size + start)) := h.items_go_eq

/-! ## Opened modules -/

theorem tracks_of_ofBytes {bytes : List UInt8} (h : ofBytes g bytes = .ok r) :
    Tracks r (.ofWords (r.words.toList.drop Header.size)) := by
  obtain ⟨-, -, hposition, -⟩ := ofBytes_eq_ok_iff.mp h
  refine ⟨?_, fun _ => ?_⟩
  · rw [hposition]
    rfl
  · exact hposition

/-- What a reader gives are the instructions that the words behind the header encode, up to the first that encode none. -/
theorem exists_encodeTo_items {bytes : List UInt8} (h : ofBytes g bytes = .ok r) :
    ∃ is front back, r.words.toList = r.header.toList ++ (front ++ back) ∧ EncodeTo g.expand g.table is front ∧
      (back = [] ∧ (r.items g).toList = is.map .ok ∨
        ∃ e, (r.items g).toList = is.map .ok ++ [.error (.malformed (Header.size + front.length) e)]) := by
  obtain ⟨-, ⟨body, hwords⟩, -, -⟩ := ofBytes_eq_ok_iff.mp h
  obtain ⟨is, front, back, hbody, hencode, hend⟩ := InstructionStream.exists_encodeTo
    (fun start => ModuleError.malformed (Header.size + start)) (.ofWords (r.words.toList.drop Header.size))
  have hdrop : r.words.toList.drop Header.size = body := by
    rw [hwords]
    rfl
  simp only [InstructionStream.ofWords, hdrop] at hbody
  rw [← (tracks_of_ofBytes h).items_eq_outcomes] at hend
  simp only [InstructionStream.ofWords, Nat.zero_add] at hend
  refine ⟨is, front, back, ?_, hencode, hend⟩
  rw [hwords, hbody]

/-! ## Main result -/

/-- **A module is read as the stream behind its header.** The words of the reader are those that the bytes hold. Call by
call its answers are those of the stream, an instruction as it is, a failure with its place in the whole module, and
behind a failure and at the end neither answers any more. -/
theorem answer?_eq_stream_answer? {bytes : List UInt8} (h : ofBytes g bytes = .ok r) (n : Nat) :
    let s := InstructionStream.ofWords (r.words.toList.drop 5)
    let offset := (s.after g.expand g.table n).offset
    Stored g.magic bytes r.words.toList ∧
      (r.answer? g n =
        match s.answer? g.expand g.table n with
        | none => none
        | some (.ok i) => some (.ok i)
        | some (.error e) => some (.error (.malformed (5 + offset) e))) ∧
      ((∃ e, s.answer? g.expand g.table n = some (.error e)) ∨ s.answer? g.expand g.table n = none →
        ∀ m, n < m → r.answer? g m = none ∧ s.answer? g.expand g.table m = none) := by
  intro s offset
  have htracks : Tracks r s := tracks_of_ofBytes h
  refine ⟨(ofBytes_eq_ok_iff.mp h).1, ?_, ?_⟩
  · rw [htracks.answer?_eq n]
    rcases s.answer? g.expand g.table n with _ | e | i <;> rfl
  · intro hlast m hm
    have hend : s.answer? g.expand g.table m = none := by
      rcases hlast with ⟨e, he⟩ | hnone
      · exact InstructionStream.answer?_eq_none_of_le (InstructionStream.answer?_of_error he).2 hm
      · exact InstructionStream.answer?_eq_none_of_le hnone (Nat.le_of_lt hm)
    rw [htracks.answer?_eq m, hend]
    exact ⟨rfl, rfl⟩

end ModuleReader

namespace Sample

/-- a header, two instructions, and a header word with an unknown opcode -/
def moduleWords : List Word := [0x07230203, 0x10600, 0, 8, 0, 0x10000, 0x3003e, 1, 2, 0x1fff0]

/-- the module as a machine of the opposite byte order stores it -/
def moduleBytes : List UInt8 := (moduleWords.map Word.swapBytes).flatMap Word.bytes

def moduleReader : ModuleReader := ⟨.swapped, ⟨0x07230203, 0x10600, 0, 8, 0⟩, moduleWords.toArray, 5⟩

theorem ofBytes_moduleBytes : ModuleReader.ofBytes Grammar.core moduleBytes = .ok moduleReader := by
  with_unfolding_all rfl

end Sample

theorem ModuleReader.answer?_eq_stream_answer?_sample :
    let s := InstructionStream.ofWords [0x10000, 0x3003e, 1, 2, 0x1fff0]
    let g := Grammar.core
    ofBytes g Sample.moduleBytes = .ok Sample.moduleReader ∧
      s.answer? g.expand g.table 2 = some (.error (.layout (.unknownOpcode 0xfff0))) ∧
      (s.after g.expand g.table 2).offset = 4 ∧
      Sample.moduleReader.answer? g 2 = some (.error (.malformed 9 (.layout (.unknownOpcode 0xfff0)))) ∧
      ∀ m, 2 < m → Sample.moduleReader.answer? g m = none := by
  intro s g
  have hanswer : s.answer? g.expand g.table 2 = some (.error (.layout (.unknownOpcode 0xfff0))) := by
    with_unfolding_all rfl
  have hoffset : (s.after g.expand g.table 2).offset = 4 := by with_unfolding_all rfl
  obtain ⟨-, hsame, hend⟩ := answer?_eq_stream_answer? Sample.ofBytes_moduleBytes 2
  have hwords : InstructionStream.ofWords (Sample.moduleReader.words.toList.drop 5) = s := rfl
  simp only [hwords] at hsame hend
  refine ⟨Sample.ofBytes_moduleBytes, hanswer, hoffset, ?_, ?_⟩
  · rw [hsame, hanswer, hoffset]
  · exact fun m hm => (hend (.inl ⟨_, hanswer⟩) m hm).1

end Spirv
