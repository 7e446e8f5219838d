/-
All that a stream answers, from where it stands to its end. A stream ends in one of two ways, when no word is left or in
front of words that are no instruction, and `run_induction` is the induction over this. An instruction is read without a
look at the words behind it, so two rows of words, one behind the other, are read as the first and then as the second,
moved on. A failure is final whatever comes behind it, except that more words may complete an instruction that was cut
short.

- `readAfter_append_of_error`: what words behind cannot cure.
- `outcomes_of_read`, `outcomes_of_failure`: the outcomes of a stream, from those of the rest.
- `outcomes_append_of_read`, `outcomes_append_of_failure`: the two runs side by side.
- `exists_encodeTo`, `outcomes_of_encodeTo`: a run reads the instructions that the words in front encode, and any words
  that encode instructions are read as these.

Main result:
- `outcomes_append`: reading a concatenation.
-/
import Spirv.Proofs.Streams

namespace Spirv

variable {x : Expansion} {table : OpcodeTable}

namespace InstructionStream

/-! ## One call, with more words behind -/

/-- A failure that is not for want of words stays, whatever words come behind. -/
theorem readAfter_append_of_error {header : Word} {rest : List Word} {e : ReadError}
    (h : readAfter x table header rest = .error e) (he : ∀ declared available, e ≠ .truncatedInstruction declared available)
    (more : List Word) : readAfter x table header (rest ++ more) = .error e := by
  rw [readAfter_eq_error_iff] at h ⊢
  rcases h with h | ⟨body, behind, rfl, hcount, hdecode⟩
  · rcases splitInstruction_eq_error_iff.mp h with ⟨hzero, rfl⟩ | ⟨-, rfl⟩
    · exact .inl (splitInstruction_eq_error_iff.mpr (.inl ⟨hzero, rfl⟩))
    · exact absurd rfl (he _ _)
  · exact .inr ⟨body, behind ++ more, List.append_assoc .., hcount, hdecode⟩

/-- **How a stream goes.** It is at its end, or it fails where it stands, or an instruction is read and it goes on. -/
@[elab_as_elim] theorem run_induction (x : Expansion) (table : OpcodeTable) {motive : InstructionStream → Prop}
    (ended : ∀ offset, motive ⟨[], offset⟩)
    (failed : ∀ header rest offset e, readAfter x table header rest = .error e → motive ⟨header :: rest, offset⟩)
    (read : ∀ (i : Instruction) words rest offset, i.ReadFrom x table words → motive ⟨rest, offset + words.length⟩ →
      motive ⟨words ++ rest, offset⟩)
    (s : InstructionStream) : motive s := by
  fun_induction drain x table s with
  | case1 s h =>
    obtain ⟨words, offset⟩ := s
    obtain rfl : words = [] := next?_eq_none_iff.mp h
    exact ended offset
  | case2 s r t h hlt ih =>
    obtain ⟨words, offset⟩ := s
    cases r with
    | error e =>
      obtain ⟨-, header, rest, rfl, hread⟩ := next?_eq_some_error_iff.mp h
      exact failed header rest offset e hread
    | ok i =>
      obtain ⟨taken, hwords, hoffset, hread⟩ := next?_eq_some_ok_iff.mp h
      obtain ⟨rest, stop⟩ := t
      simp only at hwords hoffset
      rw [hwords]
      exact read i taken rest offset hread (hoffset ▸ ih)

/-! ## Outcomes -/

/-- what a caller sees of one call: the offset in front of it, its answer, and the offset behind it -/
structure Outcome where
  start : Nat
  answer : Except ReadError Instruction
  stop : Nat

def Step.outcome (s : Step) : Outcome := ⟨s.before.offset, s.result, s.after.offset⟩

/-- the outcomes of all calls up to the end -/
def outcomes (x : Expansion) (table : OpcodeTable) (s : InstructionStream) : List Outcome :=
  (s.steps x table).toList.map Step.outcome

/-- the same outcome in a stream that starts so many words later -/
def Outcome.shift (distance : Nat) (o : Outcome) : Outcome := ⟨distance + o.start, o.answer, distance + o.stop⟩

/-- the instruction that was read, or a failure that tells its place -/
def Outcome.report {ε : Type} (fail : Nat → ReadError → ε) (o : Outcome) : Except ε Instruction :=
  o.answer.mapError (fail o.start)

theorem steps_go_of_none {done : Array Step} {s : InstructionStream} (h : s.next? x table = none) :
    steps.go x table done s = done := by
  rw [steps.go]
  split
  · rfl
  · rename_i h'
    rw [h] at h'
    cases h'

theorem steps_go_of_some {done : Array Step} {s t : InstructionStream} {r : Except ReadError Instruction}
    (h : s.next? x table = some (r, t)) : steps.go x table done s = steps.go x table (done.push ⟨s, r, t⟩) t := by
  rw [steps.go]
  split
  · rename_i h'
    rw [h] at h'
    cases h'
  · rename_i h'
    rw [h] at h'
    cases h'
    rfl

variable {i : Instruction} {header : Word} {words rest : List Word} {offset : Nat} {e : ReadError}

theorem next?_of_read (h : i.ReadFrom x table words) (rest : List Word) (offset : Nat) :
    next? x table ⟨words ++ rest, offset⟩ = some (.ok i, ⟨rest, offset + words.length⟩) :=
  next?_eq_some_ok_iff.mpr ⟨words, rfl, rfl, h⟩

theorem next?_of_failure (h : readAfter x table header rest = .error e) (offset : Nat) :
    next? x table ⟨header :: rest, offset⟩ = some (.error e, ⟨[], offset⟩) :=
  next?_eq_some_error_iff.mpr ⟨rfl, header, rest, rfl, h⟩

/-- The steps that were done before stand in front and have no part in what follows. -/
theorem steps_go_eq_append (done : Array Step) (s : InstructionStream) :
    steps.go x table done s = done ++ s.steps x table := by
  unfold steps
  induction s using run_induction x table generalizing done with
  | ended offset =>
    have hnone : next? x table ⟨[], offset⟩ = none := rfl
    rw [steps_go_of_none hnone, steps_go_of_none hnone, Array.append_empty]
  | failed header rest offset e h =>
    have hnone : next? x table ⟨[], offset⟩ = none := rfl
    have hsome := next?_of_failure h offset
    rw [steps_go_of_some hsome, steps_go_of_some hsome, steps_go_of_none hnone, steps_go_of_none hnone]
    rfl
  | read i words rest offset h ih =>
    have hsome := next?_of_read h rest offset
    rw [steps_go_of_some hsome, steps_go_of_some hsome, ih, ih (Array.push #[] _)]
    simp

theorem outcomes_of_next? {s t : InstructionStream} {r : Except ReadError Instruction}
    (h : s.next? x table = some (r, t)) : s.outcomes x table = ⟨s.offset, r, t.offset⟩ :: t.outcomes x table := by
  rw [outcomes, steps, steps_go_of_some h, steps_go_eq_append]
  simp [outcomes, Step.outcome]

theorem outcomes_nil (x : Expansion) (table : OpcodeTable) (offset : Nat) :
    outcomes x table ⟨[], offset⟩ = [] := by
  rw [outcomes, steps, steps_go_of_none rfl]
  rfl

theorem outcomes_of_failure (h : readAfter x table header rest = .error e) (offset : Nat) :
    outcomes x table ⟨header :: rest, offset⟩ = [⟨offset, .error e, offset⟩] := by
  rw [outcomes_of_next? (next?_of_failure h offset), outcomes_nil]

theorem outcomes_of_read (h : i.ReadFrom x table words) (rest : List Word) (offset : Nat) :
    outcomes x table ⟨words ++ rest, offset⟩ =
      ⟨offset, .ok i, offset + words.length⟩ :: outcomes x table ⟨rest, offset + words.length⟩ :=
  outcomes_of_next? (next?_of_read h rest offset)

theorem drain_of_next? {s t : InstructionStream} {r : Except ReadError Instruction}
    (h : s.next? x table = some (r, t)) : s.drain x table = t.drain x table := by
  rw [drain]
  split
  · rename_i h'
    rw [h] at h'
    cases h'
  · rename_i h'
    rw [h] at h'
    cases h'
    rfl

theorem drain_nil (x : Expansion) (table : OpcodeTable) (offset : Nat) :
    drain x table ⟨[], offset⟩ = ⟨[], offset⟩ := by
  rw [drain]
  rfl

theorem drain_of_failure (h : readAfter x table header rest = .error e) (offset : Nat) :
    drain x table ⟨header :: rest, offset⟩ = ⟨[], offset⟩ := by
  rw [drain_of_next? (next?_of_failure h offset), drain_nil]

theorem drain_of_read (h : i.ReadFrom x table words) (rest : List Word) (offset : Nat) :
    drain x table ⟨words ++ rest, offset⟩ = drain x table ⟨rest, offset + words.length⟩ :=
  drain_of_next? (next?_of_read h rest offset)

/-! ## Encoded instructions -/

theorem report_ok {ε : Type} (fail : Nat → ReadError → ε) (start stop : Nat) :
    Outcome.report fail ⟨start, .ok i, stop⟩ = .ok i := rfl

/-- Words that encode instructions are read as these. -/
theorem outcomes_of_encodeTo {ε : Type} (fail : Nat → ReadError → ε) {is : List Instruction}
    (h : EncodeTo x table is words) (offset : Nat) :
    (outcomes x table ⟨words, offset⟩).map (Outcome.report fail) = is.map .ok := by
  induction h generalizing offset with
  | nil => rw [outcomes_nil, List.map_nil, List.map_nil]
  | cons hfirst _ ih => rw [outcomes_of_read hfirst.readFrom, List.map_cons, List.map_cons, report_ok, ih]

/-- A run reads the instructions that the words in front encode. They are all words, or it fails behind them. -/
theorem exists_encodeTo {ε : Type} (fail : Nat → ReadError → ε) (s : InstructionStream) :
    ∃ is front back, s.rest = front ++ back ∧ EncodeTo x table is front ∧
      (back = [] ∧ (s.outcomes x table).map (Outcome.report fail) = is.map .ok ∨
        ∃ e, (s.outcomes x table).map (Outcome.report fail) =
          is.map .ok ++ [.error (fail (s.offset + front.length) e)]) := by
  induction s using run_induction x table with
  | ended offset =>
    refine ⟨[], [], [], rfl, .nil, .inl ⟨rfl, ?_⟩⟩
    rw [outcomes_nil, List.map_nil, List.map_nil]
  | failed header rest offset e h =>
    refine ⟨[], [], header :: rest, rfl, .nil, .inr ⟨e, ?_⟩⟩
    rw [outcomes_of_failure h]
    rfl
  | read i words rest offset h ih =>
    obtain ⟨is, front, back, hrest, hencode, hend⟩ := ih
    simp only at hrest
    refine ⟨i :: is, words ++ front, back, ?_, .cons h.encodesTo hencode, ?_⟩
    · rw [hrest, List.append_assoc]
    · rw [outcomes_of_read h, List.map_cons, List.map_cons, report_ok]
      rcases hend with ⟨hback, hall⟩ | ⟨e, hall⟩
      · exact .inl ⟨hback, by rw [hall]⟩
      · refine .inr ⟨e, ?_⟩
        rw [hall, List.length_append, List.cons_append, ← Nat.add_assoc]

/-! ## One row of words behind another -/

/-- Nothing depends on where a stream starts, save the offsets themselves. -/
theorem outcomes_shift (x : Expansion) (table : OpcodeTable) (distance : Nat) (s : InstructionStream) :
    outcomes x table ⟨s.rest, distance + s.offset⟩ = (s.outcomes x table).map (Outcome.shift distance) ∧
      (drain x table ⟨s.rest, distance + s.offset⟩).offset = distance + (s.drain x table).offset := by
  induction s using run_induction x table with
  | ended offset =>
    rw [outcomes_nil, outcomes_nil, drain_nil, drain_nil]
    exact ⟨rfl, rfl⟩
  | failed header rest offset e h =>
    rw [outcomes_of_failure h, outcomes_of_failure h, drain_of_failure h, drain_of_failure h]
    exact ⟨rfl, rfl⟩
  | read i words rest offset h ih =>
    simp only [← Nat.add_assoc] at ih
    rw [outcomes_of_read h, outcomes_of_read h, drain_of_read h, drain_of_read h, ih.1, ih.2]
    exact ⟨by simp [Outcome.shift, Nat.add_assoc], rfl⟩

theorem outcomes_append_of_read (s : InstructionStream) (b : List Word)
    (h : ∀ o ∈ s.outcomes x table, ∀ e, o.answer ≠ .error e) :
    let behind : InstructionStream := ⟨b, s.offset + s.rest.length⟩
    outcomes x table ⟨s.rest ++ b, s.offset⟩ = s.outcomes x table ++ behind.outcomes x table ∧
      drain x table ⟨s.rest ++ b, s.offset⟩ = behind.drain x table := by
  intro behind
  induction s using run_induction x table with
  | ended offset =>
    rw [outcomes_nil]
    exact ⟨rfl, rfl⟩
  | failed header rest offset e hfail =>
    rw [outcomes_of_failure hfail] at h
    exact absurd rfl (h _ (List.mem_singleton.mpr rfl) e)
  | read i words rest offset hread ih =>
    rw [outcomes_of_read hread] at h ⊢
    obtain ⟨hall, hdrain⟩ := ih fun o ho => h o (List.mem_cons_of_mem _ ho)
    simp only at hall hdrain
    simp only [List.append_assoc, behind, List.length_append, ← Nat.add_assoc]
    rw [outcomes_of_read hread, drain_of_read hread, hall, hdrain, List.cons_append]
    exact ⟨rfl, rfl⟩

theorem outcomes_append_of_failure (s : InstructionStream) (b : List Word) {o : Outcome}
    (ho : o ∈ s.outcomes x table) (he : o.answer = .error e)
    (hcut : ∀ declared available, e ≠ .truncatedInstruction declared available) :
    outcomes x table ⟨s.rest ++ b, s.offset⟩ = s.outcomes x table ∧
      drain x table ⟨s.rest ++ b, s.offset⟩ = s.drain x table := by
  induction s using run_induction x table with
  | ended offset =>
    rw [outcomes_nil] at ho
    cases ho
  | failed header rest offset f hfail =>
    rw [outcomes_of_failure hfail] at ho ⊢
    obtain rfl := List.mem_singleton.mp ho
    obtain rfl := Except.error.inj he
    have hfail' := readAfter_append_of_error hfail hcut b
    rw [List.cons_append, outcomes_of_failure hfail', drain_of_failure hfail', drain_of_failure hfail]
    exact ⟨rfl, rfl⟩
  | read i words rest offset hread ih =>
    rw [outcomes_of_read hread] at ho ⊢
    rcases List.mem_cons.mp ho with rfl | ho
    · cases he
    · obtain ⟨hall, hdrain⟩ := ih ho
      simp only at hall hdrain
      simp only [List.append_assoc]
      rw [outcomes_of_read hread, drain_of_read hread, drain_of_read hread, hall, hdrain]
      exact ⟨rfl, rfl⟩

/-! ## Main result -/

/-- **Reading a concatenation is concatenating the readings.** Where the first words are read without failure, all that
follows is as if the others were alone, with offsets larger by the number of the first. Where they are not, the others
make no difference, unless the failure is for want of words. -/
theorem outcomes_append (x : Expansion) (table : OpcodeTable) (a b : List Word) :
    let outcomes (words : List Word) := (ofWords words).outcomes x table
    let final (words : List Word) := ((ofWords words).drain x table).offset
    ((∀ o ∈ outcomes a, ∀ e, o.answer ≠ .error e) →
        outcomes (a ++ b) = outcomes a ++ (outcomes b).map (Outcome.shift a.length) ∧
          final (a ++ b) = a.length + final b) ∧
      ∀ o ∈ outcomes a, ∀ e, o.answer = .error e →
        (∀ declared available, e ≠ .truncatedInstruction declared available) →
          outcomes (a ++ b) = outcomes a ∧ final (a ++ b) = final a := by
  intro outcomes final
  refine ⟨?_, ?_⟩
  · intro hok
    obtain ⟨hall, hdrain⟩ := outcomes_append_of_read (ofWords a) b hok
    have hstart : (ofWords a).offset + (ofWords a).rest.length = a.length + (ofWords b).offset := Nat.add_comm _ _
    obtain ⟨hshift, hfinal⟩ := outcomes_shift x table a.length (ofWords b)
    rw [hstart] at hall hdrain
    exact ⟨hall.trans (congrArg _ hshift), (congrArg (·.offset) hdrain).trans hfinal⟩
  · intro o ho e he hcut
    obtain ⟨hall, hdrain⟩ := outcomes_append_of_failure (ofWords a) b ho he hcut
    exact ⟨hall, congrArg (·.offset) hdrain⟩

/-- the sample instruction and a header word with an opcode that the table does not have, in both orders; and the
sample instruction put together from two rows of words, of which the first alone is cut short -/
theorem outcomes_append_sample :
    let table : OpcodeTable := fun opcode => if opcode = 9 then some Sample.types else none
    let outcomes (words : List Word) := (ofWords words).outcomes Grammar.core.expand table
    let a : List Word := 0x90009 :: Sample.words
    let b : List Word := [0x10007]
    let read (start : Nat) : Outcome := ⟨start, .ok ⟨9, Sample.operands⟩, start + 9⟩
    let failed (start : Nat) : Outcome := ⟨start, .error (.layout (.unknownOpcode 7)), start⟩
    (outcomes a = [read 0] ∧ outcomes b = [failed 0]) ∧
      (outcomes (a ++ b) = [read 0, failed 9] ∧ outcomes (b ++ a) = [failed 0]) ∧
      outcomes [0x90009] = [⟨0, .error (.truncatedInstruction 9 1), 0⟩] ∧
      outcomes ([0x90009] ++ Sample.words) = [read 0] := by
  intro table outcomes a b read failed
  have ha : outcomes a = [read 0] := by with_unfolding_all rfl
  have hb : outcomes b = [failed 0] := by with_unfolding_all rfl
  have hcut : outcomes [0x90009] = [⟨0, .error (.truncatedInstruction 9 1), 0⟩] := by with_unfolding_all rfl
  refine ⟨⟨ha, hb⟩, ⟨?_, ?_⟩, hcut, ha⟩
  · have hok : ∀ o ∈ outcomes a, ∀ e, o.answer ≠ .error e := by simp [ha, read]
    have hall : outcomes (a ++ b) = outcomes a ++ (outcomes b).map (Outcome.shift a.length) :=
      ((outcomes_append Grammar.core.expand table a b).1 hok).1
    rw [hall, ha, hb]
    rfl
  · have hmem : failed 0 ∈ outcomes b := by simp [hb]
    exact ((outcomes_append Grammar.core.expand table b a).2 _ hmem _ rfl (by simp)).1.trans hb

end InstructionStream

end Spirv
