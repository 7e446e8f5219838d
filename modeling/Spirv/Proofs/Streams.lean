/-
A stream of instructions is split without loss. Whatever the words and the table are, each instruction that is read
accounts for the words it was read from: there are as many as its header word says, and they are what the instruction is
encoded to. So the words before the offset are always the encoding of the instructions read so far, and a run comes to a
stop in front of the first words that are no instruction.

- `ReadFrom.encodesTo`, `EncodesTo.readFrom`: what an instruction is read from is what it is encoded to.
- `next?_eq_some_ok_iff`, `next?_eq_some_error_iff`, `next?_eq_none_iff`: all that one call can do.
- `Splits`, `exists_splits`: what any number of calls preserves.
- `readFrom_extract_of_ok`: an instruction is read from the words between two offsets.
- `length_rest_after_le`, `after_eq_of_answer?_eq_none`: a run ends, and stays at its end.

Main result:
- `splits_without_loss`: the answers and offsets of any run.
-/
import Spirv.InstructionStream
import Spirv.Proofs.RoundTrip

namespace Spirv

variable {x : Expansion} {table : OpcodeTable}

/-! ## The words of an instruction -/

namespace Instruction

/-- these words are the instruction, in the layout that the table has for its opcode -/
def EncodesTo (x : Expansion) (table : OpcodeTable) (i : Instruction) (words : List Word) : Prop :=
  ∃ l, Layout.resolve table i.opcode = .ok l ∧ l.encode x i.operands = .ok words.toArray

/-- the words are a header word and as many behind it as it declares, and decode to the instruction -/
def ReadFrom (x : Expansion) (table : OpcodeTable) (i : Instruction) (words : List Word) : Prop :=
  ∃ header body, words = header :: body ∧ header.declaredCount = body.length + 1 ∧
    decode x table header.opcode body = .ok i

theorem decode_eq_ok_iff {opcode : UInt16} {words : List Word} {i : Instruction} :
    decode x table opcode words = .ok i ↔
      i.opcode = opcode ∧ ∃ l, Layout.resolve table opcode = .ok l ∧ l.decode x words = .ok i.operands := by
  unfold decode
  refine ⟨fun h => ?_, fun h => ?_⟩
  · split at h
    · cases h
    · rename_i l hl
      split at h
      · cases h
      · rename_i operands hdecode
        obtain rfl := Except.ok.inj h
        exact ⟨rfl, l, hl, hdecode⟩
  · obtain ⟨hopcode, l, hl, hdecode⟩ := h
    rw [hl]
    simp only [hdecode, ← hopcode]

variable {i : Instruction} {words : List Word}

theorem ReadFrom.ne_nil (h : i.ReadFrom x table words) : words ≠ [] := by
  obtain ⟨header, body, rfl, -⟩ := h
  exact List.cons_ne_nil header body

theorem ReadFrom.wordCount_eq (h : i.ReadFrom x table words) : i.wordCount = words.length := by
  obtain ⟨header, body, rfl, -, hdecode⟩ := h
  obtain ⟨-, l, -, hoperands⟩ := decode_eq_ok_iff.mp hdecode
  obtain ⟨rfl, -⟩ := Layout.decode_eq_ok_iff.mp hoperands
  rw [wordCount, List.length_cons, Nat.add_comm]

theorem ReadFrom.header (h : i.ReadFrom x table words) :
    ∃ header, words.head? = some header ∧ header.declaredCount = i.wordCount := by
  have hcount := h.wordCount_eq
  obtain ⟨header, body, rfl, hdeclared, -⟩ := h
  exact ⟨header, rfl, hdeclared.trans hcount.symm⟩

/-- What was read is encoded to the words it was read from. Their number fits in a header word, as one declares it. -/
theorem ReadFrom.encodesTo (h : i.ReadFrom x table words) : i.EncodesTo x table words := by
  obtain ⟨header, body, rfl, hcount, hdecode⟩ := h
  obtain ⟨hopcode, l, hl, hoperands⟩ := decode_eq_ok_iff.mp hdecode
  have hlt : body.length + 1 < 65536 := hcount ▸ header.declaredCount_lt
  refine ⟨l, hopcode ▸ hl, ?_⟩
  rw [Layout.encode_eq_of_decode hoperands, if_pos hlt, Layout.opcode_of_resolve hl, ← hcount,
    headerWord_declaredCount_opcode]

/-- An instruction that can be encoded is read from its encoding. -/
theorem EncodesTo.readFrom (h : i.EncodesTo x table words) : i.ReadFrom x table words := by
  obtain ⟨l, hl, hencode⟩ := h
  obtain ⟨hsize, hout, hdecode⟩ := Layout.decode_eq_of_encode hencode
  have hwords : words = headerWord words.length l.opcode :: i.operands.flatMap (·.words) := by simpa using hout
  have hcount : (headerWord words.length l.opcode).declaredCount = words.length :=
    declaredCount_headerWord hsize l.opcode
  have hopcode : (headerWord words.length l.opcode).opcode = i.opcode :=
    (opcode_headerWord hsize l.opcode).trans (Layout.opcode_of_resolve hl)
  refine ⟨_, _, hwords, ?_, ?_⟩
  · rw [hcount]
    exact congrArg List.length hwords
  · rw [hopcode]
    exact decode_eq_ok_iff.mpr ⟨rfl, l, hl, hdecode⟩

end Instruction

/-- the instructions, one after the other, are these words -/
inductive EncodeTo (x : Expansion) (table : OpcodeTable) : List Instruction → List Word → Prop where
  | nil : EncodeTo x table [] []
  | cons {i is first rest} (hfirst : i.EncodesTo x table first) (hrest : EncodeTo x table is rest) :
      EncodeTo x table (i :: is) (first ++ rest)

theorem EncodeTo.concat {is : List Instruction} {i : Instruction} {words last : List Word}
    (h : EncodeTo x table is words) (hlast : i.EncodesTo x table last) :
    EncodeTo x table (is ++ [i]) (words ++ last) := by
  induction h with
  | nil => simpa using EncodeTo.cons hlast .nil
  | cons hfirst _ ih =>
    rw [List.cons_append, List.append_assoc]
    exact .cons hfirst ih

/-! ## One call -/

theorem splitInstruction_eq_ok_iff {header : Word} {rest body rest' : List Word} :
    splitInstruction header rest = .ok (body, rest') ↔
      rest = body ++ rest' ∧ header.declaredCount = body.length + 1 := by
  unfold splitInstruction
  simp only
  refine ⟨?_, ?_⟩
  · intro h
    split at h
    · cases h
    · split at h
      · rename_i hlen
        obtain ⟨rfl, rfl⟩ := Prod.mk.inj (Except.ok.inj h)
        exact ⟨(List.take_append_drop _ rest).symm, hlen.symm⟩
      · cases h
  · intro h
    obtain ⟨hrest, hcount⟩ := h
    have htake : rest.take (header.declaredCount - 1) = body := by simp [hrest, hcount]
    have hdrop : rest.drop (header.declaredCount - 1) = rest' := by simp [hrest, hcount]
    rw [if_neg (by omega), htake, hdrop, if_pos hcount.symm]

/-- A header word is refused when it declares no word at all, or more words than there are. -/
theorem splitInstruction_eq_error_iff {header : Word} {rest : List Word} {e : ReadError} :
    splitInstruction header rest = .error e ↔ header.declaredCount = 0 ∧ e = .zeroWordCount ∨
      rest.length + 1 < header.declaredCount ∧ e = .truncatedInstruction header.declaredCount (rest.length + 1) := by
  unfold splitInstruction
  simp only
  by_cases hzero : header.declaredCount = 0
  · rw [if_pos hzero]
    simp [hzero, eq_comm]
  · rw [if_neg hzero]
    by_cases hshort : rest.length + 1 < header.declaredCount
    · have htake : rest.take (header.declaredCount - 1) = rest := List.take_of_length_le (by omega)
      rw [htake, if_neg (by omega)]
      simp [hzero, hshort, eq_comm]
    · have hlen : (rest.take (header.declaredCount - 1)).length + 1 = header.declaredCount := by
        rw [List.length_take]
        omega
      rw [if_pos hlen]
      simp [hzero, hshort]

namespace InstructionStream

variable {s t : InstructionStream} {i : Instruction}

theorem readAfter_eq_ok_iff {header : Word} {rest rest' : List Word} :
    readAfter x table header rest = .ok (i, rest') ↔
      ∃ body, rest = body ++ rest' ∧ i.ReadFrom x table (header :: body) := by
  unfold readAfter
  refine ⟨?_, ?_⟩
  · intro h
    split at h
    · cases h
    · rename_i body rest'' hsplit
      obtain ⟨hrest, hcount⟩ := splitInstruction_eq_ok_iff.mp hsplit
      split at h
      · cases h
      · rename_i hdecode
        obtain ⟨rfl, rfl⟩ := Prod.mk.inj (Except.ok.inj h)
        exact ⟨body, hrest, header, body, rfl, hcount, hdecode⟩
  · intro h
    obtain ⟨body, hrest, header', body', heq, hcount, hdecode⟩ := h
    obtain ⟨rfl, rfl⟩ := List.cons.inj heq
    rw [splitInstruction_eq_ok_iff.mpr ⟨hrest, hcount⟩]
    simp only [hdecode]

theorem readAfter_eq_error_iff {header : Word} {rest : List Word} {e : ReadError} :
    readAfter x table header rest = .error e ↔ splitInstruction header rest = .error e ∨
      ∃ body behind, rest = body ++ behind ∧ header.declaredCount = body.length + 1 ∧
        Instruction.decode x table header.opcode body = .error e := by
  unfold readAfter
  rcases hsplit : splitInstruction header rest with f | ⟨body, behind⟩
  · simp only [Except.error.injEq]
    refine ⟨.inl, ?_⟩
    intro h
    rcases h with h | ⟨body, behind, hrest, hcount, -⟩
    · exact h
    · rw [splitInstruction_eq_ok_iff.mpr ⟨hrest, hcount⟩] at hsplit
      cases hsplit
  · obtain ⟨hrest, hcount⟩ := splitInstruction_eq_ok_iff.mp hsplit
    simp only
    refine ⟨?_, ?_⟩
    · intro h
      cases hdecode : Instruction.decode x table header.opcode body with
      | error f =>
        rw [hdecode] at h
        exact .inr ⟨body, behind, hrest, hcount, hdecode.trans (congrArg Except.error (Except.error.inj h))⟩
      | ok i =>
        rw [hdecode] at h
        cases h
    · intro h
      rcases h with h | ⟨body', behind', hrest', hcount', hdecode⟩
      · cases h
      · obtain ⟨rfl, -⟩ := List.append_inj (hrest.symm.trans hrest') (by omega)
        rw [hdecode]

theorem next?_eq_none_iff : s.next? x table = none ↔ s.rest = [] := by
  unfold next?
  split
  · rename_i hrest
    simp [hrest]
  · rename_i hrest
    rw [hrest]
    split <;> simp

/-- A call that reads an instruction moves on by the words it was read from. -/
theorem next?_eq_some_ok_iff : s.next? x table = some (.ok i, t) ↔
    ∃ words, s.rest = words ++ t.rest ∧ t.offset = s.offset + words.length ∧ i.ReadFrom x table words := by
  unfold next?
  refine ⟨?_, ?_⟩
  · intro h
    split at h
    · cases h
    · rename_i header rest hrest
      split at h
      · rename_i j rest' hread
        obtain ⟨hj, rfl⟩ := Prod.mk.inj (Option.some.inj h)
        obtain rfl := Except.ok.inj hj
        obtain ⟨body, rfl, hbody⟩ := readAfter_eq_ok_iff.mp hread
        refine ⟨header :: body, hrest, ?_, hbody⟩
        obtain ⟨_, _, heq, hcount, -⟩ := hbody
        obtain ⟨rfl, rfl⟩ := List.cons.inj heq
        exact congrArg (s.offset + ·) hcount
      · cases h
  · intro h
    obtain ⟨words, hrest, hoffset, hwords⟩ := h
    have hread := hwords
    obtain ⟨header, body, rfl, hcount, -⟩ := hwords
    rw [hrest, List.cons_append]
    simp only [readAfter_eq_ok_iff.mpr ⟨body, rfl, hread⟩]
    rw [hcount, ← List.length_cons, ← hoffset]

/-- A call that fails gives up all that is left, and does not move. -/
theorem next?_eq_some_error_iff {e : ReadError} : s.next? x table = some (.error e, t) ↔ t = ⟨[], s.offset⟩ ∧
    ∃ header rest, s.rest = header :: rest ∧ readAfter x table header rest = .error e := by
  unfold next?
  refine ⟨?_, ?_⟩
  · intro h
    split at h
    · cases h
    · rename_i header rest hrest
      split at h
      · cases h
      · rename_i hread
        obtain ⟨he, rfl⟩ := Prod.mk.inj (Option.some.inj h)
        exact ⟨rfl, header, rest, hrest, hread.trans (congrArg Except.error (Except.error.inj he))⟩
  · intro h
    obtain ⟨rfl, header, rest, hrest, hread⟩ := h
    rw [hrest]
    simp only [hread]

/-! ## Runs -/

/-- the stream after this many calls; a call at the end leaves it as it is -/
def after (x : Expansion) (table : OpcodeTable) (s : InstructionStream) : Nat → InstructionStream
  | 0 => s
  | n + 1 =>
    match (after x table s n).next? x table with
    | none => after x table s n
    | some (_, t) => t

/-- what the call after this many others answers -/
def answer? (x : Expansion) (table : OpcodeTable) (s : InstructionStream) (n : Nat) :
    Option (Except ReadError Instruction) :=
  ((s.after x table n).next? x table).map (·.1)

/-- the instructions that this many calls read -/
def instructions (x : Expansion) (table : OpcodeTable) (s : InstructionStream) : Nat → List Instruction
  | 0 => []
  | n + 1 =>
    match s.answer? x table n with
    | some (.ok i) => instructions x table s n ++ [i]
    | _ => instructions x table s n

variable {n : Nat}

theorem answer?_eq_none_iff : s.answer? x table n = none ↔ (s.after x table n).rest = [] := by
  rw [answer?, Option.map_eq_none_iff, next?_eq_none_iff]

theorem next?_of_answer? {r : Except ReadError Instruction} (h : s.answer? x table n = some r) :
    (s.after x table n).next? x table = some (r, s.after x table (n + 1)) := by
  obtain ⟨⟨r', t⟩, hnext, rfl⟩ := Option.map_eq_some_iff.mp h
  rw [after, hnext]

theorem after_succ_of_answer?_eq_none (h : s.answer? x table n = none) :
    s.after x table (n + 1) = s.after x table n := by
  rw [after, Option.map_eq_none_iff.mp h]

/-- A stream at its end stays there. -/
theorem after_eq_of_answer?_eq_none {m : Nat} (h : s.answer? x table n = none) (hm : n ≤ m) :
    s.after x table m = s.after x table n := by
  induction hm with
  | refl => rfl
  | step _ ih =>
    rw [← ih]
    apply after_succ_of_answer?_eq_none
    rw [answer?_eq_none_iff, ih]
    exact answer?_eq_none_iff.mp h

theorem answer?_eq_none_of_le {m : Nat} (h : s.answer? x table n = none) (hm : n ≤ m) :
    s.answer? x table m = none := by
  rw [answer?_eq_none_iff, after_eq_of_answer?_eq_none h hm]
  exact answer?_eq_none_iff.mp h

theorem answer?_of_error {e : ReadError} (h : s.answer? x table n = some (.error e)) :
    (s.after x table (n + 1)).offset = (s.after x table n).offset ∧ s.answer? x table (n + 1) = none := by
  obtain ⟨hnext, -⟩ := next?_eq_some_error_iff.mp (next?_of_answer? h)
  rw [answer?_eq_none_iff, hnext]
  exact ⟨rfl, rfl⟩

/-- Every call takes a word at least. -/
theorem length_rest_after_le (x : Expansion) (table : OpcodeTable) (s : InstructionStream) (n : Nat) :
    (s.after x table n).rest.length ≤ s.rest.length - n := by
  induction n with
  | zero => exact Nat.le_refl _
  | succ n ih =>
    cases h : s.answer? x table n with
    | none =>
      rw [after_succ_of_answer?_eq_none h, answer?_eq_none_iff.mp h]
      exact Nat.zero_le _
    | some r =>
      have := next?_lt (next?_of_answer? h)
      omega

theorem answer?_eq_none_of_length_le (h : s.rest.length ≤ n) : s.answer? x table n = none := by
  have := length_rest_after_le x table s n
  rw [answer?_eq_none_iff, ← List.length_eq_zero_iff]
  omega

/-- What this many calls make of the words: those in front of the offset are the encoding of the instructions read, and
those behind it are left, unless a call has failed. -/
structure Splits (x : Expansion) (table : OpcodeTable) (words : List Word) (n : Nat) (front back : List Word) : Prop where
  eq_append : words = front ++ back
  offset : ((ofWords words).after x table n).offset = front.length
  encode : EncodeTo x table ((ofWords words).instructions x table n) front
  rest : ((ofWords words).after x table n).rest = back ∨
    ((ofWords words).after x table n).rest = [] ∧ ∃ m e, m < n ∧ (ofWords words).answer? x table m = some (.error e)

variable {words front back : List Word}

theorem splits_zero (words : List Word) : Splits x table words 0 [] words := ⟨rfl, rfl, .nil, .inl rfl⟩

theorem Splits.of_none (h : Splits x table words n front back) (hanswer : (ofWords words).answer? x table n = none) :
    Splits x table words (n + 1) front back := by
  have hafter := after_succ_of_answer?_eq_none hanswer
  refine ⟨h.eq_append, hafter ▸ h.offset, ?_, ?_⟩
  · rw [instructions, hanswer]
    exact h.encode
  · rw [hafter]
    rcases h.rest with hrest | ⟨hrest, m, e, hm, he⟩
    · exact .inl hrest
    · exact .inr ⟨hrest, m, e, Nat.lt_succ_of_lt hm, he⟩

theorem Splits.of_error {e : ReadError} (h : Splits x table words n front back)
    (hanswer : (ofWords words).answer? x table n = some (.error e)) : Splits x table words (n + 1) front back := by
  obtain ⟨hoffset, hend⟩ := answer?_of_error hanswer
  refine ⟨h.eq_append, hoffset.trans h.offset, ?_, .inr ⟨answer?_eq_none_iff.mp hend, n, e, Nat.lt_succ_self n, hanswer⟩⟩
  rw [instructions, hanswer]
  exact h.encode

/-- Where there is an answer nothing was given up. -/
theorem Splits.rest_eq (h : Splits x table words n front back) (hanswer : (ofWords words).answer? x table n ≠ none) :
    ((ofWords words).after x table n).rest = back := by
  rcases h.rest with hrest | ⟨hrest, -⟩
  · exact hrest
  · exact absurd (answer?_eq_none_iff.mpr hrest) hanswer

/-- An instruction was read from the first of the words that were left, and the others are left now. -/
theorem Splits.of_ok (h : Splits x table words n front back)
    (hanswer : (ofWords words).answer? x table n = some (.ok i)) :
    ∃ taken back', back = taken ++ back' ∧ i.ReadFrom x table taken ∧
      Splits x table words (n + 1) (front ++ taken) back' := by
  obtain ⟨taken, hrest, hoffset, hread⟩ := next?_eq_some_ok_iff.mp (next?_of_answer? hanswer)
  have hback := (h.rest_eq (by simp [hanswer])).symm.trans hrest
  refine ⟨taken, _, hback, hread, ?_, ?_, ?_, .inl rfl⟩
  · rw [List.append_assoc, ← hback]
    exact h.eq_append
  · rw [hoffset, h.offset, List.length_append]
  · rw [instructions, hanswer]
    exact h.encode.concat hread.encodesTo

theorem exists_splits (x : Expansion) (table : OpcodeTable) (words : List Word) (n : Nat) :
    ∃ front back, Splits x table words n front back := by
  induction n with
  | zero => exact ⟨[], words, splits_zero words⟩
  | succ n ih =>
    obtain ⟨front, back, h⟩ := ih
    rcases hanswer : (ofWords words).answer? x table n with _ | e | i
    · exact ⟨front, back, h.of_none hanswer⟩
    · exact ⟨front, back, h.of_error hanswer⟩
    · obtain ⟨taken, back', -, -, h'⟩ := h.of_ok hanswer
      exact ⟨front ++ taken, back', h'⟩

/-- An instruction is read from the words between the offsets in front of it and behind it. -/
theorem readFrom_extract_of_ok (hanswer : (ofWords words).answer? x table n = some (.ok i)) :
    let s := (ofWords words).after x table n
    let t := (ofWords words).after x table (n + 1)
    t.offset = s.offset + i.wordCount ∧ i.ReadFrom x table (words.extract s.offset t.offset) := by
  intro s t
  obtain ⟨front, back, h⟩ := exists_splits x table words n
  obtain ⟨taken, back', rfl, hread, h'⟩ := h.of_ok hanswer
  have hs : s.offset = front.length := h.offset
  have ht : t.offset = front.length + taken.length := by rw [h'.offset, List.length_append]
  have hextract : words.extract s.offset t.offset = taken := by
    rw [hs, ht, h.eq_append]
    simp
  refine ⟨?_, ?_⟩
  · rw [hs, ht, hread.wordCount_eq]
  · rw [hextract]
    exact hread

/-- As long as no call has failed, the end is reached when all words were read. -/
theorem Splits.answer?_eq_none_iff_of_no_error (h : Splits x table words n front back)
    (hok : ∀ m < n, ∀ e, (ofWords words).answer? x table m ≠ some (.error e)) :
    (ofWords words).answer? x table n = none ↔ ((ofWords words).after x table n).offset = words.length := by
  have hrest : ((ofWords words).after x table n).rest = back := by
    rcases h.rest with hrest | ⟨-, m, e, hm, he⟩
    · exact hrest
    · exact absurd he (hok m hm e)
  have hlen : words.length = front.length + back.length := by rw [← List.length_append, ← h.eq_append]
  rw [answer?_eq_none_iff, hrest, h.offset, hlen, ← List.length_eq_zero_iff]
  omega

/-! ## Main result -/

/-- **A stream is split without loss.** Let `s` be the stream of any words after any number of calls, and `t` the stream
after one more. -/
theorem splits_without_loss (x : Expansion) (table : OpcodeTable) (words : List Word) (n : Nat) :
    let s := (ofWords words).after x table n
    let t := (ofWords words).after x table (n + 1)
    let answer := (ofWords words).answer? x table
    -- what was read so far is what the words in front of the offset encode
    (s.offset ≤ words.length ∧ EncodeTo x table ((ofWords words).instructions x table n) (words.take s.offset)) ∧
      -- an instruction has as many words as its header word says, and they are its encoding
      (∀ i, answer n = some (.ok i) → t.offset = s.offset + i.wordCount ∧ 1 ≤ i.wordCount ∧
        (∃ header, words[s.offset]? = some header ∧ (header >>> 16).toNat = i.wordCount) ∧
        ∃ l, Layout.resolve table i.opcode = .ok l ∧
          l.encode x i.operands = .ok (words.extract s.offset t.offset).toArray) ∧
      -- a failure does not move, and nothing comes behind it
      (∀ e, answer n = some (.error e) → t.offset = s.offset ∧ ∀ m, n < m → answer m = none) ∧
      -- without a failure the end is reached when all words were read
      ((∀ m < n, ∀ e, answer m ≠ some (.error e)) → (answer n = none ↔ s.offset = words.length)) ∧
      -- the end is final, and each call before it takes a word at least
      (answer n = none → ∀ m, n ≤ m → (ofWords words).after x table m = s ∧ answer m = none) ∧
      (words.length ≤ n → answer n = none) := by
  intro s t answer
  obtain ⟨front, back, h⟩ := exists_splits x table words n
  have hoffset : s.offset = front.length := h.offset
  have htake : words.take s.offset = front := by rw [hoffset, h.eq_append, List.take_left]
  refine ⟨⟨?_, ?_⟩, ?_, ?_, h.answer?_eq_none_iff_of_no_error, ?_, ?_⟩
  · rw [hoffset, h.eq_append, List.length_append]
    exact Nat.le_add_right _ _
  · rw [htake]
    exact h.encode
  · intro i hi
    obtain ⟨hoffset', hread⟩ := readFrom_extract_of_ok hi
    have hpos : 1 ≤ i.wordCount := by
      rw [hread.wordCount_eq]
      exact List.length_pos_iff.mpr hread.ne_nil
    refine ⟨hoffset', hpos, ?_, hread.encodesTo⟩
    obtain ⟨header, hhead, hcount⟩ := hread.header
    refine ⟨header, ?_, by rw [Word.toNat_shiftRight_16, hcount]⟩
    rw [← hhead, List.extract_eq_take_drop, hoffset', Nat.add_sub_cancel_left, List.head?_take, if_neg (by omega),
      List.head?_drop]
  · intro e he
    obtain ⟨hsame, hend⟩ := answer?_of_error he
    exact ⟨hsame, fun m hm => answer?_eq_none_of_le hend hm⟩
  · intro hend m hm
    exact ⟨after_eq_of_answer?_eq_none hend hm, answer?_eq_none_of_le hend hm⟩
  · intro hn
    exact answer?_eq_none_of_length_le (s := ofWords words) hn

/-- the sample instruction, and a header word with an opcode that the table does not have -/
theorem splits_without_loss_sample :
    let table : OpcodeTable := fun opcode => if opcode = 9 then some Sample.types else none
    let s := ofWords (0x90009 :: Sample.words ++ [0x10007])
    s.answer? Grammar.core.expand table 0 = some (.ok ⟨9, Sample.operands⟩) ∧
      s.answer? Grammar.core.expand table 1 = some (.error (.layout (.unknownOpcode 7))) ∧
      (s.after Grammar.core.expand table 1).offset = 9 ∧ (s.after Grammar.core.expand table 2).offset = 9 ∧
      ∀ m, 1 < m → s.answer? Grammar.core.expand table m = none := by
  intro table s
  have hfirst : s.answer? Grammar.core.expand table 0 = some (.ok ⟨9, Sample.operands⟩) := by
    with_unfolding_all rfl
  have hsecond : s.answer? Grammar.core.expand table 1 = some (.error (.layout (.unknownOpcode 7))) := by
    with_unfolding_all rfl
  have hoffset : (s.after Grammar.core.expand table 1).offset = 9 :=
    ((splits_without_loss _ _ _ 0).2.1 _ hfirst).1
  obtain ⟨hsame, hend⟩ := (splits_without_loss _ _ _ 1).2.2.1 _ hsecond
  exact ⟨hfirst, hsecond, hoffset, hsame.trans hoffset, hend⟩

end InstructionStream

end Spirv
