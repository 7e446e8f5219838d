/-
Words that are left over. A decoder reports them when it has come to the end of a layout without a repeated tail and still
stands in front of a word. It stood in front of one all the way, so it left no optional field out: without the words that
are left it would have come to the end of the layout in which every field is compulsory.

- `Layout.types_compulsory`, `admits_compulsory_iff`: that layout, and its operands.
- `Decoder.run_leftover_iff`: when a run stops in front of words that are left.

Main result:
- `excess_words_iff`: the number of words left over is the number of words behind the operands of that layout.
-/
import Spirv.Proofs.Continuations

namespace Spirv

variable {x : Expansion}

/-! ## Layouts in which every field is compulsory -/

/-- the type of an operand that cannot be left out -/
def OperandType.compulsory : OperandType → OperandType
  | .operand ⟨.optional, k⟩ => .operand ⟨.required, k⟩
  | type => type

def Field.compulsory (f : Field) : Field := ⟨f.kind, false⟩

def Layout.compulsory (l : Layout) : Layout := { l with fields := l.fields.map Field.compulsory }

theorem Layout.types_compulsory (l : Layout) : l.compulsory.types = l.types.map OperandType.compulsory := by
  induction l using Layout.cons_induction with
  | empty opcode tail => cases tail <;> rfl
  | cons f l ih =>
    have hfield : OperandType.operand f.compulsory.slot = (OperandType.operand f.slot).compulsory := by
      obtain ⟨k, optional⟩ := f
      cases optional <;> rfl
    calc (l.cons f).compulsory.types
      _ = .operand f.compulsory.slot :: l.compulsory.types := rfl
      _ = (l.cons f).types.map OperandType.compulsory := by rw [ih, hfield, types_cons, List.map_cons]

theorem Layout.ofTypes_compulsory (l : Layout) :
    ofTypes l.opcode (l.types.map OperandType.compulsory) = .ok l.compulsory :=
  ofTypes_eq_ok_iff.mpr ⟨rfl, l.types_compulsory⟩

/-- Only a repeated tail has a repeated type. -/
theorem Layout.tail_eq_none_iff {l : Layout} : l.tail = none ↔ ∀ t ∈ l.types, t.isRepeated = false := by
  induction l using Layout.cons_induction with
  | empty opcode tail => cases tail <;> simp [types, slots, OperandType.isRepeated, OperandType.slot?]
  | cons f l ih =>
    have hfield : (OperandType.operand f.slot).isRepeated = false := by
      obtain ⟨k, optional⟩ := f
      cases optional <;> rfl
    rw [tail_cons, types_cons, List.forall_mem_cons, ih]
    exact (and_iff_right hfield).symm

/-- Without a repeated tail there is one group of each field. -/
theorem admits_compulsory_iff {l : Layout} {operands : List Operand} (hl : l.tail = none) :
    l.compulsory.Admits x operands ↔ Groups x (l.fields.map (·.kind)) operands := by
  induction l using Layout.cons_induction generalizing operands with
  | empty opcode tail =>
    obtain rfl : tail = none := hl
    exact admits_bare_iff.trans groups_nil_iff.symm
  | cons f l ih =>
    have hcons : (l.cons f).compulsory = l.compulsory.cons f.compulsory := rfl
    rw [hcons, admits_cons_iff, Layout.fields_cons, List.map_cons, groups_cons_append_iff]
    constructor
    · rintro (⟨hoptional, -, -⟩ | ⟨p, q, rfl, hp, hq⟩)
      · cases hoptional
      · exact ⟨p, q, rfl, hp, (ih hl).mp hq⟩
    · rintro ⟨p, q, rfl, hp, hq⟩
      exact .inr ⟨p, q, rfl, hp, (ih hl).mpr hq⟩

/-! ## Runs that stop in front of a word -/

namespace Decoder

/-- A run stops in front of words that are left when it has read one group of each field and there is no more to read. -/
theorem run_leftover_iff (hx : x.Idle) {l : Layout} {d : Decoder} {n : Nat} :
    (∃ stop, run x l d = .error stop ∧ stop.error = .excessWords n) ↔
      l.tail = none ∧ 0 < n ∧
        ∃ operands d', Groups x (l.fields.map (·.kind)) operands ∧ d.Reads operands d' ∧ d'.rest.length = n := by
  induction l using Layout.cons_induction generalizing d with
  | empty opcode tail =>
    cases tail with
    | none =>
      constructor
      · rintro ⟨stop, hstop, herror⟩
        rw [run_bare] at hstop
        split at hstop
        · cases hstop
        · rename_i hrest
          obtain rfl := Except.error.inj hstop
          obtain rfl := DecodeError.excessWords.inj herror
          have hpos : 0 < d.rest.length := List.length_pos_iff.mpr (by simpa using hrest)
          exact ⟨rfl, hpos, [], d, .nil, reads_nil_iff.mpr rfl, rfl⟩
      · rintro ⟨-, hpos, operands, d', hos, hreads, rfl⟩
        obtain rfl := groups_nil_iff.mp hos
        obtain rfl := reads_nil_iff.mp hreads
        exact ⟨_, run_bare_of_more (List.length_pos_iff.mp hpos), rfl⟩
    | some k =>
      refine iff_of_false ?_ fun h => Option.some_ne_none k h.1
      rintro ⟨stop, hstop, herror⟩
      have hasks := (takeRepeated_error hx (takeRepeated_error_of_run hstop)).1
      rwa [herror] at hasks
  | cons f l ih =>
    rw [Layout.tail_cons, Layout.fields_cons, List.map_cons]
    by_cases hleftOut : f.optional = true ∧ d.rest = []
    · -- at the end of the words nothing is left over
      obtain ⟨hoptional, hrest⟩ := hleftOut
      rw [run_cons_of_left_out hoptional hrest, ih]
      have hend {operands : List Operand} {d' : Decoder} (hreads : d.Reads operands d') : d'.rest.length = 0 := by
        have hwords := hreads.rest
        rw [hrest] at hwords
        rw [(List.append_eq_nil_iff.mp hwords.symm).2, List.length_nil]
      refine iff_of_false ?_ ?_
      · rintro ⟨-, hpos, operands, d', -, hreads, hlength⟩
        have := hend hreads
        omega
      · rintro ⟨-, hpos, operands, d', -, hreads, hlength⟩
        have := hend hreads
        omega
    · rw [run_cons_of_given hleftOut]
      cases htake : take x f.kind d with
      | error stop =>
        refine iff_of_false ?_ ?_
        · rintro ⟨stop', hstop, herror⟩
          obtain rfl : stop = stop' := Except.error.inj hstop
          have hasks := (takeEach_error hx htake).1
          rwa [herror] at hasks
        · rintro ⟨-, -, operands, d', hos, hreads, -⟩
          obtain ⟨p, q, rfl, hp, -⟩ := groups_cons_append_iff.mp hos
          obtain ⟨m, hreadsp, -⟩ := reads_append_iff.mp hreads
          rw [take_eq_ok_iff.mpr ⟨p, hp, hreadsp⟩] at htake
          cases htake
      | ok m =>
        obtain ⟨p, hp, hreadsp⟩ := take_eq_ok_iff.mp htake
        refine ih.trans (and_congr_right fun _ => and_congr_right fun _ => ⟨?_, ?_⟩)
        · rintro ⟨q, d', hq, hreadsq, hlength⟩
          exact ⟨p ++ q, d', hp.append hq, reads_append_iff.mpr ⟨m, hreadsp, hreadsq⟩, hlength⟩
        · rintro ⟨operands, d', hos, hreads, hlength⟩
          obtain ⟨p', q, rfl, hp', hq⟩ := groups_cons_append_iff.mp hos
          obtain ⟨m', hreadsp', hreadsq⟩ := reads_append_iff.mp hreads
          -- the field is taken in one way only
          obtain rfl : m = m' := Except.ok.inj (htake.symm.trans (take_eq_ok_iff.mpr ⟨p', hp', hreadsp'⟩))
          exact ⟨q, d', hq, hreadsq, hlength⟩

end Decoder

/-! ## Main result -/

/-- **Leftover words are the surplus, all of it and nothing else.** Decoding reports `n` words left over just when the layout
has no repeated type and, with every operand compulsory, takes the words without the last `n`. -/
theorem excess_words_iff (g : Grammar) {opcode : UInt16} {types : List OperandType} {l : Layout}
    (hl : Layout.ofTypes opcode types = .ok l) (words : List Word) (n : Nat) :
    l.decode g.expand words = .error (.excessWords n) ↔
      (∀ t ∈ types, t.isRepeated = false) ∧ 1 ≤ n ∧ n ≤ words.length ∧
      ∃ compulsory operands, Layout.ofTypes opcode (types.map OperandType.compulsory) = .ok compulsory ∧
        compulsory.decode g.expand (words.take (words.length - n)) = .ok operands := by
  obtain ⟨rfl, rfl⟩ := Layout.ofTypes_eq_ok_iff.mp hl
  rw [Layout.decode_eq_error_iff, Decoder.run_leftover_iff g.idle_expand, ← Layout.tail_eq_none_iff]
  refine and_congr_right fun htail => and_congr_right fun _ => ⟨?_, ?_⟩
  · rintro ⟨operands, d', hos, hreads, rfl⟩
    have hwords : words = operands.flatMap (·.words) ++ d'.rest := hreads.rest
    have hlength : words.length = (operands.flatMap (·.words)).length + d'.rest.length := by
      rw [hwords, List.length_append]
    have htake : words.take (words.length - d'.rest.length) = operands.flatMap (·.words) := by
      rw [hlength, Nat.add_sub_cancel, hwords, List.take_left]
    refine ⟨by omega, l.compulsory, operands, l.ofTypes_compulsory, ?_⟩
    exact Layout.decode_eq_ok_iff.mpr ⟨htake, (admits_compulsory_iff htail).mpr hos⟩
  · rintro ⟨hle, compulsory, operands, hcompulsory, hdecode⟩
    obtain rfl := Except.ok.inj (l.ofTypes_compulsory.symm.trans hcompulsory)
    obtain ⟨htake, hos⟩ := Layout.decode_eq_ok_iff.mp hdecode
    let d' : Decoder := ⟨words.drop (words.length - n), operands.toArray⟩
    refine ⟨operands, d', (admits_compulsory_iff htail).mp hos, ⟨?_, by simp [d']⟩, ?_⟩
    · rw [← htake, List.take_append_drop]
    · rw [List.length_drop]
      omega

namespace Sample

/-- the sample layout without its repeated pairs -/
def fixedLayout : Layout := { layout with tail := none }

end Sample

/-- Behind the optional number, the text, the mask and what the mask asks for, two words are left. -/
theorem excess_words_iff_sample :
    Layout.ofTypes 9 (Sample.types.take 3) = .ok Sample.fixedLayout ∧
    (∀ t ∈ Sample.types.take 3, t.isRepeated = false) ∧ 1 ≤ 2 ∧ 2 ≤ Sample.words.length ∧
    ∃ compulsory operands, Layout.ofTypes 9 ((Sample.types.take 3).map OperandType.compulsory) = .ok compulsory ∧
      compulsory.decode Grammar.core.expand (Sample.words.take (Sample.words.length - 2)) = .ok operands := by
  have hl : Layout.ofTypes 9 (Sample.types.take 3) = .ok Sample.fixedLayout := rfl
  have hdecode : Sample.fixedLayout.decode Grammar.core.expand Sample.words = .error (.excessWords 2) := by
    with_unfolding_all rfl
  exact ⟨hl, (excess_words_iff Grammar.core hl Sample.words 2).mp hdecode⟩

end Spirv
