/-
How few words an instruction can have. Every kind of operand has a form with the fewest words, in which all words are zero;
a mask without set bits asks for nothing, so this form stands for a whole group. An instruction with the fewest words has
this form of every field that cannot be left out.

Those are not only the required fields. An optional field is there whenever a word is left, so it can be left out only
together with everything behind it: every field up to the last required one is there (`Layout.pinned`), and
`Layout.leastWordCount` counts their words. `Layout.minWordCount` counts those of the required fields.

- `Groups.minWords_le`, `groups_zeros`: words of groups.
- `Layout.Admits.leastWordCount_le`, `Layout.exists_admits_least`: words of an instruction.
- `Layout.minWordCount_eq_iff`: when the required fields are all that is there.

Main results:
- `least_word_count`: no instruction has fewer words than its required fields, and one with as many exists just when no
  optional field stands in front of a required one.
- `minWordCount_not_reached`: a layout of which every instruction has more words than that.
-/
import Mathlib.Algebra.Ring.Nat
import Spirv.Proofs.Decoding

namespace Spirv

/-! ## Words of an operand -/

namespace Kind

theorem minWords_le_of_fits {k : Kind} {words : List Word} (h : k.shape.Fits words) : k.minWords ≤ words.length := by
  have hne := List.length_pos_iff.mpr (ne_nil_of_fits h)
  unfold minWords
  cases hshape : k.shape with
  | fixed n =>
    rw [hshape] at h
    exact Nat.le_of_eq (Eq.symm h)
  | terminated => exact hne

theorem fits_zeros (k : Kind) : k.shape.Fits (List.replicate k.minWords 0) := by
  unfold minWords
  cases k.shape with
  | fixed n => exact List.length_replicate
  | terminated => exact ⟨[], 0, rfl, by decide, by simp⟩

theorem minWords_pos (k : Kind) : 0 < k.minWords := by
  have h := List.length_pos_iff.mpr (ne_nil_of_fits k.fits_zeros)
  rwa [List.length_replicate] at h

/-- the operand of this kind with the fewest words -/
def zeros (k : Kind) : Operand := ⟨k.type, List.replicate k.minWords 0⟩

end Kind

/-- no mask asks for anything without set bits -/
def Expansion.Idle (x : Expansion) : Prop := ∀ m, x m 0 = []

theorem Grammar.idle_expand (g : Grammar) : g.expand.Idle := by
  intro m
  have hbits : Word.setBits 0 = [] := by with_unfolding_all rfl
  rw [expand]
  split
  · rw [MaskTable.implied, hbits]
    rfl
  · rfl

variable {x : Expansion}

theorem Expansion.Idle.follow_zeros (hx : x.Idle) (k : Kind) : k.follow x (List.replicate k.minWords 0) = [] := by
  cases k with
  | mask m => exact hx m
  | _ => rfl

/-! ## Words of groups -/

theorem Groups.minWords_le {ks : List Kind} {operands : List Operand} (h : Groups x ks operands) :
    (ks.map Kind.minWords).sum ≤ (operands.flatMap (·.words)).length := by
  induction h with
  | nil => simp
  | plain hk hfits _ ih =>
    have := Kind.minWords_le_of_fits hfits
    simp only [List.map_cons, List.sum_cons, List.flatMap_cons, List.length_append]
    omega
  | mask _ _ _ ih =>
    have : ∀ m, (Kind.mask m).minWords = 1 := fun m => rfl
    simp only [List.map_cons, List.sum_cons, List.flatMap_cons, List.flatMap_append, List.length_append,
      List.length_cons, List.length_nil, this]
    omega

/-- Operands with the fewest words are groups of their kinds. -/
theorem groups_zeros (hx : x.Idle) (ks : List Kind) : Groups x ks (ks.map Kind.zeros) := by
  induction ks with
  | nil => exact .nil
  | cons k ks ih =>
    refine groups_cons_iff.mpr ⟨_, _, rfl, k.fits_zeros, ?_⟩
    rw [hx.follow_zeros]
    exact ih

/-! ## Words of an instruction -/

namespace Layout

/-- the fields up to the last required one -/
def pinned : List Field → List Field
  | [] => []
  | f :: fs => if f.optional && (pinned fs).isEmpty then [] else f :: pinned fs

/-- the fewest operand words of an instruction with this layout, counted over all fields that cannot be left out -/
def leastWordCount (l : Layout) : Nat := ((pinned l.fields).map (·.kind.minWords)).sum

theorem pinned_eq_nil_iff {fs : List Field} : pinned fs = [] ↔ ∀ k, ⟨k, false⟩ ∉ fs := by
  induction fs with
  | nil => simp [pinned]
  | cons f fs ih =>
    obtain ⟨k, optional⟩ := f
    cases optional with
    | true => simp [pinned, ih]
    | false => exact iff_of_false (by simp [pinned]) fun h => h k List.mem_cons_self

theorem pinned_eq_nil_iff_forall {fs : List Field} : pinned fs = [] ↔ ∀ f ∈ fs, f.optional = true :=
  pinned_eq_nil_iff.trans forall_optional_iff.symm

theorem leastWordCount_cons_of_nil {f : Field} {l : Layout} (hoptional : f.optional = true)
    (hnil : pinned l.fields = []) : (l.cons f).leastWordCount = 0 := by
  simp [leastWordCount, pinned, hoptional, hnil]

theorem leastWordCount_cons_of_pinned {f : Field} {l : Layout} (h : ¬(f.optional = true ∧ pinned l.fields = [])) :
    (l.cons f).leastWordCount = f.kind.minWords + l.leastWordCount := by
  rw [leastWordCount, fields_cons, pinned, if_neg (by simpa using h)]
  rfl

/-- An instruction has the words of every field that cannot be left out. -/
theorem Admits.leastWordCount_le {l : Layout} {operands : List Operand} (h : l.Admits x operands) :
    l.leastWordCount ≤ (operands.flatMap (·.words)).length := by
  induction l using Layout.cons_induction generalizing operands with
  | empty opcode tail => exact Nat.zero_le _
  | cons f l ih =>
    rcases admits_cons_iff.mp h with ⟨hoptional, rfl, hl⟩ | ⟨p, q, rfl, hp, hq⟩
    · rw [leastWordCount_cons_of_nil hoptional (pinned_eq_nil_iff.mpr (admits_nil_iff.mp hl))]
      exact Nat.zero_le _
    · by_cases hnil : f.optional = true ∧ pinned l.fields = []
      · rw [leastWordCount_cons_of_nil hnil.1 hnil.2]
        exact Nat.zero_le _
      · have hfield := hp.minWords_le
        have hrest := ih hq
        rw [leastWordCount_cons_of_pinned hnil, List.flatMap_append, List.length_append]
        simp only [List.map_cons, List.map_nil, List.sum_cons, List.sum_nil] at hfield
        omega

/-- There is an instruction with these words and no more. -/
theorem exists_admits_least (hx : x.Idle) (l : Layout) :
    ∃ operands, l.Admits x operands ∧ (operands.flatMap (·.words)).length = l.leastWordCount := by
  induction l using Layout.cons_induction with
  | empty opcode tail => exact ⟨[], admits_nil_iff.mpr (by simp), rfl⟩
  | cons f l ih =>
    by_cases hnil : f.optional = true ∧ pinned l.fields = []
    · refine ⟨[], (admits_cons_nil_iff hnil.1).mpr (admits_nil_iff.mpr (pinned_eq_nil_iff.mp hnil.2)), ?_⟩
      rw [leastWordCount_cons_of_nil hnil.1 hnil.2]
      rfl
    · obtain ⟨operands, hos, hlength⟩ := ih
      refine ⟨f.kind.zeros :: operands, ?_, ?_⟩
      · exact admits_cons_iff.mpr (.inr ⟨_, operands, rfl, groups_zeros hx [f.kind], hos⟩)
      · rw [leastWordCount_cons_of_pinned hnil, List.flatMap_cons, List.length_append, hlength, Kind.zeros,
          List.length_replicate]

/-! ## Required fields -/

theorem minWordCount_cons (f : Field) (l : Layout) :
    (l.cons f).minWordCount = (if f.optional then 0 else f.kind.minWords) + l.minWordCount := by
  obtain ⟨k, optional⟩ := f
  cases optional <;> simp [minWordCount]

theorem minWordCount_le (l : Layout) : l.minWordCount ≤ l.leastWordCount := by
  induction l using Layout.cons_induction with
  | empty opcode tail => exact Nat.zero_le _
  | cons f l ih =>
    rw [minWordCount_cons]
    by_cases hnil : f.optional = true ∧ pinned l.fields = []
    · have hzero : l.leastWordCount = 0 := by simp [leastWordCount, hnil.2]
      rw [leastWordCount_cons_of_nil hnil.1 hnil.2, if_pos hnil.1]
      omega
    · rw [leastWordCount_cons_of_pinned hnil]
      split <;> omega

/-- The required fields are all that is there when only optional fields stand behind an optional one. -/
theorem minWordCount_eq_iff {l : Layout} :
    l.minWordCount = l.leastWordCount ↔ l.fields.Pairwise fun f g => f.optional → g.optional := by
  induction l using Layout.cons_induction with
  | empty opcode tail => exact iff_of_true rfl .nil
  | cons f l ih =>
    have hle := l.minWordCount_le
    have hpos := f.kind.minWords_pos
    rw [minWordCount_cons, fields_cons, List.pairwise_cons, ← ih]
    by_cases hoptional : f.optional = true
    · simp only [hoptional, if_true, forall_const, ← pinned_eq_nil_iff_forall]
      by_cases hnil : pinned l.fields = []
      · have hzero : l.leastWordCount = 0 := by simp [leastWordCount, hnil]
        rw [leastWordCount_cons_of_nil hoptional hnil]
        exact iff_of_true (by omega) ⟨hnil, by omega⟩
      · -- the optional field is there, and no required field accounts for its words
        rw [leastWordCount_cons_of_pinned fun h => hnil h.2]
        exact iff_of_false (by omega) fun h => hnil h.1
    · rw [leastWordCount_cons_of_pinned fun h => hoptional h.1]
      simp [hoptional]

theorem leastWordCount_le_of_decode {l : Layout} {words : List Word} {operands : List Operand}
    (h : l.decode x words = .ok operands) : l.leastWordCount ≤ words.length := by
  obtain ⟨rfl, hos⟩ := decode_eq_ok_iff.mp h
  exact hos.leastWordCount_le

theorem exists_decode_least (hx : x.Idle) (l : Layout) :
    ∃ words operands, l.decode x words = .ok operands ∧ words.length = l.leastWordCount := by
  obtain ⟨operands, hos, hlength⟩ := exists_admits_least hx l
  exact ⟨_, operands, decode_eq_ok_iff.mpr ⟨rfl, hos⟩, hlength⟩

/-- In the types of a layout an optional type stands in front of a required one where the fields do so. -/
theorem pairwise_types_iff {l : Layout} :
    (l.types.Pairwise fun s t => s.isOptional → t.isOptional) ↔ l.fields.Pairwise fun f g => f.optional → g.optional := by
  have hfield (f : Field) : (OperandType.operand f.slot).isOptional = f.optional := by
    obtain ⟨k, optional⟩ := f
    cases optional <;> rfl
  have htail : ∀ k ∈ l.tail, (OperandType.operand ⟨.repeated, k⟩).isOptional = true := fun _ _ => rfl
  rw [types, slots, List.map_append, List.map_map, List.pairwise_append, List.pairwise_map]
  simp only [Function.comp_apply, hfield]
  refine ⟨fun h => h.1, fun h => ⟨h, ?_, ?_⟩⟩
  · cases l.tail <;> simp
  · intro s _ t ht _
    obtain ⟨slot, hslot, rfl⟩ := List.mem_map.mp ht
    obtain ⟨k, hk, rfl⟩ := Option.map_eq_some_iff.mp (Option.mem_toList.mp hslot)
    exact htail k hk

end Layout

/-! ## Main results -/

/-- **The fewest words of an instruction.** No words that are fewer than those of the required fields are decoded. As few
words are decoded just when no optional field stands in front of a required one; in general the fewest are those of all
fields up to the last required one. -/
theorem least_word_count (g : Grammar) {opcode : UInt16} {types : List OperandType} {l : Layout}
    (hl : Layout.ofTypes opcode types = .ok l) :
    (∀ words operands, l.decode g.expand words = .ok operands → l.minWordCount ≤ words.length) ∧
    ((∃ words operands, l.decode g.expand words = .ok operands ∧ words.length = l.minWordCount) ↔
      types.Pairwise fun s t => s.isOptional → t.isOptional) ∧
    (∀ words operands, l.decode g.expand words = .ok operands → l.leastWordCount ≤ words.length) ∧
    ∃ words operands, l.decode g.expand words = .ok operands ∧ words.length = l.leastWordCount := by
  obtain ⟨-, rfl⟩ := Layout.ofTypes_eq_ok_iff.mp hl
  have hle := l.minWordCount_le
  have hleast := Layout.exists_decode_least g.idle_expand l
  refine ⟨?_, ?_, ?_, hleast⟩
  · intro words operands h
    exact Nat.le_trans hle (Layout.leastWordCount_le_of_decode h)
  · rw [Layout.pairwise_types_iff, ← Layout.minWordCount_eq_iff]
    refine ⟨?_, ?_⟩
    · intro h
      obtain ⟨words, operands, hdecode, hlength⟩ := h
      have hwords := Layout.leastWordCount_le_of_decode hdecode
      omega
    · intro heq
      rwa [heq]
  · intro words operands h
    exact Layout.leastWordCount_le_of_decode h

theorem least_word_count_sample :
    Layout.ofTypes 9 Sample.types = .ok Sample.layout ∧ Sample.layout.minWordCount = 1 ∧
      Sample.layout.leastWordCount = 2 ∧ ∃ words operands,
        Sample.layout.decode Grammar.core.expand words = .ok operands ∧ words.length = 2 := by
  have hl : Layout.ofTypes 9 Sample.types = .ok Sample.layout := rfl
  exact ⟨hl, rfl, rfl, (least_word_count Grammar.core hl).2.2.2⟩

namespace Sample

/-- an optional ID in front of a required one -/
def lateRequired : Layout := ⟨9, [⟨.id .reference, true⟩, ⟨.id .reference, false⟩], none⟩

end Sample

/-- **An optional field in front of a required one is always there.** A single word is taken for it, and then there is none
for the required field, whose word is the only one that is counted. -/
theorem minWordCount_not_reached :
    Layout.ofTypes 9 [.operand ⟨.optional, .id .reference⟩, .operand ⟨.required, .id .reference⟩] =
      .ok Sample.lateRequired ∧ Sample.lateRequired.minWordCount = 1 ∧
    (∀ w, Sample.lateRequired.decode Grammar.core.expand [w] = .error (.insufficientWords (.id .reference))) ∧
    ¬∃ words operands, Sample.lateRequired.decode Grammar.core.expand words = .ok operands ∧ words.length = 1 := by
  refine ⟨rfl, rfl, ?_, ?_⟩
  · intro w
    with_unfolding_all rfl
  · intro h
    obtain ⟨words, operands, hdecode, hlength⟩ := h
    have hleast : Sample.lateRequired.leastWordCount = 2 := rfl
    have hwords := Layout.leastWordCount_le_of_decode hdecode
    omega

end Spirv
