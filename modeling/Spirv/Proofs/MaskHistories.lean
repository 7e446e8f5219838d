/-
Mask tables that are built one definition at a time. What a table knows of a bit is the last definition that the bit was
given; the order in which bits were defined is not seen in it. A word asks for what its set bits were last defined with,
lowest bit first, and a bit that was never defined asks for nothing and goes to the rest without names. So a word can be
taken apart: the rest can be left out, and the low bits can be asked before the high ones.

- `MaskTable.bit?_ofList`: what is known of a bit.
- `MaskTable.implied_eq`, `MaskTable.unnamed_ofList`: what a word asks for, and its rest, bit by bit.
- `MaskTable.implied_congr`: bits without a definition do not count.
- `MaskTable.implied_or`: low bits and high bits.

Main result:
- `MaskTable.table_of_definitions`: a table after any definitions.
-/
import Mathlib.Data.List.Induction
import Spirv.Proofs.MaskTexts

namespace Spirv

namespace Word

theorem testBit_and_not {v w : Word} {i : BitIndex} :
    (v &&& ~~~w).toNat.testBit i.val ↔ v.toNat.testBit i.val ∧ ¬w.toNat.testBit i.val := by
  have hnot : (~~~w).toNat = 2 ^ 32 - (w.toNat + 1) := by
    rw [UInt32.toNat_not, UInt32.size]
    omega
  rw [UInt32.toNat_and, Nat.testBit_and, hnot, Nat.testBit_two_pow_sub_succ w.toNat_lt]
  simp

/-- The set bits of two words, when those of the one are all below those of the other. -/
theorem setBits_or {u v : Word} (h : ∀ i ∈ u.setBits, ∀ j ∈ v.setBits, i < j) :
    (u ||| v).setBits = u.setBits ++ v.setBits := by
  refine (eq_setBits ?_ ?_).symm
  · exact List.pairwise_append.mpr ⟨u.pairwise_setBits, v.pairwise_setBits, h⟩
  · intro i
    rw [List.mem_append, mem_setBits_iff, mem_setBits_iff, UInt32.toNat_or, Nat.testBit_or, Bool.or_eq_true]

end Word

namespace MaskTable

variable {α : Type} {t : MaskTable α}

/-! ## What a word asks for -/

theorem implied_eq (t : MaskTable α) (w : Word) : t.implied w = (List.finRange 32).flatMap fun i =>
    if w.toNat.testBit i.val then ((t.bit? i).map (·.params)).getD [] else [] := by
  rw [implied, Word.setBits_eq_filter, List.filterMap_filter, List.filterMap_eq_flatMap_toList, List.flatMap_assoc]
  apply List.flatMap_congr
  intro i _
  cases w.toNat.testBit i.val <;> cases t.bit? i <;> simp

/-- Words with the same defined bits ask for the same. -/
theorem implied_congr {v w : Word}
    (h : ∀ i known, t.bit? i = some known → (v.toNat.testBit i.val ↔ w.toNat.testBit i.val)) :
    t.implied v = t.implied w := by
  rw [implied_eq, implied_eq]
  apply List.flatMap_congr
  intro i _
  cases hi : t.bit? i with
  | none => simp
  | some known => rw [Bool.eq_iff_iff.mpr (h i known hi)]

/-- The bits without a name ask for nothing. -/
theorem implied_and_not_unnamed (t : MaskTable α) (w : Word) : t.implied (w &&& ~~~t.unnamed w) = t.implied w := by
  apply implied_congr
  intro i known hi
  rw [Word.testBit_and_not, testBit_unnamed, hi]
  simp

/-- What the low bits ask for comes before what the high bits ask for. -/
theorem implied_or {u v : Word} (h : ∀ i ∈ u.setBits, ∀ j ∈ v.setBits, i < j) :
    t.implied (u ||| v) = t.implied u ++ t.implied v := by
  rw [implied, Word.setBits_or h, List.filterMap_append, List.flatMap_append]
  rfl

/-! ## Definitions one after the other -/

/-- the last of the definitions that a bit was given -/
def lastDefined? (history : List (BitIndex × BitDef α)) (i : BitIndex) : Option (BitDef α) := history.reverse.lookup i

variable {emptyName : String} {history : List (BitIndex × BitDef α)}

theorem lastDefined?_concat (i j : BitIndex) (d : BitDef α) :
    lastDefined? (history ++ [(i, d)]) j = if i = j then some d else lastDefined? history j := by
  rw [lastDefined?, List.reverse_append, List.reverse_singleton, List.singleton_append, List.lookup_cons]
  by_cases hij : i = j
  · rw [if_pos hij, hij, beq_self_eq_true]
  · rw [if_neg hij, beq_eq_false_iff_ne.mpr (Ne.symm hij), lastDefined?]

theorem ofList_concat (i : BitIndex) (d : BitDef α) :
    ofList emptyName (history ++ [(i, d)]) = (ofList emptyName history).define i d := by
  rw [ofList, List.foldl_append]
  rfl

/-- **The last definition of a bit is the one that is known.** -/
theorem bit?_ofList (i : BitIndex) : (ofList emptyName history).bit? i = lastDefined? history i := by
  induction history using List.reverseRecOn with
  | nil => exact bit?_empty emptyName i
  | append_singleton history e ih => rw [ofList_concat, bit?_define, lastDefined?_concat, ih]

theorem bit?_ofList_eq_none_iff {i : BitIndex} :
    (ofList emptyName history).bit? i = none ↔ i ∉ history.map (·.1) := by
  rw [bit?_ofList, lastDefined?, List.lookup_eq_none_iff, List.mem_map]
  refine ⟨?_, ?_⟩
  · rintro h ⟨e, he, rfl⟩
    simpa using h e (List.mem_reverse.mpr he)
  · intro h e he
    rw [bne_iff_ne]
    rintro rfl
    exact h ⟨e, List.mem_reverse.mp he, rfl⟩

/-- The bits without a name are those that were never defined. -/
theorem unnamed_ofList (w : Word) : (ofList emptyName history).unnamed w =
    w &&& ~~~((history.map (·.1)).foldl (fun u i => u ||| i.toMask) 0) := by
  apply Word.eq_of_testBit_eq
  intro i
  rw [testBit_unnamed, bit?_ofList_eq_none_iff, Word.testBit_and_not, BitIndex.testBit_foldl_or]
  simp

/-! ## Main result -/

/-- **A mask table after any definitions.** Another definition replaces the last one that its bit was given, which is handed
back, and changes no other bit. A word asks for what each of its set bits, in ascending order, was last defined with;
its rest is what is left without all the bits that were defined. The rest asks for nothing, and a word whose bits
are below those of another word asks first. -/
theorem table_of_definitions (emptyName : String) (history : List (BitIndex × BitDef α)) :
    (∀ i d, (ofList emptyName history).redefine i d =
      (lastDefined? history i, ofList emptyName (history ++ [(i, d)]))) ∧
    (∀ i d j, ((ofList emptyName history).redefine i d).2.bit? j =
      if j = i then some d else (ofList emptyName history).bit? j) ∧
    (∀ w, (ofList emptyName history).implied w = (List.finRange 32).flatMap fun i =>
      if w.toNat.testBit i.val then ((lastDefined? history i).map (·.params)).getD [] else []) ∧
    (∀ w, (ofList emptyName history).unnamed w =
      w &&& ~~~((history.map (·.1)).foldl (fun u i => u ||| i.toMask) 0)) ∧
    (∀ w, (ofList emptyName history).implied w =
      (ofList emptyName history).implied (w &&& ~~~(ofList emptyName history).unnamed w)) ∧
    ∀ u v : Word, (∀ i j : BitIndex, u.toNat.testBit i.val → v.toNat.testBit j.val → i < j) →
      (ofList emptyName history).implied (u ||| v) =
        (ofList emptyName history).implied u ++ (ofList emptyName history).implied v := by
  refine ⟨?_, ?_, ?_, unnamed_ofList, ?_, ?_⟩
  · intro i d
    rw [redefine, bit?_ofList, ofList_concat]
  · intro i d j
    rw [redefine, bit?_define]
    simp [eq_comm]
  · intro w
    rw [implied_eq]
    simp only [bit?_ofList]
  · intro w
    exact (implied_and_not_unnamed _ w).symm
  · intro u v h
    apply implied_or
    intro i hi j hj
    exact h i j (Word.mem_setBits_iff.mp hi) (Word.mem_setBits_iff.mp hj)

namespace Sample

/-- the highest bit before the lowest, which is then defined again -/
def definitions : List (BitIndex × BitDef Kind) :=
  [(31, ⟨"High", [.id .scope]⟩), (0, ⟨"Low", [.literal .integer]⟩), (0, ⟨"Lower", [.literal .float, .string]⟩)]

end Sample

/-- The last definition counts, bit 0 asks before bit 31, and bit 4 asks for nothing. -/
theorem table_of_definitions_sample :
    ((ofList "None" Sample.definitions).redefine 0 ⟨"Lowest", []⟩).1 = some ⟨"Lower", [.literal .float, .string]⟩ ∧
    (ofList "None" Sample.definitions).unnamed 0x80000011 = 0x10 ∧
    (ofList "None" Sample.definitions).implied (0x11 ||| 0x80000000) =
      (ofList "None" Sample.definitions).implied 0x11 ++ (ofList "None" Sample.definitions).implied 0x80000000 ∧
    (ofList "None" Sample.definitions).implied 0x80000011 = [.literal .float, .string, .id .scope] := by
  obtain ⟨hredefine, -, himplied, hunnamed, -, hor⟩ := table_of_definitions "None" Sample.definitions
  refine ⟨?_, ?_, ?_, ?_⟩
  · rw [hredefine]
    rfl
  · rw [hunnamed]
    decide
  · exact hor 0x11 0x80000000 (by decide)
  · rw [himplied]
    decide

end MaskTable

end Spirv
