/-
The decoder accepts exactly the language of its layout. It is greedy: an optional field takes an operand whenever a word
is left, text ends at the first zero byte, and a repeated tail takes all that is left. `Layout.decode_eq_ok_iff` says that nothing
is lost by it: the words of any admitted operands are decoded, and as these operands.

- `Kind.takeWords_eq_ok_iff`: the words taken for an operand fit its shape, and any words that fit are taken.
- `Decoder.takeEach_eq_ok_iff`: the same for the groups of a list of kinds.
- `Decoder.walk`: the decoder as a walk that goes by the words left, and so `Decoder.run_eq_ok_iff` for a whole layout.

Main result:
- `decode_accepts_language`: decoding `words` gives `operands` if, and only if, the words are those of the operands and
  the operands fall into groups that fill the types of the layout.
-/
import Spirv.Grammar.Core
import Spirv.Proofs.Language

namespace Spirv

variable {x : Expansion}

/-! ## The words of one operand -/

namespace Kind

theorem fits_of_takeWords {k : Kind} {words taken rest : List Word} (h : k.takeWords words = .ok (taken, rest)) :
    k.shape.Fits taken := by
  unfold takeWords at h
  split at h
  · simp at h
  · split at h
    · rename_i n hshape
      simp only at h
      split at h
      · rename_i hlen
        obtain ⟨rfl, -⟩ := Prod.mk.inj (Except.ok.inj h)
        rw [hshape]
        exact hlen
      · simp at h
    · rename_i hshape
      split at h
      · simp at h
      · rename_i hdrop
        obtain ⟨rfl, -⟩ := Prod.mk.inj (Except.ok.inj h)
        rw [hshape]
        exact fits_of_dropWhile hdrop

theorem takeWords_of_fits {k : Kind} {taken : List Word} (h : k.shape.Fits taken) (rest : List Word) :
    k.takeWords (taken ++ rest) = .ok (taken, rest) := by
  have hne : (taken ++ rest).isEmpty = false := by simp [ne_nil_of_fits h]
  rw [takeWords, if_neg (by simp [hne])]
  cases hshape : k.shape with
  | fixed n =>
    rw [hshape] at h
    have hlen : taken.length = n := h
    simp [← hlen]
  | terminated =>
    rw [hshape] at h
    obtain ⟨init, last, rfl, hlast, hinit⟩ := h
    obtain ⟨htake, hdrop⟩ := takeWhile_of_terminated hlast hinit rest
    simp only [List.append_assoc, List.singleton_append, htake, hdrop]

theorem takeWords_eq_ok_iff {k : Kind} {words taken rest : List Word} :
    k.takeWords words = .ok (taken, rest) ↔ k.shape.Fits taken ∧ words = taken ++ rest := by
  refine ⟨fun h => ⟨fits_of_takeWords h, (takeWords_append h).1⟩, ?_⟩
  intro hos
  obtain ⟨h, rfl⟩ := hos
  exact takeWords_of_fits h rest

end Kind

namespace Decoder

/-! ## What a decoder has read -/

/-- on its way from `d` to `d'` a decoder has read these operands -/
structure Reads (d : Decoder) (operands : List Operand) (d' : Decoder) : Prop where
  rest : d.rest = operands.flatMap (·.words) ++ d'.rest
  operands : d'.operands = d.operands ++ operands

theorem reads_nil_iff {d d' : Decoder} : d.Reads [] d' ↔ d = d' := by
  obtain ⟨rest, done⟩ := d
  obtain ⟨rest', done'⟩ := d'
  refine ⟨?_, ?_⟩
  · intro h
    obtain ⟨hrest, hdone⟩ := h
    simp only [List.flatMap_nil, List.nil_append, Array.appendList_nil] at hrest hdone
    rw [hrest, hdone]
  · intro h
    cases h
    exact ⟨by simp, by simp⟩

theorem reads_cons_iff {d d' : Decoder} {o : Operand} {os : List Operand} :
    d.Reads (o :: os) d' ↔ ∃ rest, d.rest = o.words ++ rest ∧ Reads ⟨rest, d.operands.push o⟩ os d' := by
  refine ⟨?_, ?_⟩
  · intro h
    obtain ⟨hrest, hdone⟩ := h
    rw [List.flatMap_cons, List.append_assoc] at hrest
    exact ⟨_, hrest, rfl, by rw [hdone, Array.appendList_cons]⟩
  · intro h
    obtain ⟨rest, hrest, hrest', hdone⟩ := h
    simp only at hrest'
    refine ⟨?_, by rw [hdone, Array.appendList_cons]⟩
    rw [hrest, hrest', List.flatMap_cons, List.append_assoc]

theorem reads_append_iff {d d' : Decoder} {p q : List Operand} :
    d.Reads (p ++ q) d' ↔ ∃ m, d.Reads p m ∧ m.Reads q d' := by
  induction p generalizing d with
  | nil => simp [reads_nil_iff]
  | cons o p ih =>
    simp only [List.cons_append, reads_cons_iff, ih]
    refine ⟨?_, ?_⟩
    · intro h
      obtain ⟨rest, hrest, m, hp, hq⟩ := h
      exact ⟨m, ⟨rest, hrest, hp⟩, hq⟩
    · intro h
      obtain ⟨m, ⟨rest, hrest, hp⟩, hq⟩ := h
      exact ⟨rest, hrest, m, hp, hq⟩

theorem Reads.no_words {d d' : Decoder} {os : List Operand} (h : d.Reads os d') (hrest : d.rest = []) :
    os.flatMap (·.words) = [] := by
  have hwords := h.rest
  rw [hrest] at hwords
  exact (List.append_eq_nil_iff.mp hwords.symm).1

/-! ## Groups -/

theorem takeEach_cons_eq_ok_iff {k : Kind} {ks : List Kind} {d d' : Decoder} :
    takeEach x (k :: ks) d = .ok d' ↔ ∃ words rest, k.shape.Fits words ∧ d.rest = words ++ rest ∧
      takeEach x (k.follow x words ++ ks) ⟨rest, d.operands.push ⟨k.type, words⟩⟩ = .ok d' := by
  rw [takeEach]
  refine ⟨?_, ?_⟩
  · intro h
    split at h
    · simp at h
    · rename_i words rest hwords
      obtain ⟨hfits, hrest⟩ := Kind.takeWords_eq_ok_iff.mp hwords
      exact ⟨words, rest, hfits, hrest, h⟩
  · intro h
    obtain ⟨words, rest, hfits, hrest, h⟩ := h
    have hwords := Kind.takeWords_eq_ok_iff.mpr ⟨hfits, hrest⟩
    split
    · rename_i hwords'
      simp [hwords] at hwords'
    · rename_i hwords'
      obtain ⟨rfl, rfl⟩ := Prod.mk.inj (Except.ok.inj (hwords.symm.trans hwords'))
      exact h

/-- Taking one operand of each kind reads the groups of these kinds, and reads any that are there. -/
theorem takeEach_eq_ok_iff {ks : List Kind} {d d' : Decoder} :
    takeEach x ks d = .ok d' ↔ ∃ os, Groups x ks os ∧ d.Reads os d' := by
  -- each operand takes words, so the induction is on how many are left
  induction hn : d.rest.length using Nat.strongRecOn generalizing ks d with
  | ind n ih =>
    cases ks with
    | nil => simp [takeEach, groups_nil_iff, reads_nil_iff]
    | cons k ks =>
      have hlt : ∀ {words rest}, k.shape.Fits words → d.rest = words ++ rest → rest.length < n := by
        intro words rest hfits hrest
        have := List.length_pos_iff.mpr (Kind.ne_nil_of_fits hfits)
        rw [← hn, hrest, List.length_append]
        omega
      rw [takeEach_cons_eq_ok_iff]
      refine ⟨?_, ?_⟩
      · intro h
        obtain ⟨words, rest, hfits, hrest, h⟩ := h
        obtain ⟨os, hos, hreads⟩ := (ih _ (hlt hfits hrest) rfl).mp h
        exact ⟨⟨k.type, words⟩ :: os, groups_cons_iff.mpr ⟨words, os, rfl, hfits, hos⟩,
          reads_cons_iff.mpr ⟨rest, hrest, hreads⟩⟩
      · intro h
        obtain ⟨os, hos, hreads⟩ := h
        obtain ⟨words, os, rfl, hfits, hos⟩ := groups_cons_iff.mp hos
        obtain ⟨rest, hrest, hreads⟩ := reads_cons_iff.mp hreads
        exact ⟨words, rest, hfits, hrest, (ih _ (hlt hfits hrest) rfl).mpr ⟨os, hos, hreads⟩⟩

theorem take_eq_ok_iff {k : Kind} {d d' : Decoder} : take x k d = .ok d' ↔ ∃ os, Groups x [k] os ∧ d.Reads os d' :=
  takeEach_eq_ok_iff

theorem takeRepeated_of_more {k : Kind} {d : Decoder} (h : d.rest ≠ []) :
    takeRepeated x k d = take x k d >>= takeRepeated x k := by
  rw [takeRepeated, if_neg (by simpa using h)]
  split
  · rename_i htake
    rw [htake]
    rfl
  · rename_i htake
    exact (congrArg (· >>= takeRepeated x k) htake).symm

theorem takeRepeated_of_end {k : Kind} {d : Decoder} (h : d.rest = []) : takeRepeated x k d = .ok d := by
  rw [takeRepeated, if_pos (by simpa using h)]

theorem takeRepeated_eq_ok_iff {k : Kind} {d d' : Decoder} (h : d.rest ≠ []) :
    takeRepeated x k d = .ok d' ↔ ∃ m, take x k d = .ok m ∧ takeRepeated x k m = .ok d' := by
  rw [takeRepeated_of_more h, bind_eq_ok_iff]

/-! ## Whole layouts -/

theorem run_eq_bind (l : Layout) (d : Decoder) :
    run x l d = takeFields x l.fields d >>= run x ⟨l.opcode, [], l.tail⟩ := rfl

theorem takeFields_cons (f : Field) (fs : List Field) (d : Decoder) : takeFields x (f :: fs) d =
    if f.optional && d.rest.isEmpty then takeFields x fs d else take x f.kind d >>= takeFields x fs := by
  rw [takeFields]
  cases take x f.kind d <;> rfl

theorem run_bare (opcode : UInt16) (d : Decoder) : run x ⟨opcode, [], none⟩ d =
    if d.rest.isEmpty then .ok d else .error ⟨.excessWords d.rest.length, d⟩ := rfl

theorem run_bare_of_end {opcode : UInt16} {d : Decoder} (h : d.rest = []) : run x ⟨opcode, [], none⟩ d = .ok d := by
  rw [run_bare, if_pos (by simp [h])]

theorem run_bare_of_more {opcode : UInt16} {d : Decoder} (h : d.rest ≠ []) :
    run x ⟨opcode, [], none⟩ d = .error ⟨.excessWords d.rest.length, d⟩ := by
  rw [run_bare, if_neg (by simpa using h)]

theorem run_bare_eq_ok_iff {opcode : UInt16} {d d' : Decoder} :
    run x ⟨opcode, [], none⟩ d = .ok d' ↔ d = d' ∧ d'.rest = [] := by
  by_cases hrest : d.rest = []
  · rw [run_bare_of_end hrest]
    refine ⟨?_, ?_⟩
    · intro h
      obtain rfl := Except.ok.inj h
      exact ⟨rfl, hrest⟩
    · intro h
      rw [h.1]
  · rw [run_bare_of_more hrest]
    refine ⟨fun h => ?_, fun h => ?_⟩
    · cases h
    · rw [h.1] at hrest
      exact absurd h.2 hrest

theorem run_tail (opcode : UInt16) (k : Kind) (d : Decoder) :
    run x ⟨opcode, [], some k⟩ d = takeRepeated x k d >>= run x ⟨opcode, [], none⟩ := rfl

theorem run_tail_eq_ok_iff {opcode : UInt16} {k : Kind} {d d' : Decoder} :
    run x ⟨opcode, [], some k⟩ d = .ok d' ↔ takeRepeated x k d = .ok d' ∧ d'.rest = [] := by
  simp only [run_tail, bind_eq_ok_iff, run_bare_eq_ok_iff]
  refine ⟨?_, ?_⟩
  · intro h
    obtain ⟨m, h, rfl, hrest⟩ := h
    exact ⟨h, hrest⟩
  · intro h
    exact ⟨d', h.1, rfl, h.2⟩

theorem run_cons_of_left_out {f : Field} {l : Layout} {d : Decoder} (hoptional : f.optional = true)
    (hrest : d.rest = []) : run x (l.cons f) d = run x l d := by
  rw [run_eq_bind, Layout.fields_cons, takeFields_cons, if_pos (by simp [hoptional, hrest])]
  rfl

theorem run_cons_of_given {f : Field} {l : Layout} {d : Decoder} (h : ¬(f.optional = true ∧ d.rest = [])) :
    run x (l.cons f) d = take x f.kind d >>= run x l := by
  rw [run_eq_bind, Layout.fields_cons, takeFields_cons, if_neg (by simpa using h), bind_assoc]
  rfl

theorem run_cons_eq_ok_iff {f : Field} {l : Layout} {d d' : Decoder} (h : ¬(f.optional = true ∧ d.rest = [])) :
    run x (l.cons f) d = .ok d' ↔ ∃ m, take x f.kind d = .ok m ∧ run x l m = .ok d' := by
  rw [run_cons_of_given h, bind_eq_ok_iff]

/-- a decoder goes by the words left -/
def walk (x : Expansion) : Walk x Decoder DecodeStop where
  one := take x
  many := takeRepeated x
  run := run x
  Passes := Reads
  More _ d := d.rest ≠ []
  Done d := d.rest = []
  size d := d.rest.length
  passes_nil_iff := reads_nil_iff
  passes_append_iff := reads_append_iff
  no_words_of_done hrest h := h.no_words hrest
  one_eq_ok_iff := take_eq_ok_iff
  one_lt := take_lt
  more_of_one h := List.length_pos_iff.mp (Nat.zero_lt_of_lt (take_lt h))
  not_more_of_done hrest := not_not_intro hrest
  many_of_more := takeRepeated_eq_ok_iff
  many_of_not_more h := takeRepeated_of_end (by simpa using h)
  run_bare := run_bare_eq_ok_iff
  run_tail := run_tail_eq_ok_iff
  run_left_out hoptional hrest _ := by rw [run_cons_of_left_out hoptional hrest]
  run_cons := run_cons_eq_ok_iff

theorem run_eq_ok_iff {l : Layout} {d d' : Decoder} :
    run x l d = .ok d' ↔ d'.rest = [] ∧ ∃ os, l.Admits x os ∧ d.Reads os d' :=
  (walk x).run_eq_ok_iff

end Decoder

/-! ## Main result -/

/-- decoding an instruction gives the admitted operands whose words its words are -/
theorem Layout.decode_eq_ok_iff {l : Layout} {words : List Word} {operands : List Operand} :
    l.decode x words = .ok operands ↔ words = operands.flatMap (·.words) ∧ l.Admits x operands := by
  unfold decode
  refine ⟨fun h => ?_, fun h => ?_⟩
  · split at h
    · rename_i d hrun
      obtain ⟨hrest, os, hos, hwords, hdone⟩ := Decoder.run_eq_ok_iff.mp hrun
      obtain rfl := Except.ok.inj h
      simp only [hrest, List.append_nil] at hwords
      simp only [hdone, Array.toList_appendList, List.nil_append]
      exact ⟨hwords, hos⟩
    · simp at h
  · obtain ⟨hwords, hos⟩ := h
    have hreads : Decoder.Reads ⟨words, #[]⟩ operands ⟨[], #[] ++ operands⟩ := ⟨by simp [hwords], rfl⟩
    rw [Decoder.run_eq_ok_iff.mpr ⟨rfl, operands, hos, hreads⟩]
    simp

/-- **The decoder accepts exactly the language of the layout.** For types that are a layout, decoding `words` gives
`operands` if, and only if, the words are those of the operands and the operands fall into groups that follow the types
in order. -/
theorem decode_accepts_language {opcode : UInt16} {types : List OperandType} {l : Layout}
    (hl : Layout.ofTypes opcode types = .ok l) (words : List Word) (operands : List Operand) :
    l.decode x words = .ok operands ↔ words = operands.flatMap (·.words) ∧
      ∃ kinds, Fills types kinds ∧ Groups x kinds operands := by
  obtain ⟨-, rfl⟩ := Layout.ofTypes_eq_ok_iff.mp hl
  exact Layout.decode_eq_ok_iff

/-! ## Witness -/

namespace Sample

/-- an optional number before a required text, a mask, and pairs at the end -/
def types : List OperandType :=
  [.operand ⟨.optional, .literal .integer⟩, .operand ⟨.required, .string⟩, .operand ⟨.optional, .mask .memoryAccess⟩,
   .operand ⟨.repeated, .pair .idId⟩]

def layout : Layout :=
  ⟨9, [⟨.literal .integer, true⟩, ⟨.string, false⟩, ⟨.mask .memoryAccess, true⟩], some (.pair .idId)⟩

/-- the mask has the bits 0, 1 and 3, of which bit 1 asks for a number and bit 3 for a scope -/
def operands : List Operand :=
  [⟨Kind.type (.literal .integer), [7]⟩, ⟨Kind.string.type, [0x64636261, 0]⟩, ⟨Kind.type (.mask .memoryAccess), [0xb]⟩,
   ⟨Kind.type (.literal .integer), [16]⟩, ⟨Kind.type (.id .scope), [4]⟩, ⟨Kind.type (.pair .idId), [1, 2]⟩]

def words : List Word := [7, 0x64636261, 0, 0xb, 16, 4, 1, 2]

end Sample

theorem decode_accepts_language_sample :
    Layout.ofTypes 9 Sample.types = .ok Sample.layout ∧ Sample.words = Sample.operands.flatMap (·.words) ∧
      ∃ kinds, Fills Sample.types kinds ∧ Groups Grammar.core.expand kinds Sample.operands := by
  have hl : Layout.ofTypes 9 Sample.types = .ok Sample.layout := rfl
  have hdecode : Sample.layout.decode Grammar.core.expand Sample.words = .ok Sample.operands := by
    with_unfolding_all rfl
  exact ⟨hl, (decode_accepts_language hl _ _).mp hdecode⟩

end Spirv
