/-
The text of an operand shows its words, and where it ends. A word is written as one token, without a blank in it, and two
words as two tokens. Text is quoted, or written as a row between brackets. For this the names in the grammar must differ
from each other and from numbers (`Grammar.Legible`), and no literal may be a float, as not every float has a text of its
own.

- `WritesTokens.append_inj`: a token, and what follows it.
- `Grammar.wordText_cases`: all the ways to write a word.
- `Grammar.Legible.writesTokens_wordText`: words of every kind are written as tokens.
- `Grammar.core_legible`: the names of the core grammar.

Main result:
- `Grammar.Legible.operandText_append_inj`: an operand, whatever follows it.
-/
import Spirv.Grammar.Core
import Spirv.Proofs.MaskTexts
import Spirv.Proofs.PackedText

namespace Spirv

/-! ## Tokens -/

/-- Words are written without blanks, and no two of them alike. -/
structure WritesTokens (f : Word → String) : Prop where
  no_blank : ∀ w, ' ' ∉ (f w).toList
  injective : ∀ {v w}, f v = f w → v = w

/-- A token ends at the first blank. -/
theorem WritesTokens.append_inj {f : Word → String} (h : WritesTokens f) {v w : Word} {s t : List Char}
    (hs : StopsAt ' ' s) (ht : StopsAt ' ' t) (htext : (f v).toList ++ s = (f w).toList ++ t) : v = w ∧ s = t := by
  obtain ⟨htoken, hst⟩ := append_inj_of_stopsAt (h.no_blank v) (h.no_blank w) hs ht htext
  exact ⟨h.injective (String.toList_inj.mp htoken), hst⟩

theorem isDigit_of_mem_repr {n : Nat} {c : Char} (h : c ∈ n.repr.toList) : c.isDigit := by
  rw [Nat.toList_repr] at h
  exact Nat.isDigit_of_mem_toDigits (by decide) (by decide) h

theorem not_mem_repr {c : Char} (hc : ¬c.isDigit) (n : Nat) : c ∉ n.repr.toList := fun h => hc (isDigit_of_mem_repr h)

theorem not_mem_percent_repr {c : Char} (hc : ¬c.isDigit) (hpercent : c ≠ '%') (n : Nat) : c ∉ ("%" ++ n.repr).toList := by
  rw [String.toList_append, List.mem_append]
  rintro (hmem | hmem)
  · exact hpercent (List.mem_singleton.mp hmem)
  · exact not_mem_repr hc n hmem

theorem writesTokens_decimal : WritesTokens fun w => w.toNat.repr where
  no_blank w := not_mem_repr (by decide) w.toNat
  injective {v w} h := by
    rw [← String.toList_inj, Nat.toList_repr, Nat.toList_repr] at h
    exact UInt32.toNat_inj.mp (Numeral.toDigits_inj (by decide) (by decide) v.toNat_lt w.toNat_lt h)

theorem writesTokens_id : WritesTokens fun w => "%" ++ w.toNat.repr where
  no_blank w := not_mem_percent_repr (by decide) (by decide) w.toNat
  injective h := by
    rw [← String.toList_inj, String.toList_append, String.toList_append] at h
    exact writesTokens_decimal.injective (String.toList_inj.mp (List.append_cancel_left h))

theorem writesTokens_number : WritesTokens MaskTable.number where
  no_blank := MaskTable.not_mem_number (by decide)
  injective := MaskTable.number_inj.mp

theorem MaskTable.Legible.writesTokens {α : Type} {t : MaskTable α} (h : t.Legible) : WritesTokens t.text where
  no_blank := MaskTable.not_mem_text (by decide) (by decide) fun s hs => (h.plain s hs).2.2.1
  injective := h.text_inj

/-! ## Names of values -/

/-- The names differ, have no blank in them, and are no numbers. -/
structure LegibleValues (values : Table Word String) : Prop where
  distinct : (values.entries.map (·.2)).Nodup
  plain : ∀ e ∈ values.entries, ' ' ∉ e.2.toList ∧ ¬e.2.toList.all Char.isDigit

/-- a value by its name, if it has one -/
def valueText (values : Table Word String) (w : Word) : String := (values.get? w).getD w.toNat.repr

theorem not_mem_valueText {values : Table Word String} {c : Char} (hc : ¬c.isDigit)
    (hnames : ∀ e ∈ values.entries, c ∉ e.2.toList) (w : Word) : c ∉ (valueText values w).toList := by
  unfold valueText
  cases hname : values.get? w with
  | none => exact not_mem_repr hc w.toNat
  | some name => exact hnames _ (Table.get?_eq_some_iff.mp hname)

theorem LegibleValues.name_ne_repr {values : Table Word String} (h : LegibleValues values) {w : Word} {name : String}
    (hname : values.get? w = some name) (n : Nat) : name ≠ n.repr := by
  rintro rfl
  have hdigits : n.repr.toList.all Char.isDigit := List.all_eq_true.mpr fun c hc => isDigit_of_mem_repr hc
  exact (h.plain _ (Table.get?_eq_some_iff.mp hname)).2 hdigits

theorem LegibleValues.writesTokens {values : Table Word String} (h : LegibleValues values) :
    WritesTokens (valueText values) where
  no_blank := not_mem_valueText (by decide) fun e he => (h.plain e he).1
  injective {v w} heq := by
    unfold valueText at heq
    cases hv : values.get? v with
    | none =>
      cases hw : values.get? w with
      | none =>
        rw [hv, hw] at heq
        exact writesTokens_decimal.injective heq
      | some name =>
        rw [hv, hw] at heq
        exact absurd heq.symm (h.name_ne_repr hw _)
    | some name =>
      cases hw : values.get? w with
      | none =>
        rw [hv, hw] at heq
        exact absurd heq (h.name_ne_repr hv _)
      | some name' =>
        rw [hv, hw] at heq
        have hentry := List.inj_on_of_nodup_map h.distinct (Table.get?_eq_some_iff.mp hv) (Table.get?_eq_some_iff.mp hw) heq
        exact congrArg Prod.fst hentry

/-! ## Legible grammars -/

/-- not every float has a text of its own, but everything else has -/
def Kind.Legible (k : Kind) : Prop := k ≠ .literal .float

instance (k : Kind) : Decidable k.Legible := inferInstanceAs (Decidable (k ≠ .literal .float))

theorem Kind.exists_of_pair_fits {p : PairKind} {words : List Word} (h : (Kind.pair p).shape.Fits words) :
    ∃ a b, words = [a, b] := by
  have hlength : words.length = 2 := h
  obtain ⟨a, rest, rfl⟩ := List.exists_cons_of_length_eq_add_one hlength
  obtain ⟨b, rfl⟩ := List.length_eq_one_iff.mp (Nat.succ.inj hlength)
  exact ⟨a, b, rfl⟩

theorem PairKind.legible_halves (p : PairKind) : p.halves.1.Legible ∧ p.halves.2.Legible := by
  cases p <;> decide

namespace Grammar

/-- The names of the grammar can be told apart, and none of its operands is a float. -/
structure Legible (g : Grammar) : Prop where
  distinct : (g.instructions.entries.map (·.2.name)).Nodup
  plain : ∀ e ∈ g.instructions.entries, ' ' ∉ e.2.name.toList ∧ e.2.name.toList.head? ≠ some '%'
  types : ∀ e ∈ g.instructions.entries, ∀ type ∈ e.2.types, ∀ k ∈ type.kind?, k.Legible
  masks : ∀ e ∈ g.masks.entries, e.2.Legible
  params : ∀ e ∈ g.masks.entries, ∀ bit ∈ e.2.defined, ∀ k ∈ bit.2.params, k.Legible
  values : ∀ e ∈ g.enums.entries, LegibleValues e.2

theorem core_legible : core.Legible where
  distinct := Core.nodup_names
  plain := by decide +kernel
  types := by decide +kernel
  masks := by
    have hnames : ∀ e ∈ core.masks.entries, e.2.names.Nodup ∧ ∀ s ∈ e.2.names,
        s.toList ≠ [] ∧ s.toList.head? ≠ some '0' ∧ ' ' ∉ s.toList ∧ '|' ∉ s.toList := by decide +kernel
    intro e he
    exact ⟨(hnames e he).1, (hnames e he).2⟩
  params := by decide +kernel
  values := by
    have hnames : ∀ e ∈ core.enums.entries, (e.2.entries.map (·.2)).Nodup ∧ ∀ v ∈ e.2.entries,
        ' ' ∉ v.2.toList ∧ ¬v.2.toList.all Char.isDigit := by decide +kernel
    intro e he
    exact ⟨(hnames e he).1, (hnames e he).2⟩

variable {g : Grammar}

theorem wordText_enum (e : EnumKind) : g.wordText (Kind.enum e).type =
    match g.enums.get? e with
    | some values => valueText values
    | none => fun w => w.toNat.repr := by
  funext w
  have hvalues : g.values? (Kind.enum e).type = g.enums.get? e := rfl
  have htext : g.wordText (Kind.enum e).type w =
      ((g.values? (Kind.enum e).type).bind (·.get? w)).getD w.toNat.repr := rfl
  rw [htext, hvalues]
  cases g.enums.get? e with
  | none => rfl
  | some values => rfl

theorem wordText_mask (m : MaskKind) : g.wordText (Kind.mask m).type =
    match g.masks.get? m with
    | some table => table.text
    | none => MaskTable.number := by
  funext w
  have htable : g.maskTable? (Kind.mask m).type = g.masks.get? m := rfl
  have htext : g.wordText (Kind.mask m).type w =
      match g.maskTable? (Kind.mask m).type with
      | some table => table.text w
      | none => MaskTable.number w := rfl
  rw [htext, htable]
  cases g.masks.get? m with
  | none => rfl
  | some table => rfl

/-- What holds of each way to write a word holds of words of every kind but floats. -/
theorem wordText_cases {P : (Word → String) → Prop} (decimal : P fun w => w.toNat.repr)
    (id : P fun w => "%" ++ w.toNat.repr) (value : ∀ e ∈ g.enums.entries, P (valueText e.2))
    (mask : ∀ e ∈ g.masks.entries, P e.2.text) (number : P MaskTable.number) {k : Kind} (hk : k.Legible) :
    P (g.wordText k.type) := by
  cases k with
  | id => exact id
  | literal k =>
    cases k with
    | float => exact absurd rfl hk
    | integer => exact decimal
    | extendedInstruction => exact decimal
    | specConstantOp => exact decimal
  | string => exact decimal
  | enum e =>
    rw [wordText_enum]
    cases hvalues : g.enums.get? e with
    | none => exact decimal
    | some values => exact value _ (Table.get?_eq_some_iff.mp hvalues)
  | pair => exact decimal
  | mask m =>
    rw [wordText_mask]
    cases htable : g.masks.get? m with
    | none => exact number
    | some table => exact mask _ (Table.get?_eq_some_iff.mp htable)

/-- Words of every kind but floats are written as tokens. -/
theorem Legible.writesTokens_wordText (hg : g.Legible) {k : Kind} (hk : k.Legible) : WritesTokens (g.wordText k.type) :=
  wordText_cases writesTokens_decimal writesTokens_id (fun e he => (hg.values e he).writesTokens)
    (fun e he => (hg.masks e he).writesTokens) writesTokens_number hk

/-! ## Main result -/

theorem operandText_pair (p : PairKind) (a b : Word) : g.operandText ⟨(Kind.pair p).type, [a, b]⟩ =
    g.wordText p.halves.1.type a ++ " " ++ g.wordText p.halves.2.type b := rfl

theorem operandText_string (words : List Word) : g.operandText ⟨Kind.string.type, words⟩ =
    match Operand.text? ⟨Kind.string.type, words⟩ with
    | some s => Text.quoted s
    | none => Text.hexWords words := rfl

/-- The two words of a pair are two tokens. -/
theorem Legible.pair_append_inj (hg : g.Legible) {p : PairKind} {a b a' b' : Word} {s t : List Char}
    (hs : StopsAt ' ' s) (ht : StopsAt ' ' t)
    (h : (g.operandText ⟨(Kind.pair p).type, [a, b]⟩).toList ++ s =
      (g.operandText ⟨(Kind.pair p).type, [a', b']⟩).toList ++ t) : a = a' ∧ b = b' ∧ s = t := by
  obtain ⟨hfirst, hsecond⟩ := PairKind.legible_halves p
  have hblank (b : Word) (s : List Char) : StopsAt ' ' (" ".toList ++ ((g.wordText p.halves.2.type b).toList ++ s)) :=
    stopsAt_cons ' ' _
  simp only [operandText_pair, String.toList_append, List.append_assoc] at h
  obtain ⟨rfl, hrest⟩ := (hg.writesTokens_wordText hfirst).append_inj (hblank b s) (hblank b' t) h
  obtain ⟨rfl, hst⟩ := (hg.writesTokens_wordText hsecond).append_inj hs ht (List.append_cancel_left hrest)
  exact ⟨rfl, rfl, hst⟩

/-- Text in quotes and a row in brackets begin differently. -/
theorem string_append_inj {us vs : List Word} (hus : Kind.string.shape.Fits us) (hvs : Kind.string.shape.Fits vs)
    (hupad : Operand.ZeroPadded ⟨Kind.string.type, us⟩) (hvpad : Operand.ZeroPadded ⟨Kind.string.type, vs⟩)
    {s t : List Char} (h : (g.operandText ⟨Kind.string.type, us⟩).toList ++ s =
      (g.operandText ⟨Kind.string.type, vs⟩).toList ++ t) : us = vs ∧ s = t := by
  rw [operandText_string, operandText_string] at h
  cases hu : Operand.text? ⟨Kind.string.type, us⟩ with
  | some u =>
    cases hv : Operand.text? ⟨Kind.string.type, vs⟩ with
    | some v =>
      rw [hu, hv] at h
      obtain ⟨rfl, hst⟩ := Text.quoted_append_inj h
      exact ⟨Operand.words_eq_of_text? hus hvs hupad hvpad hu hv, hst⟩
    | none =>
      rw [hu, hv, Text.toList_quoted, Text.toList_hexWords] at h
      exact absurd (List.cons.inj h).1 (by decide)
  | none =>
    cases hv : Operand.text? ⟨Kind.string.type, vs⟩ with
    | some v =>
      rw [hu, hv, Text.toList_quoted, Text.toList_hexWords] at h
      exact absurd (List.cons.inj h).1 (by decide)
    | none =>
      rw [hu, hv] at h
      exact Text.hexWords_append_inj h

/-- **The text of an operand shows its words**, and where it ends, if a blank or nothing follows it. -/
theorem Legible.operandText_append_inj (hg : g.Legible) {k : Kind} (hk : k.Legible) {us vs : List Word}
    (hus : k.shape.Fits us) (hvs : k.shape.Fits vs) (hupad : Operand.ZeroPadded ⟨k.type, us⟩)
    (hvpad : Operand.ZeroPadded ⟨k.type, vs⟩) {s t : List Char} (hs : StopsAt ' ' s) (ht : StopsAt ' ' t)
    (h : (g.operandText ⟨k.type, us⟩).toList ++ s = (g.operandText ⟨k.type, vs⟩).toList ++ t) : us = vs ∧ s = t := by
  have hone (hfixed : k.shape = .fixed 1) (htext : ∀ w, g.operandText ⟨k.type, [w]⟩ = g.wordText k.type w) :
      us = vs ∧ s = t := by
    rw [hfixed] at hus hvs
    obtain ⟨v, rfl⟩ := List.length_eq_one_iff.mp hus
    obtain ⟨w, rfl⟩ := List.length_eq_one_iff.mp hvs
    rw [htext, htext] at h
    obtain ⟨rfl, hst⟩ := (hg.writesTokens_wordText hk).append_inj hs ht h
    exact ⟨rfl, hst⟩
  cases k with
  | string => exact string_append_inj hus hvs hupad hvpad h
  | pair p =>
    obtain ⟨a, b, rfl⟩ := Kind.exists_of_pair_fits hus
    obtain ⟨a', b', rfl⟩ := Kind.exists_of_pair_fits hvs
    obtain ⟨rfl, rfl, hst⟩ := hg.pair_append_inj hs ht h
    exact ⟨rfl, hst⟩
  | id => exact hone rfl fun _ => rfl
  | literal => exact hone rfl fun _ => rfl
  | enum => exact hone rfl fun _ => rfl
  | mask => exact hone rfl fun _ => rfl

/-- Bytes behind the end of a text are not shown. -/
example : core.operandText ⟨Kind.string.type, [0x61]⟩ = core.operandText ⟨Kind.string.type, [0x01000061]⟩ := by
  decide +kernel

end Grammar

end Spirv
