/-
The text of an operand shows its words, also of an operand put together by hand, whose words need not fit its type. A single
word is one token whatever the type, two words of a pair are two tokens, and all other words are a row in brackets
(`Grammar.Written`). Which of these a text is can be seen from it: one token has no blank in it, two tokens have, and only a row
has a bracket, as long as there is none in the names of the grammar (`Grammar.Unbracketed`).

- `Grammar.Unbracketed.bracket_not_mem_wordText`: no token has a bracket in it.
- `Grammar.Legible.written_inj`: the three forms against each other.

Main result:
- `Grammar.core_operandText_eq_iff`: operands of one type, in the core grammar.
-/
import Spirv.Proofs.OperandTexts

namespace Spirv

namespace Grammar

/-- No name of a bit or a value has the bracket in it that a row begins with. -/
structure Unbracketed (g : Grammar) : Prop where
  masks : ∀ e ∈ g.masks.entries, ∀ s ∈ e.2.names, '[' ∉ s.toList
  values : ∀ e ∈ g.enums.entries, ∀ v ∈ e.2.entries, '[' ∉ v.2.toList

theorem core_unbracketed : core.Unbracketed where
  masks := by decide +kernel
  values := by decide +kernel

variable {g : Grammar}

theorem Unbracketed.bracket_not_mem_wordText (hb : g.Unbracketed) {k : Kind} (hk : k.Legible) (w : Word) :
    '[' ∉ (g.wordText k.type w).toList :=
  wordText_cases (P := fun f => ∀ w, '[' ∉ (f w).toList) (fun w => not_mem_repr (by decide) w.toNat)
    (fun w => not_mem_percent_repr (by decide) (by decide) w.toNat)
    (fun e he => not_mem_valueText (by decide) (hb.values e he))
    (fun e he => MaskTable.not_mem_text (by decide) (by decide) (hb.masks e he)) (MaskTable.not_mem_number (by decide)) hk w

/-! ## The three forms -/

/-- what an operand with these words is written as -/
inductive Written (g : Grammar) (k : Kind) : List Word → String → Prop where
  | token (w : Word) : Written g k [w] (g.wordText k.type w)
  | pair {p : PairKind} (hk : k = .pair p) (a b : Word) :
      Written g k [a, b] (g.wordText p.halves.1.type a ++ " " ++ g.wordText p.halves.2.type b)
  | row (words : List Word) : Written g k words (Text.hexWords words)

theorem written_operandText {k : Kind} (hk : k ≠ .string) (words : List Word) :
    Written g k words (g.operandText ⟨k.type, words⟩) := by
  match words with
  | [] =>
    cases k with
    | string => exact absurd rfl hk
    | _ => exact .row []
  | [w] =>
    cases k with
    | string => exact absurd rfl hk
    | _ => exact .token w
  | [a, b] =>
    cases k with
    | string => exact absurd rfl hk
    | pair p => exact .pair rfl a b
    | _ => exact .row [a, b]
  | a :: b :: c :: words =>
    cases k with
    | string => exact absurd rfl hk
    | _ => exact .row (a :: b :: c :: words)

/-- Only a row has a bracket in it. -/
theorem bracket_mem_hexWords (words : List Word) : '[' ∈ (Text.hexWords words).toList := by
  rw [Text.toList_hexWords]
  exact List.mem_cons_self

theorem Unbracketed.bracket_not_mem_pair (hb : g.Unbracketed) (p : PairKind) (a b : Word) :
    '[' ∉ (g.wordText p.halves.1.type a ++ " " ++ g.wordText p.halves.2.type b).toList := by
  obtain ⟨hfirst, hsecond⟩ := p.legible_halves
  simp [String.toList_append, hb.bracket_not_mem_wordText hfirst a, hb.bracket_not_mem_wordText hsecond b]

theorem blank_mem_pair (p : PairKind) (a b : Word) :
    ' ' ∈ (g.wordText p.halves.1.type a ++ " " ++ g.wordText p.halves.2.type b).toList := by
  simp [String.toList_append]

/-- One token has neither a blank nor a bracket in it, two tokens have a blank, and a row has a bracket. -/
theorem Legible.written_inj (hg : g.Legible) (hb : g.Unbracketed) {k : Kind} (hk : k.Legible) {us vs : List Word}
    {s t : String} (hus : Written g k us s) (hvs : Written g k vs t) (h : s = t) : us = vs := by
  have htokens := hg.writesTokens_wordText hk
  cases hus with
  | token v =>
    cases hvs with
    | token w => rw [htokens.injective h]
    | pair _ a b => exact absurd (h ▸ blank_mem_pair _ a b) (htokens.no_blank v)
    | row => exact absurd (h ▸ bracket_mem_hexWords vs) (hb.bracket_not_mem_wordText hk v)
  | @pair p hp a b =>
    cases hvs with
    | token w => exact absurd (h ▸ blank_mem_pair _ a b) (htokens.no_blank w)
    | @pair q hq c d =>
      obtain rfl := Kind.pair.inj (hp.symm.trans hq)
      obtain ⟨rfl, rfl, -⟩ := hg.pair_append_inj (stopsAt_nil ' ') (stopsAt_nil ' ') (congrArg (·.toList ++ []) h)
      rfl
    | row => exact absurd (h ▸ bracket_mem_hexWords vs) (hb.bracket_not_mem_pair p a b)
  | row =>
    cases hvs with
    | token w => exact absurd (h ▸ bracket_mem_hexWords us) (hb.bracket_not_mem_wordText hk w)
    | pair _ a b => exact absurd (h ▸ bracket_mem_hexWords us) (hb.bracket_not_mem_pair _ a b)
    | row => exact (Text.hexWords_append_inj (congrArg (·.toList ++ []) h)).1

/-! ## Main result -/

theorem Legible.operandText_eq_iff (hg : g.Legible) (hb : g.Unbracketed) {k : Kind} (hk : k.Legible) (hstring : k ≠ .string)
    {us vs : List Word} : g.operandText ⟨k.type, us⟩ = g.operandText ⟨k.type, vs⟩ ↔ us = vs := by
  refine ⟨hg.written_inj hb hk (written_operandText hstring us) (written_operandText hstring vs), ?_⟩
  rintro rfl
  rfl

/-- **Operands of one type with one text have the same words**, in the core grammar and for all types but floats and packed
text: however many words there are, and whether or not the values and bits have names. -/
theorem core_operandText_eq_iff {k : Kind} (hfloat : k ≠ .literal .float) (hstring : k ≠ .string) {us vs : List Word} :
    core.operandText ⟨k.type, us⟩ = core.operandText ⟨k.type, vs⟩ ↔ us = vs :=
  core_legible.operandText_eq_iff core_unbracketed hfloat hstring

/-- two masks that differ in a bit without a name -/
theorem core_operandText_eq_iff_sample :
    core.operandText ⟨Kind.type (.mask .memoryAccess), [0x40000003]⟩ ≠
      core.operandText ⟨Kind.type (.mask .memoryAccess), [0x80000003]⟩ := by
  rw [Ne, core_operandText_eq_iff (by decide) (by decide)]
  decide

end Grammar

end Spirv
