/-
The text of an instruction shows the instruction. Results are moved to the front and marked there, so they can be read off
before the name is. The name gives the opcode and with it the layout, and the other operands follow one by one, each with a
blank before it. There are no marks for operands that are left out, repeated, or asked for by a mask, and none are needed:
two instructions that look alike go through their layout in step (`Grammar.Alike`). At each operand the words so far are
the same, so the same kind is next, and at the end of one nothing can be left of the other.

- `Grammar.prefixText_append_inj`: the results at the front.
- `Grammar.Alike.head`: one operand of each instruction.
- `Groups.eq_of_alike`, `Layout.Admits.eq_of_alike`: groups of operands, and all operands of a layout.

Main results:
- `Grammar.Legible.instructionText_inj`: for every grammar whose names can be told apart.
- `Grammar.core_instructionText_inj`: for the core grammar.
-/
import Spirv.Proofs.Decoding
import Spirv.Proofs.Listings
import Spirv.Proofs.OperandTexts

namespace Spirv

namespace Grammar

variable {g : Grammar}

/-! ## Texts of operands -/

/-- the results, as they stand in front of the name -/
def prefixText (g : Grammar) (os : List Operand) : List Char :=
  (os.filter isResult).flatMap fun o => (g.operandText o).toList ++ [' ', '=', ' ']

/-- the other operands, as they stand behind the name -/
def suffixText (g : Grammar) (os : List Operand) : List Char :=
  (os.filter (!isResult ·)).flatMap fun o => ' ' :: (g.operandText o).toList

theorem toList_instructionText {i : Instruction} {d : InstructionDef} (hd : g.instructions.get? i.opcode = some d) :
    (g.instructionText i).toList = g.prefixText i.operands ++ (d.name.toList ++ g.suffixText i.operands) := by
  have hname : g.name? i.opcode = some d.name := by rw [name?, hd]; rfl
  simp only [instructionText, hname, Option.getD_some, List.partition_eq_filter_filter, String.toList_append,
    String.toList_join, List.flatMap_map, prefixText, suffixText, List.append_assoc]
  rfl

theorem stopsAt_suffixText (os : List Operand) : StopsAt ' ' (g.suffixText os) := stopsAt_flatMap ' ' _ _

/-- Two lists of operands look alike: the same results, and the same text of the others. -/
structure Alike (g : Grammar) (os ps : List Operand) : Prop where
  results : os.filter isResult = ps.filter isResult
  others : g.suffixText os = g.suffixText ps

theorem Alike.symm {os ps : List Operand} (h : g.Alike os ps) : g.Alike ps os := ⟨h.results.symm, h.others.symm⟩

/-- Nothing looks like no operands. -/
theorem Alike.eq_nil {os : List Operand} (h : g.Alike [] os) : os = [] := by
  cases os with
  | nil => rfl
  | cons o os =>
    obtain ⟨hresults, hothers⟩ := h
    cases ho : isResult o with
    | true =>
      rw [List.filter_cons_of_pos ho] at hresults
      cases hresults
    | false =>
      rw [suffixText, suffixText, List.filter_cons_of_pos (p := (!isResult ·)) (by simp [ho])] at hothers
      cases hothers

/-- One operand of each: if what follows is known to be of one kind, it is the same, and so is the rest. -/
theorem Alike.head (hg : g.Legible) {k : Kind} (hk : k.Legible) {us vs : List Word} {os ps : List Operand}
    (hus : k.shape.Fits us) (hvs : k.shape.Fits vs) (hupad : Operand.ZeroPadded ⟨k.type, us⟩)
    (hvpad : Operand.ZeroPadded ⟨k.type, vs⟩) (h : g.Alike (⟨k.type, us⟩ :: os) (⟨k.type, vs⟩ :: ps)) :
    us = vs ∧ g.Alike os ps := by
  obtain ⟨hresults, hothers⟩ := h
  by_cases hresult : k.type = (Kind.id .result).type
  · have hpos (ws : List Word) : isResult ⟨k.type, ws⟩ = true := decide_eq_true hresult
    rw [List.filter_cons_of_pos (hpos us), List.filter_cons_of_pos (hpos vs)] at hresults
    obtain ⟨hhead, hrest⟩ := List.cons.inj hresults
    refine ⟨congrArg Operand.words hhead, hrest, ?_⟩
    simpa [suffixText, hpos] using hothers
  · have hneg (ws : List Word) : isResult ⟨k.type, ws⟩ = false := decide_eq_false hresult
    have hcons (ws : List Word) (os : List Operand) : g.suffixText (⟨k.type, ws⟩ :: os) =
        ' ' :: ((g.operandText ⟨k.type, ws⟩).toList ++ g.suffixText os) := by
      simp [suffixText, hneg]
    rw [hcons, hcons] at hothers
    obtain ⟨hsame, hrest⟩ := hg.operandText_append_inj hk hus hvs hupad hvpad (stopsAt_suffixText os)
      (stopsAt_suffixText ps) (List.cons.inj hothers).2
    refine ⟨hsame, ?_, hrest⟩
    simpa [hneg] using hresults

/-- No bit asks for a float. -/
theorem Legible.follow (hg : g.Legible) (k : Kind) (words : List Word) : ∀ j ∈ k.follow g.expand words, j.Legible := by
  intro j hj
  cases k with
  | mask m =>
    cases words with
    | nil => cases hj
    | cons w words =>
      obtain ⟨e, he, bit, hbit, hparam⟩ := exists_param_of_mem_expand hj
      exact hg.params e he bit hbit j hparam
  | _ => cases hj

end Grammar

/-! ## In step through a layout -/

section InStep

variable {g : Grammar} (hg : g.Legible)
include hg

/-- Groups of the same kinds, and whatever stands behind them. -/
theorem Groups.eq_of_alike {ks : List Kind} (hks : ∀ k ∈ ks, k.Legible) {os ps r q : List Operand}
    (hos : Groups g.expand ks os) (hps : Groups g.expand ks ps) (hopad : ∀ o ∈ os, o.ZeroPadded)
    (hppad : ∀ o ∈ ps, o.ZeroPadded) (h : g.Alike (os ++ r) (ps ++ q)) : os = ps ∧ g.Alike r q := by
  induction os generalizing ks ps with
  | nil =>
    obtain ⟨rfl, -⟩ := hos.eq_nil rfl
    obtain rfl := groups_nil_iff.mp hps
    exact ⟨rfl, h⟩
  | cons o os ih =>
    cases ks with
    | nil => cases hos
    | cons k ks =>
      rw [List.forall_mem_cons] at hks
      obtain ⟨us, os', heq, hus, hos'⟩ := groups_cons_iff.mp hos
      obtain ⟨rfl, rfl⟩ := List.cons.inj heq
      obtain ⟨vs, ps', rfl, hvs, hps'⟩ := groups_cons_iff.mp hps
      rw [List.forall_mem_cons] at hopad hppad
      obtain ⟨rfl, hrest⟩ := h.head hg hks.1 hus hvs hopad.1 hppad.1
      -- the words are the same, and so is what they ask for
      have hnext : ∀ j ∈ k.follow g.expand us ++ ks, j.Legible := by
        rw [List.forall_mem_append]
        exact ⟨hg.follow k us, hks.2⟩
      obtain ⟨rfl, hrq⟩ := ih hnext hos' hps' hopad.2 hppad.2 hrest
      exact ⟨rfl, hrq⟩

/-- A repeated kind: neither list can come to an end before the other does. -/
theorem Groups.eq_of_alike_repeated {k : Kind} (hk : k.Legible) {m n : Nat} {os ps : List Operand}
    (hos : Groups g.expand (List.replicate m k) os) (hps : Groups g.expand (List.replicate n k) ps)
    (hopad : ∀ o ∈ os, o.ZeroPadded) (hppad : ∀ o ∈ ps, o.ZeroPadded) (h : g.Alike os ps) : os = ps := by
  induction m generalizing n os ps with
  | zero =>
    obtain rfl := groups_nil_iff.mp hos
    exact h.eq_nil.symm
  | succ m ih =>
    cases n with
    | zero =>
      obtain rfl := groups_nil_iff.mp hps
      exact h.symm.eq_nil
    | succ n =>
      obtain ⟨p, r, rfl, hp, hr⟩ := hos.split (a := [k]) (b := List.replicate m k)
      obtain ⟨p', q, rfl, hp', hq⟩ := hps.split (a := [k]) (b := List.replicate n k)
      rw [List.forall_mem_append] at hopad hppad
      obtain ⟨rfl, hrq⟩ := hp.eq_of_alike hg (List.forall_mem_singleton.mpr hk) hp' hopad.1 hppad.1 h
      rw [ih hr hq hopad.2 hppad.2 hrq]

/-- All the operands of a layout: where a field is left out nothing follows. -/
theorem Layout.Admits.eq_of_alike {l : Layout} (hl : ∀ s ∈ l.slots, s.kind.Legible) {os ps : List Operand}
    (hos : l.Admits g.expand os) (hps : l.Admits g.expand ps) (hopad : ∀ o ∈ os, o.ZeroPadded)
    (hppad : ∀ o ∈ ps, o.ZeroPadded) (h : g.Alike os ps) : os = ps := by
  induction l using Layout.cons_induction generalizing os ps with
  | empty opcode tail =>
    cases tail with
    | none => rw [admits_bare_iff.mp hos, admits_bare_iff.mp hps]
    | some k =>
      obtain ⟨m, hos⟩ := admits_tail_iff.mp hos
      obtain ⟨n, hps⟩ := admits_tail_iff.mp hps
      exact hos.eq_of_alike_repeated hg (hl ⟨.repeated, k⟩ (by simp [Layout.slots])) hps hopad hppad h
  | cons f l ih =>
    have hslots : (l.cons f).slots = f.slot :: l.slots := rfl
    rw [hslots, List.forall_mem_cons] at hl
    rcases admits_cons_iff.mp hos with ⟨-, rfl, -⟩ | ⟨p, r, rfl, hp, hr⟩
    · exact h.eq_nil.symm
    · rcases admits_cons_iff.mp hps with ⟨-, rfl, -⟩ | ⟨p', q, rfl, hp', hq⟩
      · exact h.symm.eq_nil
      · rw [List.forall_mem_append] at hopad hppad
        obtain ⟨rfl, hrq⟩ := hp.eq_of_alike hg (List.forall_mem_singleton.mpr hl.1) hp' hopad.1 hppad.1 h
        rw [ih hl.2 hr hq hopad.2 hppad.2 hrq]

end InStep

/-! ## Results at the front -/

/-- Every operand has words that fit its type. -/
theorem Groups.exists_fits {x : Expansion} {ks : List Kind} {os : List Operand} (h : Groups x ks os) :
    ∀ o ∈ os, ∃ k : Kind, o.type = k.type ∧ k.shape.Fits o.words := by
  induction h with
  | nil => simp
  | plain _ hfits _ ih => exact List.forall_mem_cons.mpr ⟨⟨_, rfl, hfits⟩, ih⟩
  | mask _ _ ihasked ihrest =>
    rw [List.forall_mem_cons, List.forall_mem_append]
    exact ⟨⟨_, rfl, Kind.mask_fits_iff.mpr ⟨_, rfl⟩⟩, ihasked, ihrest⟩

namespace Grammar

variable {g : Grammar}

/-- the result with this number -/
def result (w : Word) : Operand := ⟨(Kind.id .result).type, [w]⟩

theorem exists_results {x : Expansion} {l : Layout} {os : List Operand} (h : l.Admits x os) :
    ∃ ws : List Word, os.filter isResult = ws.map result := by
  obtain ⟨kinds, -, hgroups⟩ := h
  apply exists_eq_map_iff.mpr
  intro o ho
  obtain ⟨hmem, hresult⟩ := List.mem_filter.mp ho
  obtain ⟨k, hk, hfits⟩ := hgroups.exists_fits o hmem
  have htype : o.type = (Kind.id .result).type := of_decide_eq_true hresult
  obtain rfl : k = .id .result := by simpa [Kind.type] using hk.symm.trans htype
  obtain ⟨w, hw⟩ := List.length_eq_one_iff.mp hfits
  exact ⟨w, by rw [result, ← htype, ← hw]⟩

/-- The results can be read off the front, if what follows does not begin as a result does. -/
theorem prefixText_append_inj {vs ws : List Word} {s t : List Char} (hs : s.head? ≠ some '%') (ht : t.head? ≠ some '%')
    (h : ((vs.map result).flatMap fun o => (g.operandText o).toList ++ [' ', '=', ' ']) ++ s =
      ((ws.map result).flatMap fun o => (g.operandText o).toList ++ [' ', '=', ' ']) ++ t) : vs = ws ∧ s = t := by
  have hresult (w : Word) : (g.operandText (result w)).toList ++ [' ', '=', ' '] =
      '%' :: (w.toNat.repr.toList ++ [' ', '=', ' ']) := by
    rw [show g.operandText (result w) = "%" ++ w.toNat.repr from rfl, String.toList_append]
    rfl
  have hstops (s : List Char) : StopsAt ' ' ([' ', '=', ' '] ++ s) := stopsAt_cons ' ' _
  simp only [List.flatMap_map, hresult] at h
  induction vs generalizing ws with
  | nil =>
    cases ws with
    | nil => exact ⟨rfl, h⟩
    | cons w ws =>
      rw [show s = _ from h] at hs
      exact absurd rfl hs
  | cons v vs ih =>
    cases ws with
    | nil =>
      rw [show t = _ from h.symm] at ht
      exact absurd rfl ht
    | cons w ws =>
      simp only [List.flatMap_cons, List.cons_append, List.append_assoc, List.nil_append, List.cons.injEq,
        true_and] at h
      obtain ⟨rfl, hrest⟩ := writesTokens_decimal.append_inj (hstops _) (hstops _) h
      obtain ⟨rfl, hst⟩ := ih (List.append_cancel_left hrest)
      exact ⟨rfl, hst⟩

/-! ## Main results -/

/-- Decoding gives the instruction, in the layout that the grammar has for its opcode, from some words. -/
def Decodes (g : Grammar) (i : Instruction) : Prop :=
  ∃ l words, g.layout i.opcode = .ok l ∧ l.decode g.expand words = .ok i.operands

theorem Decodes.exists_def {i : Instruction} (h : g.Decodes i) : ∃ d l, g.instructions.get? i.opcode = some d ∧
    Layout.ofTypes i.opcode d.types = .ok l ∧ l.Admits g.expand i.operands := by
  obtain ⟨l, words, hl, hdecode⟩ := h
  rw [layout, Layout.resolve, table] at hl
  cases hd : g.instructions.get? i.opcode with
  | none =>
    rw [hd] at hl
    cases hl
  | some d =>
    rw [hd] at hl
    exact ⟨d, l, rfl, hl, (Layout.decode_eq_ok_iff.mp hdecode).2⟩

theorem Legible.head?_name_append (hg : g.Legible) {opcode : UInt16} {d : InstructionDef}
    (hd : g.instructions.get? opcode = some d) (os : List Operand) :
    (d.name.toList ++ g.suffixText os).head? ≠ some '%' := by
  have hname := (hg.plain _ (Table.get?_eq_some_iff.mp hd)).2
  cases hchars : d.name.toList with
  | nil =>
    intro h
    exact absurd (stopsAt_suffixText os _ h) (by decide)
  | cons c cs =>
    rw [hchars] at hname
    exact hname

theorem Legible.slots (hg : g.Legible) {opcode : UInt16} {d : InstructionDef} {l : Layout}
    (hd : g.instructions.get? opcode = some d) (hl : Layout.ofTypes opcode d.types = .ok l) :
    ∀ s ∈ l.slots, s.kind.Legible := by
  obtain ⟨-, htypes⟩ := Layout.ofTypes_eq_ok_iff.mp hl
  intro s hs
  have htype : .operand s ∈ d.types := by
    rw [← htypes]
    exact List.mem_map_of_mem hs
  exact hg.types _ (Table.get?_eq_some_iff.mp hd) _ htype s.kind rfl

/-- **The text of an instruction shows the instruction**, if the names of the grammar can be told apart. -/
theorem Legible.instructionText_inj (hg : g.Legible) {i j : Instruction} (hi : g.Decodes i) (hj : g.Decodes j)
    (hipad : ∀ o ∈ i.operands, o.ZeroPadded) (hjpad : ∀ o ∈ j.operands, o.ZeroPadded)
    (h : g.instructionText i = g.instructionText j) : i = j := by
  obtain ⟨d, l, hd, hl, hios⟩ := hi.exists_def
  obtain ⟨d', l', hd', hl', hjos⟩ := hj.exists_def
  rw [← String.toList_inj, toList_instructionText hd, toList_instructionText hd'] at h
  obtain ⟨vs, hvs⟩ := exists_results hios
  obtain ⟨ws, hws⟩ := exists_results hjos
  rw [prefixText, prefixText, hvs, hws] at h
  obtain ⟨rfl, hrest⟩ := prefixText_append_inj (hg.head?_name_append hd _) (hg.head?_name_append hd' _) h
  -- the name stands up to the first blank, and no other opcode has it
  have hmem := Table.get?_eq_some_iff.mp hd
  have hmem' := Table.get?_eq_some_iff.mp hd'
  obtain ⟨hname, hsuffix⟩ := append_inj_of_stopsAt (hg.plain _ hmem).1 (hg.plain _ hmem').1
    (stopsAt_suffixText i.operands) (stopsAt_suffixText j.operands) hrest
  have hentry := List.inj_on_of_nodup_map hg.distinct hmem hmem' (String.toList_inj.mp hname)
  obtain ⟨hopcode, rfl⟩ := Prod.mk.inj hentry
  rw [← hopcode] at hl'
  obtain rfl := Except.ok.inj (hl.symm.trans hl')
  have hoperands := hios.eq_of_alike hg (hg.slots hd hl) hjos hipad hjpad ⟨hvs.trans hws.symm, hsuffix⟩
  cases i
  cases j
  rw [Instruction.mk.injEq]
  exact ⟨hopcode, hoperands⟩

/-- **Instructions of the core grammar are known by their texts**, as long as packed text is padded with zero bytes. -/
theorem core_instructionText_inj {i j : Instruction} (hi : core.Decodes i) (hj : core.Decodes j)
    (hipad : ∀ o ∈ i.operands, o.ZeroPadded) (hjpad : ∀ o ∈ j.operands, o.ZeroPadded)
    (h : core.instructionText i = core.instructionText j) : i = j :=
  core_legible.instructionText_inj hi hj hipad hjpad h

/-- an entry point, with a name and the IDs behind it -/
theorem core_instructionText_inj_sample :
    let entry : Instruction := ⟨15, [⟨Kind.type (.enum .executionModel), [4]⟩, ⟨Kind.type (.id .reference), [1]⟩,
      ⟨Kind.string.type, [0x6e69616d, 0]⟩, ⟨Kind.type (.id .reference), [2]⟩, ⟨Kind.type (.id .reference), [3]⟩]⟩
    ∃ l operands, core.layout 15 = .ok l ∧ l.decode core.expand [4, 1, 0x6e69616d, 0, 2, 3] = .ok operands ∧
      core.instructionText ⟨15, operands⟩ = "OpEntryPoint Fragment %1 \"main\" %2 %3" ∧
      core.instructionText entry = "OpEntryPoint Fragment %1 \"main\" %2 %3" ∧ ⟨15, operands⟩ = entry := by
  intro entry
  have hdecode : (core.layout 15 >>= fun l => .ok (l.decode core.expand [4, 1, 0x6e69616d, 0, 2, 3])) =
      .ok (.ok entry.operands) := by with_unfolding_all rfl
  obtain ⟨l, hl, hoperands⟩ := bind_eq_ok_iff.mp hdecode
  have hdecodes : core.Decodes entry := ⟨l, _, hl, Except.ok.inj hoperands⟩
  have htext : core.instructionText entry = "OpEntryPoint Fragment %1 \"main\" %2 %3" := by decide +kernel
  have hbytes : ∀ o ∈ entry.operands, ((o.words.flatMap Word.bytes).dropWhile (· != 0)).all (· == 0) := by decide
  have hpad : ∀ o ∈ entry.operands, o.ZeroPadded := fun o ho _ b hb => eq_of_beq (List.all_eq_true.mp (hbytes o ho) b hb)
  exact ⟨l, entry.operands, hl, Except.ok.inj hoperands, htext, htext,
    core_instructionText_inj hdecodes hdecodes hpad hpad rfl⟩

end Grammar

end Spirv
