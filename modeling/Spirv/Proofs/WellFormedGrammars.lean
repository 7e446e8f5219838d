/-
What is loaded is well-formed. The codec takes for granted that a known opcode has a layout and that a mask kind has a
table, and the reader of a listing sees to it (`Grammar.WellFormed`). A table is made up from one listed kind, and in the
making it holds what its names ask for (`MaskDraft.Reflects`), so no bit asks for more than a name may. Of the kinds that
are not listed, a mask kind is given a table without bits, and an enumeration has no values.

- `KindTables.Reflects.add`: where the tables come from, kind by kind, and so for the whole list.
- `KindTables.get?_complete`: the tables of kinds that are not listed.
- `Grammar.wellFormed_of_ofListing`: what the codec relies on.
- `Grammar.WellFormed.resolve_eq_error_iff`, `Grammar.WellFormed.answer?_layout_error`: what that leaves to go wrong.

Main result:
- `Grammar.well_formed_of_ofListing`: layouts, masks, their parameters and the named values of any loaded grammar.
-/
import Spirv.Proofs.Consistency
import Spirv.Proofs.Streams

namespace Spirv

/-! ## Masks -/

/-- No bit asks for more than three operands. -/
theorem MaskDraft.Reflects.length_params_le {done : List EnumerantListing} {d : MaskDraft} (h : Reflects done d)
    {bit : BitIndex} {known : BitDef Kind} (hknown : d.table.bit? bit = some known) : known.params.length ≤ 3 := by
  obtain ⟨e, he, hvalue⟩ := h.only hknown
  obtain ⟨known', hknown', hparams⟩ := h.listed e he bit hvalue
  obtain rfl := Option.some.inj (hknown.symm.trans hknown')
  rcases namesBits_iff.mp (h.names e he) with ⟨hzero, -⟩ | ⟨_, params, -, hlisted, hcount⟩
  · exact absurd hzero (Word.ne_zero_of_two_pow hvalue)
  · have hlength := congrArg List.length (hparams.symm.trans hlisted)
    rw [List.length_map, List.length_map] at hlength
    rw [hlength]
    exact hcount

theorem length_params_of_loadMask {kind : String} {es : List EnumerantListing} {table : MaskTable Kind}
    (h : loadMask kind es = .ok table) {bit : BitIndex} {known : BitDef Kind} (hknown : table.bit? bit = some known) :
    known.params.length ≤ 3 := by
  obtain ⟨d, hd, h⟩ := bind_eq_ok_iff.mp h
  obtain rfl := Except.ok.inj h
  exact (MaskDraft.reflects_of_foldlM hd).length_params_le hknown

namespace KindTables

variable {done : List KindListing} {t u : KindTables} {l : KindListing}

/-- What the tables hold after these kinds. -/
structure Reflects (done : List KindListing) (t : KindTables) : Prop where
  masks : ∀ {m table}, t.masks.get? m = some table →
    ∃ k ∈ done, k.category = .bitEnum ∧ k.kind = (Kind.mask m).name ∧ loadMask k.kind (k.enumerants.getD []) = .ok table
  enums : ∀ {e}, (t.enums.get? e).isSome ↔ ∃ k ∈ done, k.category = .valueEnum ∧ k.kind = (Kind.enum e).name

theorem reflects_start : Reflects [] ⟨.empty, .empty⟩ := by
  refine ⟨?_, ?_⟩
  · intro m table h
    cases h
  · intro e
    exact iff_of_false (fun h => by cases h) (by simp)

theorem exists_mem_concat {P : KindListing → Prop} :
    (∃ k ∈ done ++ [l], P k) ↔ (∃ k ∈ done, P k) ∨ P l := by
  simp [or_and_right, exists_or]

theorem Reflects.listed_of_ne (h : Reflects done t) (hl : l.category ≠ .valueEnum) {e : EnumKind} :
    (t.enums.get? e).isSome ↔ ∃ k ∈ done ++ [l], k.category = .valueEnum ∧ k.kind = (Kind.enum e).name := by
  rw [exists_mem_concat, h.enums]
  simp [hl]

/-- A kind that adds nothing changes nothing. -/
theorem Reflects.concat (h : Reflects done t) (hl : l.category ≠ .valueEnum) : Reflects (done ++ [l]) t := by
  refine ⟨?_, h.listed_of_ne hl⟩
  intro m table hget
  exact exists_mem_concat.mpr (.inl (h.masks hget))

theorem Reflects.add (h : Reflects done t) (hadd : t.add l = .ok u) : Reflects (done ++ [l]) u := by
  cases add_eq_ok_iff.mp hadd with
  | bitEnum hload =>
    refine ⟨?_, h.listed_of_ne (by simp)⟩
    intro m table hget
    rw [Table.get?_insert_eq] at hget
    apply exists_mem_concat.mpr
    split at hget
    · rename_i hm
      obtain rfl := Option.some.inj hget
      exact .inr ⟨rfl, by rw [hm], hload⟩
    · exact .inl (h.masks hget)
  | valueEnum hload =>
    refine ⟨?_, ?_⟩
    · intro m table hget
      exact exists_mem_concat.mpr (.inl (h.masks hget))
    · intro e
      rw [Table.get?_insert_eq, exists_mem_concat, ← h.enums]
      split
      · rename_i he
        simp [he]
      · rename_i he
        simp [Kind.name_inj, Ne.symm he]
  | id => exact h.concat (by simp)
  | literal => exact h.concat (by simp)
  | string => exact h.concat (by simp)
  | composite => exact h.concat (by simp)

theorem reflects_of_foldlM {ls : List KindListing} (h : ls.foldlM KindTables.add ⟨.empty, .empty⟩ = .ok t) :
    Reflects ls t :=
  holds_foldlM Reflects (fun h hadd => h.add hadd) reflects_start h

/-- One mask kind is given a table without bits, if it has none. -/
theorem get?_complete_step (masks : Table MaskKind (MaskTable Kind)) (j m : MaskKind) :
    (if (masks.get? j).isSome then masks else masks.insert j (.empty "None")).get? m =
      if m = j then some ((masks.get? m).getD (.empty "None")) else masks.get? m := by
  cases hget : masks.get? j with
  | none =>
    rw [if_neg (by simp), Table.get?_insert_eq]
    split
    · rename_i hm
      rw [hm, hget]
      rfl
    · rfl
  | some table =>
    rw [if_pos (by simp)]
    split
    · rename_i hm
      rw [hm, hget]
      rfl
    · rfl

theorem get?_foldl_complete (ms : List MaskKind) (masks : Table MaskKind (MaskTable Kind)) (m : MaskKind) :
    (ms.foldl (fun masks m => if (masks.get? m).isSome then masks else masks.insert m (.empty "None")) masks).get? m =
      if m ∈ ms then some ((masks.get? m).getD (.empty "None")) else masks.get? m := by
  induction ms generalizing masks with
  | nil => rfl
  | cons j ms ih =>
    rw [List.foldl_cons, ih, get?_complete_step]
    by_cases hm : m = j
    · simp [hm]
    · simp [hm]

/-- In the end every mask kind has a table, the one it was given or one without bits. -/
theorem get?_complete (t : KindTables) (m : MaskKind) :
    t.complete.masks.get? m = some ((t.masks.get? m).getD (.empty "None")) := by
  have hm : m ∈ MaskKind.all := by cases m <;> decide
  rw [complete, get?_foldl_complete, if_pos hm]

end KindTables

/-! ## Well-formed grammars -/

namespace Grammar

/-- What the codec relies on: every instruction has a layout, and every mask kind has a table, in which no bit asks for
more than three operands. -/
structure WellFormed (g : Grammar) : Prop where
  layouts : ∀ {opcode d}, g.instructions.get? opcode = some d → ∃ l, Layout.ofTypes opcode d.types = .ok l
  masks : ∀ m, (g.masks.get? m).isSome
  params : ∀ {m table bit known}, g.masks.get? m = some table → table.bit? bit = some known → known.params.length ≤ 3

variable {g : Grammar}

theorem maskTable?_eq_some_iff {type : OperandType} {table : MaskTable Kind} :
    g.maskTable? type = some table ↔ ∃ m, type = Kind.type (.mask m) ∧ g.masks.get? m = some table := by
  rw [maskTable?, Option.bind_eq_some_iff]
  simp only [OperandType.maskKind?_eq_some_iff]

theorem values?_eq_some_iff {type : OperandType} {values : Table Word String} :
    g.values? type = some values ↔ ∃ e, type = Kind.type (.enum e) ∧ g.enums.get? e = some values := by
  rw [values?, Option.bind_eq_some_iff]
  simp only [OperandType.enumKind?_eq_some_iff]

theorem wellFormed_of_ofListing {l : Listing} (h : ofListing l = .ok g) : g.WellFormed := by
  obtain ⟨kinds, instructions, hkinds, hinstructions, rfl⟩ := ofListing_eq_ok_iff.mp h
  refine ⟨?_, ?_, ?_⟩
  · intro opcode d hget
    exact ((InstructionTables.reflects_of_foldlM hinstructions).only hget).2
  · intro m
    rw [KindTables.get?_complete]
    rfl
  · intro m table bit known hget hknown
    rw [KindTables.get?_complete] at hget
    obtain rfl := Option.some.inj hget
    cases hmasks : kinds.masks.get? m with
    | none =>
      rw [hmasks, Option.getD_none, MaskTable.bit?_empty] at hknown
      cases hknown
    | some table =>
      rw [hmasks, Option.getD_some] at hknown
      obtain ⟨k, -, -, -, hload⟩ := (KindTables.reflects_of_foldlM hkinds).masks hmasks
      exact length_params_of_loadMask hload hknown

/-- An enumeration kind has values exactly when it is listed with values. -/
theorem isSome_enums_iff {l : Listing} (h : ofListing l = .ok g) {e : EnumKind} :
    (g.enums.get? e).isSome ↔ ∃ k ∈ l.kinds, k.category = .valueEnum ∧ k.kind = (Kind.enum e).name := by
  obtain ⟨kinds, instructions, hkinds, -, rfl⟩ := ofListing_eq_ok_iff.mp h
  exact (KindTables.reflects_of_foldlM hkinds).enums

namespace WellFormed

/-- The only opcodes without a layout are the unknown ones. -/
theorem resolve_eq_error_iff (h : g.WellFormed) {opcode : UInt16} {e : LayoutError} :
    Layout.resolve g.table opcode = .error e ↔ e = .unknownOpcode opcode ∧ g.instructions.get? opcode = none := by
  rw [Layout.resolve, table]
  cases hget : g.instructions.get? opcode with
  | none => simp [eq_comm]
  | some d =>
    obtain ⟨l, hl⟩ := h.layouts hget
    simp [hl]

theorem readAfter_layout_error (h : g.WellFormed) {x : Expansion} {header : Word} {rest : List Word} {e : LayoutError}
    (hread : InstructionStream.readAfter x g.table header rest = .error (.layout e)) :
    e = .unknownOpcode header.opcode := by
  rcases InstructionStream.readAfter_eq_error_iff.mp hread with hsplit | ⟨body, behind, -, -, hdecode⟩
  · rcases splitInstruction_eq_error_iff.mp hsplit with ⟨-, h⟩ | ⟨-, h⟩
    · cases h
    · cases h
  · rw [Instruction.decode] at hdecode
    split at hdecode
    · rename_i hresolve
      obtain rfl := ReadError.layout.inj (Except.error.inj hdecode)
      exact (h.resolve_eq_error_iff.mp hresolve).1
    · split at hdecode
      · cases hdecode
      · cases hdecode

/-- A stream reports no other fault of a layout, whatever its words are. -/
theorem answer?_layout_error (h : g.WellFormed) {x : Expansion} {s : InstructionStream} {n : Nat} {e : LayoutError}
    (hanswer : s.answer? x g.table n = some (.error (.layout e))) : ∃ opcode, e = .unknownOpcode opcode := by
  obtain ⟨-, header, rest, -, hread⟩ := InstructionStream.next?_eq_some_error_iff.mp
    (InstructionStream.next?_of_answer? hanswer)
  exact ⟨header.opcode, h.readAfter_layout_error hread⟩

end WellFormed

/-! ## Main result -/

/-- **What is loaded is well-formed.** Every stored instruction has a layout, so that an opcode is without one just when
it is unknown, and a stream over the grammar reports no other fault of a layout. The types with a mask table are the
concrete mask types, listed or not, and each bit asks for up to three operands of concrete types. The types with named
values are concrete enumeration types, those that are listed with values. -/
theorem well_formed_of_ofListing {l : Listing} (h : ofListing l = .ok g) :
    (∀ opcode d, g.instructions.get? opcode = some d → ∃ layout, Layout.ofTypes opcode d.types = .ok layout) ∧
    (∀ opcode e, Layout.resolve g.table opcode = .error e ↔
      e = .unknownOpcode opcode ∧ g.instructions.get? opcode = none) ∧
    (∀ x words n e, (InstructionStream.ofWords words).answer? x g.table n = some (.error (.layout e)) →
      ∃ opcode, e = .unknownOpcode opcode) ∧
    (∀ type, (g.maskTable? type).isSome ↔ ∃ m, type = Kind.type (.mask m)) ∧
    (∀ type table bit known, g.maskTable? type = some table → table.bit? bit = some known →
      known.params.length ≤ 3 ∧ ∀ k ∈ known.params, k.type.isConcrete) ∧
    ∀ type, (g.values? type).isSome ↔ ∃ e, type = Kind.type (.enum e) ∧
      ∃ k ∈ l.kinds, k.category = .valueEnum ∧ k.kind = (Kind.enum e).name := by
  have hg := wellFormed_of_ofListing h
  refine ⟨?_, ?_, ?_, ?_, ?_, ?_⟩
  · intro opcode d hget
    exact hg.layouts hget
  · intro opcode e
    exact hg.resolve_eq_error_iff
  · intro x words n e hanswer
    exact hg.answer?_layout_error hanswer
  · intro type
    simp only [Option.isSome_iff_exists, maskTable?_eq_some_iff]
    refine ⟨?_, ?_⟩
    · intro h
      obtain ⟨table, m, rfl, -⟩ := h
      exact ⟨m, rfl⟩
    · intro h
      obtain ⟨m, rfl⟩ := h
      obtain ⟨table, hget⟩ := Option.isSome_iff_exists.mp (hg.masks m)
      exact ⟨table, m, rfl, hget⟩
  · intro type table bit known htable hknown
    obtain ⟨m, -, hget⟩ := maskTable?_eq_some_iff.mp htable
    exact ⟨hg.params hget hknown, fun k _ => rfl⟩
  · intro type
    simp only [← isSome_enums_iff h, Option.isSome_iff_exists, values?_eq_some_iff]
    refine ⟨?_, ?_⟩
    · intro h
      obtain ⟨values, e, rfl, hget⟩ := h
      exact ⟨e, rfl, values, hget⟩
    · intro h
      obtain ⟨e, rfl, values, hget⟩ := h
      exact ⟨values, e, rfl, hget⟩

end Grammar

namespace Sample

/-- two instructions, a mask with two names for one bit, and an enumeration; every other kind is left out -/
def listing : Listing where
  magic := 0x07230203
  major := 1
  minor := 6
  revision := 1
  instructions := [
    ⟨"OpNop", 0, []⟩,
    ⟨"OpNote", 8, [⟨"LiteralString", none⟩, ⟨"MemoryAccess", some .optional⟩, ⟨"PairIdRefIdRef", some .repeated⟩]⟩]
  kinds := [
    ⟨.bitEnum, "MemoryAccess", some [⟨"None", 0, []⟩, ⟨"Aligned", 2, [⟨"LiteralInteger", none⟩]⟩,
      ⟨"AlignedEXT", 2, [⟨"LiteralInteger", none⟩]⟩], none⟩,
    ⟨.valueEnum, "Dim", some [⟨"1D", 0, []⟩], none⟩]

end Sample

theorem Grammar.well_formed_of_ofListing_sample : ∃ g, ofListing Sample.listing = .ok g ∧
    (∃ d layout, g.instructions.get? 8 = some d ∧ Layout.ofTypes 8 d.types = .ok layout) ∧
    Layout.resolve g.table 9 = .error (.unknownOpcode 9) ∧
    (g.maskTable? (Kind.type (.mask .loopControl))).isSome ∧ (g.values? (Kind.type (.enum .dim))).isSome := by
  have hload : (ofListing Sample.listing >>= fun g => .ok ((g.instructions.get? 8).isSome, g.instructions.get? 9)) =
      .ok (true, none) := by with_unfolding_all rfl
  obtain ⟨g, hg, hget⟩ := bind_eq_ok_iff.mp hload
  obtain ⟨hknown, hunknown⟩ := Prod.mk.inj (Except.ok.inj hget)
  obtain ⟨d, hd⟩ := Option.isSome_iff_exists.mp hknown
  obtain ⟨hlayouts, hresolve, -, hmasks, -, hvalues⟩ := well_formed_of_ofListing hg
  obtain ⟨layout, hlayout⟩ := hlayouts 8 d hd
  refine ⟨g, hg, ⟨d, layout, hd, hlayout⟩, ?_, ?_, ?_⟩
  · exact (hresolve 9 _).mpr ⟨rfl, hunknown⟩
  · exact (hmasks _).mpr ⟨.loopControl, rfl⟩
  · exact (hvalues _).mpr ⟨.dim, rfl, _, List.mem_cons_of_mem _ List.mem_cons_self, rfl, rfl⟩

end Spirv
