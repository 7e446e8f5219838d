/-
What a loaded grammar keeps of its listing. Nothing gets into the tables that is not listed, and each instruction is stored
under its opcode, which no other instruction may have. Names and kinds are not guarded in this way: of several instructions
with one name the last one owns the name, and of several listings of a kind the last one makes its table, whatever the
earlier ones said. So a grammar keeps all of a listing exactly when nothing in it is shadowed (`Listing.Unshadowed`).

- `InstructionTables.namesLast_of_foldlM`, `Grammar.opcode?_eq`: a name leads to the last instruction with it.
- `valuesNamed_of_loadValues`: the values of one listed enumeration.
- `KindTables.KeepsLast`: tables are those of the kinds as they were listed last.
- `Grammar.definesBit_iff`, `Grammar.namesValue_iff`: which bits and values a loaded grammar has.

Main results:
- `Grammar.ofListing_keeps_iff`: what is always kept, and when everything is.
- `Grammar.shadowed_listing_loses`: a listing that is accepted and of which a name, a bit and a value are lost.
-/
import Spirv.Proofs.WellFormedGrammars

namespace Spirv

theorem find?_reverse_concat {α : Type} (p : α → Bool) (l : List α) (a : α) :
    (l ++ [a]).reverse.find? p = if p a then some a else l.reverse.find? p := by
  rw [List.reverse_append, List.reverse_singleton, List.singleton_append, List.find?_cons]
  cases p a <;> rfl

/-! ## Listings -/

namespace Listing

/-- the last listing of a kind -/
def lastKind? (l : Listing) (name : String) : Option KindListing := l.kinds.reverse.find? (·.kind = name)

/-- the last instruction of a name -/
def lastNamed? (l : Listing) (name : String) : Option InstructionListing := l.instructions.reverse.find? (·.name = name)

/-- Nothing is listed that a later listing of the same name leaves out. -/
structure Unshadowed (l : Listing) : Prop where
  names : ∀ i ∈ l.instructions, ∀ j ∈ l.instructions, i.name = j.name → i.opcode = j.opcode
  bits : ∀ k ∈ l.kinds, k.category = .bitEnum → ∀ e ∈ k.enumerants.getD [], e.value ≠ 0 →
    ∃ last, l.lastKind? k.kind = some last ∧
      ∃ f ∈ last.enumerants.getD [], f.value = e.value ∧ f.params = e.params
  values : ∀ k ∈ l.kinds, k.category = .valueEnum → ∀ e ∈ k.enumerants.getD [],
    ∃ last, l.lastKind? k.kind = some last ∧ ∃ f ∈ last.enumerants.getD [], f.value = e.value

variable {l : Listing}

theorem mem_of_lastKind? {name : String} {k : KindListing} (h : l.lastKind? name = some k) :
    k ∈ l.kinds ∧ k.kind = name :=
  ⟨List.mem_reverse.mp (List.mem_of_find?_eq_some h), by simpa using List.find?_some h⟩

theorem mem_of_lastNamed? {name : String} {i : InstructionListing} (h : l.lastNamed? name = some i) :
    i ∈ l.instructions ∧ i.name = name :=
  ⟨List.mem_reverse.mp (List.mem_of_find?_eq_some h), by simpa using List.find?_some h⟩

theorem exists_lastNamed? {i : InstructionListing} (h : i ∈ l.instructions) : ∃ j, l.lastNamed? i.name = some j := by
  rw [← Option.isSome_iff_exists, lastNamed?, List.find?_isSome]
  exact ⟨i, List.mem_reverse.mpr h, by simp⟩

end Listing

/-! ## Names of instructions -/

namespace InstructionTables

/-- the names lead to the opcodes, the last instruction first -/
def NamesLast (done : List InstructionListing) (t : InstructionTables) : Prop :=
  t.opcodes = done.reverse.map fun i => (i.name, i.opcode)

theorem NamesLast.add {done : List InstructionListing} {t u : InstructionTables} {i : InstructionListing}
    (h : NamesLast done t) (hadd : t.add i = .ok u) : NamesLast (done ++ [i]) u := by
  obtain ⟨slots, -, -, -, rfl⟩ := add_eq_ok_iff.mp hadd
  rw [NamesLast, insert, h, List.reverse_append, List.reverse_singleton, List.singleton_append, List.map_cons]

theorem namesLast_of_foldlM {is : List InstructionListing} {t : InstructionTables}
    (h : is.foldlM InstructionTables.add ⟨.empty, []⟩ = .ok t) : NamesLast is t := by
  have hstart : NamesLast [] ⟨.empty, []⟩ := rfl
  exact holds_foldlM NamesLast (fun h hadd => h.add hadd) hstart h

end InstructionTables

theorem lookup_map_name (is : List InstructionListing) (name : String) :
    (is.map fun i => (i.name, i.opcode)).lookup name = (is.find? (·.name = name)).map (·.opcode) := by
  induction is with
  | nil => rfl
  | cons i is ih =>
    rw [List.map_cons, List.lookup_cons, List.find?_cons, ih]
    by_cases hname : i.name = name
    · simp [hname]
    · simp [hname, beq_false_of_ne (Ne.symm hname)]

/-! ## Values of an enumeration -/

/-- the values are those that were named -/
def ValuesNamed (done : List EnumerantListing) (values : Table Word String) : Prop :=
  ∀ v, (values.get? v).isSome ↔ ∃ e ∈ done, e.value = v

theorem valuesNamed_start : ValuesNamed [] .empty := by
  intro v
  simp [Table.get?, Table.empty, Table.find]

theorem ValuesNamed.add {kind : String} {done : List EnumerantListing} {values values' : Table Word String}
    {e : EnumerantListing} (h : ValuesNamed done values) (hadd : addValue kind values e = .ok values') :
    ValuesNamed (done ++ [e]) values' := by
  intro v
  obtain ⟨-, rfl⟩ := addValue_eq_ok_iff.mp hadd
  rw [Table.get?_insert_eq]
  by_cases heq : v = e.value
  · rw [if_pos heq]
    exact iff_of_true rfl ⟨e, by simp, heq.symm⟩
  · rw [if_neg heq, h]
    simp [Ne.symm heq, or_and_right, exists_or]

theorem valuesNamed_of_loadValues {kind : String} {es : List EnumerantListing} {values : Table Word String}
    (h : loadValues kind es = .ok values) : ValuesNamed es values :=
  holds_foldlM ValuesNamed (fun h hadd => h.add hadd) valuesNamed_start h

/-! ## Tables of kinds -/

namespace KindTables

/-- the tables are those of the kinds as they were listed last -/
structure KeepsLast (done : List KindListing) (t : KindTables) : Prop where
  masks : ∀ m table, t.masks.get? m = some table ↔ ∃ k, done.reverse.find? (·.kind = (Kind.mask m).name) = some k ∧
    k.category = .bitEnum ∧ loadMask k.kind (k.enumerants.getD []) = .ok table
  enums : ∀ e values, t.enums.get? e = some values ↔ ∃ k, done.reverse.find? (·.kind = (Kind.enum e).name) = some k ∧
    k.category = .valueEnum ∧ loadValues k.kind (k.enumerants.getD []) = .ok values

variable {done : List KindListing} {t u : KindTables} {l : KindListing}

theorem keepsLast_start : KeepsLast [] ⟨.empty, .empty⟩ := by
  refine ⟨?_, ?_⟩
  · intro m table
    simp [Table.get?, Table.empty, Table.find]
  · intro e values
    simp [Table.get?, Table.empty, Table.find]

/-- A kind that has no table leaves the tables as they are. -/
theorem KeepsLast.concat (h : KeepsLast done t) (hmask : ∀ m, l.kind ≠ (Kind.mask m).name)
    (henum : ∀ e, l.kind ≠ (Kind.enum e).name) : KeepsLast (done ++ [l]) t := by
  refine ⟨?_, ?_⟩
  · intro m table
    rw [h.masks, find?_reverse_concat, if_neg (by simpa using hmask m)]
  · intro e values
    rw [h.enums, find?_reverse_concat, if_neg (by simpa using henum e)]

theorem KeepsLast.add (h : KeepsLast done t) (hadd : t.add l = .ok u) : KeepsLast (done ++ [l]) u := by
  cases add_eq_ok_iff.mp hadd with
  | bitEnum hload =>
    rename_i m₀ enumerants bases table₀
    refine ⟨?_, ?_⟩
    · intro m table
      rw [Table.get?_insert_eq, find?_reverse_concat]
      by_cases hm : m = m₀
      · subst hm
        rw [if_pos rfl, if_pos (by simp)]
        simp [hload]
      · rw [if_neg hm, if_neg (by simpa [Kind.name_inj] using Ne.symm hm), h.masks]
    · intro e values
      rw [h.enums, find?_reverse_concat, if_neg (by simp [Kind.name_inj])]
  | valueEnum hload =>
    rename_i e₀ enumerants bases values₀
    refine ⟨?_, ?_⟩
    · intro m table
      rw [h.masks, find?_reverse_concat, if_neg (by simp [Kind.name_inj])]
    · intro e values
      rw [Table.get?_insert_eq, find?_reverse_concat]
      by_cases he : e = e₀
      · subst he
        rw [if_pos rfl, if_pos (by simp)]
        simp [hload]
      · rw [if_neg he, if_neg (by simpa [Kind.name_inj] using Ne.symm he), h.enums]
  | id => exact h.concat (by simp [Kind.name_inj]) (by simp [Kind.name_inj])
  | literal => exact h.concat (by simp [Kind.name_inj]) (by simp [Kind.name_inj])
  | string => exact h.concat (by simp [Kind.name_inj]) (by simp [Kind.name_inj])
  | composite => exact h.concat (by simp [Kind.name_inj]) (by simp [Kind.name_inj])

theorem keepsLast_of_foldlM {ls : List KindListing} (h : ls.foldlM KindTables.add ⟨.empty, .empty⟩ = .ok t) :
    KeepsLast ls t :=
  holds_foldlM KeepsLast (fun h hadd => h.add hadd) keepsLast_start h

end KindTables

/-! ## Loaded grammars -/

namespace KindListing.Consistent

variable {k : KindListing}

theorem exists_mask (h : k.Consistent) (hk : k.category = .bitEnum) : ∃ m, k.kind = (Kind.mask m).name := by
  cases h with
  | bitEnum => exact ⟨_, rfl⟩
  | _ => cases hk

theorem exists_enum (h : k.Consistent) (hk : k.category = .valueEnum) : ∃ e, k.kind = (Kind.enum e).name := by
  cases h with
  | valueEnum => exact ⟨_, rfl⟩
  | _ => cases hk

theorem mask (h : k.Consistent) {m : MaskKind} (hk : k.kind = (Kind.mask m).name) :
    k.category = .bitEnum ∧ ∃ table, loadMask k.kind (k.enumerants.getD []) = .ok table := by
  cases h with
  | bitEnum hnames haliases => exact ⟨rfl, exists_loadMask_iff.mpr ⟨hnames, haliases⟩⟩
  | _ => simp [Kind.name_inj] at hk

theorem enum (h : k.Consistent) {e : EnumKind} (hk : k.kind = (Kind.enum e).name) :
    k.category = .valueEnum ∧ ∃ values, loadValues k.kind (k.enumerants.getD []) = .ok values := by
  cases h with
  | valueEnum hnames => exact ⟨rfl, exists_loadValues_iff.mpr hnames⟩
  | _ => simp [Kind.name_inj] at hk

theorem single_bit (h : k.Consistent) (hk : k.category = .bitEnum) {e : EnumerantListing}
    (he : e ∈ k.enumerants.getD []) (hvalue : e.value ≠ 0) : ∃ bit : BitIndex, e.value.toNat = 2 ^ bit.val := by
  cases h with
  | bitEnum hnames =>
    rcases namesBits_iff.mp (hnames e he) with ⟨hzero, -⟩ | ⟨bit, -, hbit, -⟩
    · exact absurd hzero hvalue
    · exact ⟨bit, hbit⟩
  | _ => cases hk

end KindListing.Consistent

theorem bit?_of_loadMask {kind : String} {es : List EnumerantListing} {table : MaskTable Kind}
    (h : loadMask kind es = .ok table) {bit : BitIndex} {params : List OperandListing} :
    (∃ known, table.bit? bit = some known ∧ params = known.params.map Kind.listing) ↔
      ∃ f ∈ es, f.value.toNat = 2 ^ bit.val ∧ f.params = params := by
  obtain ⟨d, hd, h⟩ := bind_eq_ok_iff.mp h
  obtain rfl := Except.ok.inj h
  have hreflects := MaskDraft.reflects_of_foldlM hd
  refine ⟨?_, ?_⟩
  · intro h
    obtain ⟨known, hknown, rfl⟩ := h
    obtain ⟨f, hf, hvalue⟩ := hreflects.only hknown
    obtain ⟨known', hknown', hparams⟩ := hreflects.listed f hf bit hvalue
    obtain rfl := Option.some.inj (hknown.symm.trans hknown')
    exact ⟨f, hf, hvalue, hparams⟩
  · intro h
    obtain ⟨f, hf, hvalue, rfl⟩ := h
    exact hreflects.listed f hf bit hvalue

namespace Grammar

/-- The name of a bit is kept: the table of its mask has the bit, and the bit asks for the same operands. -/
def DefinesBit (g : Grammar) (kind : String) (e : EnumerantListing) : Prop :=
  ∃ m table bit known, kind = (Kind.mask m).name ∧ g.maskTable? (Kind.type (.mask m)) = some table ∧
    e.value.toNat = 2 ^ bit.val ∧ table.bit? bit = some known ∧ e.params = known.params.map Kind.listing

/-- The value of an enumeration is kept: it has a name. -/
def NamesValue (g : Grammar) (kind : String) (v : Word) : Prop :=
  ∃ e values, kind = (Kind.enum e).name ∧ g.values? (Kind.type (.enum e)) = some values ∧ (values.get? v).isSome

/-- An instruction is kept: it is stored under its opcode, with the types of its operands in order. -/
def Stores (g : Grammar) (i : InstructionListing) : Prop :=
  ∃ slots : List Slot, i.operands = slots.map Slot.listing ∧
    g.instructions.get? i.opcode = some ⟨i.name, slots.map .operand⟩

/-- The grammar has all of the listing. -/
structure Keeps (g : Grammar) (l : Listing) : Prop where
  instructions : ∀ i ∈ l.instructions, g.Stores i
  names : ∀ i ∈ l.instructions, g.opcode? i.name = some i.opcode
  bits : ∀ k ∈ l.kinds, k.category = .bitEnum → ∀ e ∈ k.enumerants.getD [], e.value ≠ 0 → g.DefinesBit k.kind e
  values : ∀ k ∈ l.kinds, k.category = .valueEnum → ∀ e ∈ k.enumerants.getD [], g.NamesValue k.kind e.value

/-- The grammar has nothing but what is in the listing. -/
structure DrawsOn (g : Grammar) (l : Listing) : Prop where
  instructions : ∀ {opcode d}, g.instructions.get? opcode = some d → ∃ i ∈ l.instructions,
    i.opcode = opcode ∧ i.name = d.name ∧ ∃ slots : List Slot, i.operands = slots.map Slot.listing ∧
      d.types = slots.map .operand
  names : ∀ {name opcode}, g.opcode? name = some opcode → ∃ i ∈ l.instructions, i.name = name ∧ i.opcode = opcode
  bits : ∀ {m table bit known}, g.maskTable? (Kind.type (.mask m)) = some table → table.bit? bit = some known →
    ∃ k ∈ l.kinds, k.category = .bitEnum ∧ k.kind = (Kind.mask m).name ∧
      ∃ e ∈ k.enumerants.getD [], e.value.toNat = 2 ^ bit.val ∧ e.params = known.params.map Kind.listing
  values : ∀ {e values v}, g.values? (Kind.type (.enum e)) = some values → (values.get? v).isSome →
    ∃ k ∈ l.kinds, k.category = .valueEnum ∧ k.kind = (Kind.enum e).name ∧
      ∃ f ∈ k.enumerants.getD [], f.value = v

variable {g : Grammar} {l : Listing}

theorem maskTable?_mask {m : MaskKind} : g.maskTable? (Kind.type (.mask m)) = g.masks.get? m := rfl

theorem values?_enum {e : EnumKind} : g.values? (Kind.type (.enum e)) = g.enums.get? e := rfl

/-- The opcode of a name is that of the last instruction listed with this name. -/
theorem opcode?_eq (h : ofListing l = .ok g) (name : String) :
    g.opcode? name = (l.lastNamed? name).map (·.opcode) := by
  obtain ⟨kinds, instructions, -, hinstructions, rfl⟩ := ofListing_eq_ok_iff.mp h
  rw [opcode?, InstructionTables.namesLast_of_foldlM hinstructions, lookup_map_name]
  rfl

/-- If instructions of one name have one opcode, the name leads to it. -/
theorem opcode?_of_names (h : ofListing l = .ok g)
    (hnames : ∀ i ∈ l.instructions, ∀ j ∈ l.instructions, i.name = j.name → i.opcode = j.opcode)
    {i : InstructionListing} (hi : i ∈ l.instructions) : g.opcode? i.name = some i.opcode := by
  obtain ⟨j, hlast⟩ := Listing.exists_lastNamed? hi
  obtain ⟨hj, hname⟩ := Listing.mem_of_lastNamed? hlast
  rw [opcode?_eq h, hlast, Option.map_some, hnames j hj i hi hname]

theorem consistent_of_ofListing (h : ofListing l = .ok g) : ∀ k ∈ l.kinds, k.Consistent := by
  obtain ⟨kinds, -, hkinds, -, -⟩ := ofListing_eq_ok_iff.mp h
  exact (exists_foldlM_iff_forall KindListing.Consistent KindTables.exists_add_iff _ _).mp ⟨kinds, hkinds⟩

/-- A bit is defined when the last listing of its mask names it, with what this listing says that it asks for. -/
theorem definesBit_iff (h : ofListing l = .ok g) {m : MaskKind} {bit : BitIndex} {params : List OperandListing} :
    (∃ table known, g.maskTable? (Kind.type (.mask m)) = some table ∧ table.bit? bit = some known ∧
        params = known.params.map Kind.listing) ↔
      ∃ last, l.lastKind? (Kind.mask m).name = some last ∧
        ∃ f ∈ last.enumerants.getD [], f.value.toNat = 2 ^ bit.val ∧ f.params = params := by
  have hconsistent := consistent_of_ofListing h
  obtain ⟨kinds, instructions, hkinds, -, rfl⟩ := ofListing_eq_ok_iff.mp h
  have hlast := KindTables.keepsLast_of_foldlM hkinds
  simp only [maskTable?_mask, KindTables.get?_complete]
  refine ⟨?_, ?_⟩
  · intro h
    obtain ⟨table, known, htable, hknown, hparams⟩ := h
    obtain rfl := Option.some.inj htable
    cases hget : kinds.masks.get? m with
    | none =>
      rw [hget, Option.getD_none, MaskTable.bit?_empty] at hknown
      cases hknown
    | some table =>
      rw [hget, Option.getD_some] at hknown
      obtain ⟨last, hlisted, -, hload⟩ := (hlast.masks m table).mp hget
      exact ⟨last, hlisted, (bit?_of_loadMask hload).mp ⟨known, hknown, hparams⟩⟩
  · intro h
    obtain ⟨last, hlisted, hnamed⟩ := h
    obtain ⟨hmem, hkind⟩ := Listing.mem_of_lastKind? hlisted
    obtain ⟨hcategory, table, hload⟩ := (hconsistent last hmem).mask hkind
    obtain ⟨known, hknown, hparams⟩ := (bit?_of_loadMask hload).mpr hnamed
    refine ⟨table, known, ?_, hknown, hparams⟩
    rw [(hlast.masks m table).mpr ⟨last, hlisted, hcategory, hload⟩, Option.getD_some]

/-- A value has a name when the last listing of its enumeration names it. -/
theorem namesValue_iff (h : ofListing l = .ok g) {e : EnumKind} {v : Word} :
    (∃ values, g.values? (Kind.type (.enum e)) = some values ∧ (values.get? v).isSome) ↔
      ∃ last, l.lastKind? (Kind.enum e).name = some last ∧ ∃ f ∈ last.enumerants.getD [], f.value = v := by
  have hconsistent := consistent_of_ofListing h
  obtain ⟨kinds, instructions, hkinds, -, rfl⟩ := ofListing_eq_ok_iff.mp h
  have hlast := KindTables.keepsLast_of_foldlM hkinds
  simp only [values?_enum]
  refine ⟨?_, ?_⟩
  · intro h
    obtain ⟨values, hget, hv⟩ := h
    obtain ⟨last, hlisted, -, hload⟩ := (hlast.enums e values).mp hget
    exact ⟨last, hlisted, (valuesNamed_of_loadValues hload v).mp hv⟩
  · intro h
    obtain ⟨last, hlisted, hnamed⟩ := h
    obtain ⟨hmem, hkind⟩ := Listing.mem_of_lastKind? hlisted
    obtain ⟨hcategory, values, hload⟩ := (hconsistent last hmem).enum hkind
    exact ⟨values, (hlast.enums e values).mpr ⟨last, hlisted, hcategory, hload⟩,
      (valuesNamed_of_loadValues hload v).mpr hnamed⟩

/-! ## What is kept -/

theorem stores_of_ofListing (h : ofListing l = .ok g) {i : InstructionListing} (hi : i ∈ l.instructions) :
    g.Stores i := by
  obtain ⟨kinds, instructions, -, hinstructions, rfl⟩ := ofListing_eq_ok_iff.mp h
  exact (InstructionTables.reflects_of_foldlM hinstructions).listed i hi

theorem drawsOn_of_ofListing (h : ofListing l = .ok g) : g.DrawsOn l := by
  have hconsistent := consistent_of_ofListing h
  refine ⟨?_, ?_, ?_, ?_⟩
  · intro opcode d hget
    obtain ⟨kinds, instructions, -, hinstructions, rfl⟩ := ofListing_eq_ok_iff.mp h
    have hreflects := InstructionTables.reflects_of_foldlM hinstructions
    obtain ⟨⟨i, hi, rfl⟩, -⟩ := hreflects.only hget
    obtain ⟨slots, hslots, hstored⟩ := hreflects.listed i hi
    obtain rfl := Option.some.inj (hget.symm.trans hstored)
    exact ⟨i, hi, rfl, rfl, slots, hslots, rfl⟩
  · intro name opcode hname
    rw [opcode?_eq h, Option.map_eq_some_iff] at hname
    obtain ⟨i, hlast, hopcode⟩ := hname
    obtain ⟨hi, hname⟩ := Listing.mem_of_lastNamed? hlast
    exact ⟨i, hi, hname, hopcode⟩
  · intro m table bit known htable hknown
    obtain ⟨last, hlast, hnamed⟩ := (definesBit_iff h).mp ⟨table, known, htable, hknown, rfl⟩
    obtain ⟨hmem, hkind⟩ := Listing.mem_of_lastKind? hlast
    exact ⟨last, hmem, ((hconsistent last hmem).mask hkind).1, hkind, hnamed⟩
  · intro e values v hvalues hv
    obtain ⟨last, hlast, hnamed⟩ := (namesValue_iff h).mp ⟨values, hvalues, hv⟩
    obtain ⟨hmem, hkind⟩ := Listing.mem_of_lastKind? hlast
    exact ⟨last, hmem, ((hconsistent last hmem).enum hkind).1, hkind, hnamed⟩

theorem Keeps.unshadowed (hkeeps : g.Keeps l) (h : ofListing l = .ok g) : l.Unshadowed := by
  refine ⟨?_, ?_, ?_⟩
  · intro i hi j hj hname
    apply Option.some.inj
    calc some i.opcode = g.opcode? i.name := (hkeeps.names i hi).symm
      _ = g.opcode? j.name := by rw [hname]
      _ = some j.opcode := hkeeps.names j hj
  · intro k hk hcategory e he hvalue
    obtain ⟨m, table, bit, known, hkind, htable, hbit, hknown, hparams⟩ := hkeeps.bits k hk hcategory e he hvalue
    obtain ⟨last, hlast, f, hf, hfbit, hfparams⟩ := (definesBit_iff h).mp ⟨table, known, htable, hknown, hparams⟩
    exact ⟨last, hkind ▸ hlast, f, hf, UInt32.toNat_inj.mp (hfbit.trans hbit.symm), hfparams⟩
  · intro k hk hcategory e he
    obtain ⟨enum, values, hkind, hvalues, hv⟩ := hkeeps.values k hk hcategory e he
    obtain ⟨last, hlast, hnamed⟩ := (namesValue_iff h).mp ⟨values, hvalues, hv⟩
    exact ⟨last, hkind ▸ hlast, hnamed⟩

theorem keeps_of_unshadowed (hl : l.Unshadowed) (h : ofListing l = .ok g) : g.Keeps l := by
  have hconsistent := consistent_of_ofListing h
  refine ⟨fun i hi => stores_of_ofListing h hi, fun i hi => opcode?_of_names h hl.names hi, ?_, ?_⟩
  · intro k hk hcategory e he hvalue
    obtain ⟨m, hkind⟩ := (hconsistent k hk).exists_mask hcategory
    obtain ⟨bit, hbit⟩ := (hconsistent k hk).single_bit hcategory he hvalue
    obtain ⟨last, hlast, f, hf, hfvalue, hfparams⟩ := hl.bits k hk hcategory e he hvalue
    obtain ⟨table, known, htable, hknown, hparams⟩ :=
      (definesBit_iff h).mpr ⟨last, hkind ▸ hlast, f, hf, hfvalue ▸ hbit, hfparams⟩
    exact ⟨m, table, bit, known, hkind, htable, hbit, hknown, hparams⟩
  · intro k hk hcategory e he
    obtain ⟨enum, hkind⟩ := (hconsistent k hk).exists_enum hcategory
    obtain ⟨last, hlast, hnamed⟩ := hl.values k hk hcategory e he
    obtain ⟨values, hvalues, hv⟩ := (namesValue_iff h).mpr ⟨last, hkind ▸ hlast, hnamed⟩
    exact ⟨enum, values, hkind, hvalues, hv⟩

/-- **What a loaded grammar keeps.** It has nothing but what is listed, and every instruction under its opcode. It has all
of the listing, the names, bits and values too, exactly when the last instruction with a name is the only one, and the
last listing of a kind says all that the earlier ones said. -/
theorem ofListing_keeps_iff (h : ofListing l = .ok g) :
    g.DrawsOn l ∧ (∀ i ∈ l.instructions, g.Stores i) ∧ (g.Keeps l ↔ l.Unshadowed) :=
  ⟨drawsOn_of_ofListing h, fun _ hi => stores_of_ofListing h hi, fun hkeeps => hkeeps.unshadowed h,
    fun hl => keeps_of_unshadowed hl h⟩

/-- Nothing of the sample is shadowed, so all of it is kept. -/
theorem ofListing_keeps_iff_sample : ∃ g, ofListing Sample.listing = .ok g ∧ g.DrawsOn Sample.listing ∧
    g.Keeps Sample.listing := by
  have hload : (ofListing Sample.listing >>= fun g => .ok (g.opcode? "OpNote")) = .ok (some 8) := by
    with_unfolding_all rfl
  obtain ⟨g, hg, -⟩ := bind_eq_ok_iff.mp hload
  obtain ⟨hdraws, -, hkeeps⟩ := ofListing_keeps_iff hg
  refine ⟨g, hg, hdraws, hkeeps.mpr ⟨?_, ?_, ?_⟩⟩
  · decide
  · decide
  · decide

end Grammar

namespace Sample

/-- two instructions with one name, and two listings of a mask and of an enumeration that say different things -/
def shadowed : Listing where
  magic := 0x07230203
  major := 1
  minor := 6
  revision := 1
  instructions := [⟨"OpNop", 0, []⟩, ⟨"OpNop", 1, []⟩]
  kinds := [
    ⟨.bitEnum, "MemoryAccess", some [⟨"Volatile", 1, []⟩], none⟩,
    ⟨.bitEnum, "MemoryAccess", some [⟨"Aligned", 2, [⟨"LiteralInteger", none⟩]⟩], none⟩,
    ⟨.valueEnum, "Dim", some [⟨"1D", 0, []⟩], none⟩,
    ⟨.valueEnum, "Dim", some [⟨"2D", 1, []⟩], none⟩]

end Sample

namespace Grammar

/-- **An accepted listing of which much is lost**: the first opcode of a name, a bit and a value. -/
theorem shadowed_listing_loses : ∃ g, ofListing Sample.shadowed = .ok g ∧ ¬ g.Keeps Sample.shadowed ∧
    g.opcode? "OpNop" = some 1 ∧ ¬ g.DefinesBit "MemoryAccess" ⟨"Volatile", 1, []⟩ ∧ ¬ g.NamesValue "Dim" 0 := by
  have hload : (ofListing Sample.shadowed >>= fun g => .ok (g.opcode? "OpNop")) = .ok (some 1) := by
    with_unfolding_all rfl
  obtain ⟨g, hg, hopcode⟩ := bind_eq_ok_iff.mp hload
  have hopcode : g.opcode? "OpNop" = some 1 := Except.ok.inj hopcode
  refine ⟨g, hg, ?_, hopcode, ?_, ?_⟩
  · intro hkeeps
    have hfirst : g.opcode? "OpNop" = some 0 := hkeeps.names ⟨"OpNop", 0, []⟩ (by decide)
    exact absurd (hfirst.symm.trans hopcode) (by decide)
  · rintro ⟨m, table, bit, known, hkind, htable, hbit, hknown, hparams⟩
    obtain ⟨last, hlast, f, hf, hvalue, -⟩ := (definesBit_iff hg).mp ⟨table, known, htable, hknown, hparams⟩
    have hlost : ¬ ∃ last, Sample.shadowed.lastKind? "MemoryAccess" = some last ∧
        ∃ f ∈ last.enumerants.getD [], f.value = 1 := by decide
    exact hlost ⟨last, hkind ▸ hlast, f, hf, UInt32.toNat_inj.mp (hvalue.trans hbit.symm)⟩
  · rintro ⟨e, values, hkind, hvalues, hv⟩
    obtain ⟨last, hlast, hnamed⟩ := (namesValue_iff hg).mp ⟨values, hvalues, hv⟩
    have hlost : ¬ ∃ last, Sample.shadowed.lastKind? "Dim" = some last ∧
        ∃ f ∈ last.enumerants.getD [], f.value = 0 := by decide
    exact hlost ⟨last, hkind ▸ hlast, hnamed⟩

end Grammar

end Spirv
