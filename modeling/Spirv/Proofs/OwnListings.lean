/-
The listing of a grammar. The tables of a grammar can be written down again: its instructions by their opcodes, every mask
kind with the bits of its table, and every enumeration that has values, each under the name that the table has
(`Grammar.listing`). More names may be listed behind them. They are not kept if each of them asks for what its bit asks for
and none comes before the name in the table (`Grammar.Covers`), since the name that is kept is the first of all names. So
what is loaded from such a listing is the grammar again: the codec's assumptions on a grammar are all that loading needs.

The core grammar is written as tables, and of several names of a value it has the one that is kept. It is well-formed, so
it is what its listing loads to, with the vendors' names behind. So it is a loaded grammar, and what is said of loaded
grammars holds of it.

- `MaskTable.Covers`, `Table.Covers`: names that leave a table as it is.
- `loadMask_eq_ok`, `loadValues_eq_ok`: a table from its names, in any order.
- `Grammar.consistent_listing`: the listing of a well-formed grammar is accepted.

Main results:
- `Grammar.ofListing_listing`: a well-formed grammar is what its listing loads to.
- `Grammar.ofListing_own`, `Grammar.opcode?_own`: a loaded grammar, loaded again.
- `Grammar.ofListing_core`, `Grammar.core_keeps`: the core grammar.
-/
import Spirv.Grammar.Core
import Spirv.Proofs.AliasNames

namespace Spirv

variable {kind : String} {es : List EnumerantListing} {e f : EnumerantListing}

/-! ## Bits of a mask -/

namespace MaskTable

/-- how a grammar lists a table of bits, with the name of the word without set bits -/
def listing (t : MaskTable Kind) : List EnumerantListing :=
  ⟨t.emptyName, 0, []⟩ :: t.defined.map fun b => ⟨b.2.name, b.1.toMask, b.2.params.map Kind.listing⟩

/-- a name of something in the table, which asks for the same and does not come before the name in the table -/
inductive Covers (t : MaskTable Kind) : EnumerantListing → Prop where
  | empty {name} (h : ¬name < t.emptyName) : Covers t ⟨name, 0, []⟩
  | bit {i known name} (hknown : t.bit? i = some known) (h : ¬name < known.name) :
      Covers t ⟨name, i.toMask, known.params.map Kind.listing⟩

variable {t : MaskTable Kind}

theorem covers_iff : t.Covers e ↔ (e.value = 0 ∧ e.params = [] ∧ ¬e.name < t.emptyName) ∨
    ∃ i : BitIndex, e.value = i.toMask ∧
      ∃ known ∈ t.bit? i, e.params = known.params.map Kind.listing ∧ ¬e.name < known.name := by
  obtain ⟨name, value, params⟩ := e
  constructor
  · intro h
    cases h with
    | empty h => exact .inl ⟨rfl, rfl, h⟩
    | bit hknown h => exact .inr ⟨_, rfl, _, hknown, rfl, h⟩
  · rintro (⟨rfl, rfl, h⟩ | ⟨i, rfl, known, hknown, rfl, h⟩)
    · exact .empty h
    · exact .bit hknown h

instance : Decidable (t.Covers e) := decidable_of_iff _ covers_iff.symm

theorem covers_of_mem_listing (h : e ∈ t.listing) : t.Covers e := by
  rcases List.mem_cons.mp h with rfl | h
  · exact .empty (String.lt_irrefl _)
  · obtain ⟨⟨i, known⟩, hknown, rfl⟩ := List.mem_map.mp h
    exact .bit (mem_defined_iff.mp hknown) (String.lt_irrefl _)

theorem mem_listing_of_bit? {i : BitIndex} {known : BitDef Kind} (h : t.bit? i = some known) :
    ⟨known.name, i.toMask, known.params.map Kind.listing⟩ ∈ t.listing :=
  List.mem_cons_of_mem _ (List.mem_map_of_mem (mem_defined_iff.mpr h))

namespace Covers

theorem of_zero (h : t.Covers e) (hvalue : e.value = 0) : e.params = [] ∧ ¬e.name < t.emptyName := by
  cases h with
  | empty h => exact ⟨rfl, h⟩
  | bit => exact absurd hvalue (BitIndex.toMask_ne_zero _)

theorem of_bit (h : t.Covers e) {i : BitIndex} (hvalue : e.value = i.toMask) :
    ∃ known, t.bit? i = some known ∧ e.params = known.params.map Kind.listing ∧ ¬e.name < known.name := by
  cases h with
  | empty => exact absurd hvalue.symm i.toMask_ne_zero
  | bit hknown h =>
    rw [BitIndex.toMask_inj] at hvalue
    subst hvalue
    exact ⟨_, hknown, rfl, h⟩

theorem namesBits (h : t.Covers e) (hcount : ∀ {i known}, t.bit? i = some known → known.params.length ≤ 3) :
    e.NamesBits := by
  cases h with
  | empty => exact .empty
  | bit hknown => exact namesBits_iff.mpr (.inr ⟨_, _, BitIndex.toNat_toMask _, rfl, hcount hknown⟩)

theorem agrees (h : t.Covers e) (hf : t.Covers f) : e.Agrees f := by
  intro hvalue
  cases h with
  | empty => rw [(hf.of_zero hvalue.symm).1]
  | bit hknown =>
    obtain ⟨known, hknown', hparams, -⟩ := hf.of_bit hvalue.symm
    rw [hparams, Option.some.inj (hknown.symm.trans hknown')]

end Covers

end MaskTable

section LoadedNames

variable {t : MaskTable Kind} (hcovers : ∀ e ∈ es, t.Covers e) (hlisted : ∀ e ∈ t.listing, e ∈ es)

include hcovers hlisted

/-- The name of the word without set bits is the least of its names. -/
theorem leastName_of_covers_zero : LeastName es 0 t.emptyName := by
  apply leastName_of_mem (hlisted _ List.mem_cons_self) rfl
  intro e he hvalue
  exact ((hcovers e he).of_zero hvalue).2

/-- The name of a bit is the least of its names, and a bit that is not in the table has no name. -/
theorem holdsLeast_of_covers (i : BitIndex) : HoldsLeast es i.toMask ((t.bit? i).map (·.name)) := by
  cases hknown : t.bit? i with
  | none =>
    intro e he hvalue
    obtain ⟨known, hknown', -⟩ := (hcovers e he).of_bit hvalue
    rw [hknown] at hknown'
    cases hknown'
  | some known =>
    apply leastName_of_mem (hlisted _ (MaskTable.mem_listing_of_bit? hknown)) rfl
    intro e he hvalue
    obtain ⟨known', hknown', -, hlt⟩ := (hcovers e he).of_bit hvalue
    rwa [Option.some.inj (hknown.symm.trans hknown')]

/-- Names that cover a table, in any order, load to the table if all of it is listed. -/
theorem loadMask_eq_ok (hcount : ∀ {i known}, t.bit? i = some known → known.params.length ≤ 3) :
    loadMask kind es = .ok t := by
  obtain ⟨u, hu⟩ : ∃ u, loadMask kind es = .ok u := by
    refine exists_loadMask_iff.mpr ⟨fun e he => (hcovers e he).namesBits hcount, ?_⟩
    exact List.pairwise_of_forall_mem_list fun e he f hf => (hcovers e he).agrees (hcovers f hf)
  have hsame : u = t := by
    apply MaskTable.ext_bit?
    · have hleast := leastName_emptyName hu (hlisted _ List.mem_cons_self) rfl
      exact hleast.unique (leastName_of_covers_zero hcovers hlisted) fun _ => Iff.rfl
    · intro i
      refine bit?_eq_of_listed
        (((holdsLeast_of_loadMask hu).1 i).eq_of_mem_iff (holdsLeast_of_covers hcovers hlisted i) fun _ => Iff.rfl) ?_
      intro known hknown
      -- what the bit asks for is what one of its names asks for, and all of them ask for what the table has
      obtain ⟨e, he, hvalue, hparams⟩ := (bit?_of_loadMask hu).mp ⟨known, hknown, rfl⟩
      obtain ⟨known', hknown', hparams', -⟩ := (hcovers e he).of_bit (BitIndex.toMask_eq_iff.mpr hvalue)
      exact ⟨known', hknown', hparams.symm.trans hparams'⟩
  rw [hu, hsame]

end LoadedNames

/-! ## Values of an enumeration -/

namespace Table

/-- how a grammar lists the named values of an enumeration -/
def listing (values : Table Word String) : List EnumerantListing := values.entries.map fun v => ⟨v.2, v.1, []⟩

/-- a name of a value in the table, which asks for nothing and does not come before the name in the table -/
def Covers (values : Table Word String) (e : EnumerantListing) : Prop :=
  e.params = [] ∧ ∃ name ∈ values.get? e.value, ¬e.name < name

variable {values : Table Word String}

instance : Decidable (values.Covers e) := inferInstanceAs (Decidable (_ ∧ _))

theorem covers_of_mem_listing (h : e ∈ values.listing) : values.Covers e := by
  obtain ⟨⟨v, name⟩, hmem, rfl⟩ := List.mem_map.mp h
  exact ⟨rfl, name, get?_eq_some_iff.mpr hmem, String.lt_irrefl _⟩

theorem mem_listing_of_get? {v : Word} {name : String} (h : values.get? v = some name) : ⟨name, v, []⟩ ∈ values.listing :=
  List.mem_map_of_mem (get?_eq_some_iff.mp h)

end Table

/-- Names that cover a table, in any order, load to the table if all of it is listed. -/
theorem loadValues_eq_ok {values : Table Word String} (hcovers : ∀ e ∈ es, values.Covers e)
    (hlisted : ∀ e ∈ values.listing, e ∈ es) : loadValues kind es = .ok values := by
  obtain ⟨u, hu⟩ : ∃ u, loadValues kind es = .ok u := exists_loadValues_iff.mpr fun e he => (hcovers e he).1
  have hleast (v : Word) : HoldsLeast es v (values.get? v) := by
    cases hget : values.get? v with
    | none =>
      intro e he hvalue
      obtain ⟨-, name, hname, -⟩ := hcovers e he
      rw [hvalue, hget] at hname
      cases hname
    | some name =>
      apply leastName_of_mem (hlisted _ (Table.mem_listing_of_get? hget)) rfl
      intro e he hvalue
      obtain ⟨-, name', hname', hlt⟩ := hcovers e he
      rw [hvalue] at hname'
      rwa [Option.some.inj (hget.symm.trans hname')]
  have hsame : u = values := by
    apply Table.ext_get?
    intro v
    exact (holdsLeast_of_loadValues hu v).eq_of_mem_iff (hleast v) fun _ => Iff.rfl
  rw [hu, hsame]

/-! ## The listing of a grammar -/

/-- how a grammar lists an instruction -/
def InstructionDef.listing (opcode : UInt16) (d : InstructionDef) : InstructionListing :=
  ⟨d.name, opcode, (d.types.filterMap OperandType.slot?).map Slot.listing⟩

namespace Grammar

variable (g : Grammar) (more : Kind → List EnumerantListing)

/-- how a grammar lists a kind, with more names behind those in its table; an enumeration without values is not listed -/
def kindListing? : Kind → Option KindListing
  | .id k => some ⟨.id, (Kind.id k).name, none, none⟩
  | .literal k => some ⟨.literal, (Kind.literal k).name, none, none⟩
  | .string => some ⟨.literal, Kind.string.name, none, none⟩
  | .enum e => (g.enums.get? e).map fun values =>
      ⟨.valueEnum, (Kind.enum e).name, some (values.listing ++ more (.enum e)), none⟩
  | .pair p => some ⟨.composite, (Kind.pair p).name, none, some [p.halves.1.name, p.halves.2.name]⟩
  | .mask m => (g.masks.get? m).map fun table =>
      ⟨.bitEnum, (Kind.mask m).name, some (table.listing ++ more (.mask m)), none⟩

/-- how a grammar is listed, every kind once and the instructions by their opcodes -/
def listing : Listing where
  magic := g.magic
  major := g.version.major
  minor := g.version.minor
  revision := g.version.revision
  instructions := g.instructions.entries.map fun e => e.2.listing e.1
  kinds := Kind.all.filterMap (g.kindListing? more)

/-- no more names than those that leave the tables as they are -/
structure Covers : Prop where
  masks : ∀ {m table}, g.masks.get? m = some table → ∀ e ∈ more (.mask m), table.Covers e
  enums : ∀ {k values}, g.enums.get? k = some values → ∀ e ∈ more (.enum k), values.Covers e

/-- the opcodes by name as they are when all instructions are loaded in the order of their opcodes -/
def listedOpcodes : List (String × UInt16) := (g.instructions.entries.map fun e => (e.2.name, e.1)).reverse

variable {g more}

theorem kind_of_kindListing? {k : Kind} {l : KindListing} (h : g.kindListing? more k = some l) : l.kind = k.name := by
  cases k with
  | enum e =>
    obtain ⟨values, -, rfl⟩ := Option.map_eq_some_iff.mp h
    rfl
  | mask m =>
    obtain ⟨table, -, rfl⟩ := Option.map_eq_some_iff.mp h
    rfl
  | _ =>
    obtain rfl := Option.some.inj h
    rfl

theorem mem_kinds_iff {l : KindListing} : l ∈ (g.listing more).kinds ↔ ∃ k, g.kindListing? more k = some l := by
  rw [listing, List.mem_filterMap]
  constructor
  · rintro ⟨k, -, h⟩
    exact ⟨k, h⟩
  · rintro ⟨k, h⟩
    exact ⟨k, Kind.mem_all k, h⟩

/-- Every kind is listed once, so its listing is the last. -/
theorem lastKind?_listing {k : Kind} {l : KindListing} (h : g.kindListing? more k = some l) :
    (g.listing more).lastKind? l.kind = some l := by
  refine lastKind?_of_once (mem_kinds_iff.mpr ⟨k, h⟩) ?_
  intro l' hl' hkind
  obtain ⟨k', h'⟩ := mem_kinds_iff.mp hl'
  rw [kind_of_kindListing? h, kind_of_kindListing? h', Kind.name_inj] at hkind
  rw [hkind, h] at h'
  exact (Option.some.inj h').symm

theorem mem_instructions_iff {i : InstructionListing} : i ∈ (g.listing more).instructions ↔
    ∃ opcode d, g.instructions.get? opcode = some d ∧ d.listing opcode = i := by
  simp only [listing, List.mem_map, Prod.exists, Table.get?_eq_some_iff]

theorem loadMask_listing (hg : g.WellFormed) (hmore : g.Covers more) {m : MaskKind} {table : MaskTable Kind}
    (h : g.masks.get? m = some table) : loadMask kind (table.listing ++ more (.mask m)) = .ok table := by
  refine loadMask_eq_ok ?_ (fun _ he => List.mem_append_left _ he) (hg.params h)
  rw [List.forall_mem_append]
  exact ⟨fun _ => MaskTable.covers_of_mem_listing, hmore.masks h⟩

theorem loadValues_listing (hmore : g.Covers more) {k : EnumKind} {values : Table Word String}
    (h : g.enums.get? k = some values) : loadValues kind (values.listing ++ more (.enum k)) = .ok values := by
  refine loadValues_eq_ok ?_ fun _ he => List.mem_append_left _ he
  rw [List.forall_mem_append]
  exact ⟨fun _ => Table.covers_of_mem_listing, hmore.enums h⟩

/-! ## What is listed is consistent -/

theorem consistent_kindListing (hg : g.WellFormed) (hmore : g.Covers more) {k : Kind} {l : KindListing}
    (h : g.kindListing? more k = some l) : l.Consistent := by
  cases k with
  | id =>
    obtain rfl := Option.some.inj h
    exact .id
  | literal =>
    obtain rfl := Option.some.inj h
    exact .literal
  | string =>
    obtain rfl := Option.some.inj h
    exact .string
  | enum e =>
    obtain ⟨values, hvalues, rfl⟩ := Option.map_eq_some_iff.mp h
    have hload : loadValues (Kind.enum e).name _ = .ok values := loadValues_listing hmore hvalues
    exact .valueEnum (exists_loadValues_iff.mp ⟨values, hload⟩)
  | pair =>
    obtain rfl := Option.some.inj h
    exact .composite
  | mask m =>
    obtain ⟨table, htable, rfl⟩ := Option.map_eq_some_iff.mp h
    have hload : loadMask (Kind.mask m).name _ = .ok table := loadMask_listing hg hmore htable
    obtain ⟨hnames, haliases⟩ := exists_loadMask_iff.mp ⟨table, hload⟩
    exact .bitEnum hnames haliases

/-- The types of a stored instruction are those of places, and these are what it lists. -/
theorem exists_slots (hg : g.WellFormed) {opcode : UInt16} {d : InstructionDef}
    (h : g.instructions.get? opcode = some d) : ∃ slots : List Slot, d.types = slots.map .operand ∧
      (d.listing opcode).operands = slots.map Slot.listing ∧ ∃ l, Layout.ofTypes opcode (slots.map .operand) = .ok l := by
  obtain ⟨l, hl⟩ := hg.layouts h
  have htypes : d.types = l.slots.map .operand := (Layout.ofTypes_eq_ok_iff.mp hl).2.symm
  have hslots : (l.slots.map OperandType.operand).filterMap OperandType.slot? = l.slots := by
    rw [List.filterMap_map]
    exact List.filterMap_some
  refine ⟨l.slots, htypes, ?_, l, htypes ▸ hl⟩
  rw [InstructionDef.listing, htypes, hslots]

theorem consistent_listing (hg : g.WellFormed) (hmore : g.Covers more) : (g.listing more).Consistent := by
  refine ⟨?_, ?_, ?_⟩
  · intro l hl
    obtain ⟨k, hk⟩ := mem_kinds_iff.mp hl
    exact consistent_kindListing hg hmore hk
  · intro i hi
    obtain ⟨opcode, d, hget, rfl⟩ := mem_instructions_iff.mp hi
    obtain ⟨slots, -, hoperands, hlayout⟩ := exists_slots hg hget
    exact InstructionListing.consistent_iff.mpr ⟨slots, hoperands, hlayout⟩
  · have hascending : (g.instructions.entries.map (·.1)).Nodup := by
      rw [List.nodup_iff_pairwise_ne, List.pairwise_map]
      exact g.instructions.ascending.imp fun hlt heq => absurd (congrArg rank heq) (Nat.ne_of_lt hlt)
    rwa [listing, List.map_map]

/-! ## What is loaded from it -/

section Loaded

variable {loaded : Grammar}

theorem instructions_of_listing (hg : g.WellFormed) (h : ofListing (g.listing more) = .ok loaded) :
    loaded.instructions = g.instructions := by
  apply Table.ext_get?
  intro opcode
  cases hget : g.instructions.get? opcode with
  | none =>
    -- what is loaded is listed, and only what the grammar has is listed
    rw [← Option.not_isSome_iff_eq_none, Option.isSome_iff_exists]
    rintro ⟨d, hstored⟩
    obtain ⟨i, hi, rfl, -⟩ := (drawsOn_of_ofListing h).instructions hstored
    obtain ⟨opcode, d, hget', rfl⟩ := mem_instructions_iff.mp hi
    rw [InstructionDef.listing, hget'] at hget
    cases hget
  | some d =>
    obtain ⟨slots, htypes, hoperands, -⟩ := exists_slots hg hget
    obtain ⟨slots', hlisted, hstored⟩ := stores_of_ofListing h (mem_instructions_iff.mpr ⟨opcode, d, hget, rfl⟩)
    rw [hoperands, Slot.map_listing_inj] at hlisted
    obtain ⟨name, types⟩ := d
    obtain rfl : types = slots'.map .operand := htypes.trans (congrArg _ hlisted)
    exact hstored

theorem masks_of_listing (hg : g.WellFormed) (hmore : g.Covers more) (h : ofListing (g.listing more) = .ok loaded) :
    loaded.masks = g.masks := by
  apply Table.ext_get?
  intro m
  obtain ⟨table, htable⟩ := Option.isSome_iff_exists.mp (hg.masks m)
  have hlisted : g.kindListing? more (.mask m) =
      some ⟨.bitEnum, (Kind.mask m).name, some (table.listing ++ more (.mask m)), none⟩ := by
    rw [kindListing?, htable, Option.map_some]
  obtain ⟨m', table', hkind, hstored, hload⟩ := maskTable?_of_lastKind? h (lastKind?_listing hlisted) rfl
  obtain rfl : m = m' := Kind.mask.inj (Kind.name_inj.mp hkind)
  have hsame : table' = table := Except.ok.inj (hload.symm.trans (loadMask_listing hg hmore htable))
  rw [← maskTable?_mask, hstored, htable, hsame]

theorem enums_of_listing (hmore : g.Covers more) (h : ofListing (g.listing more) = .ok loaded) :
    loaded.enums = g.enums := by
  apply Table.ext_get?
  intro e
  cases hget : g.enums.get? e with
  | none =>
    rw [← Option.not_isSome_iff_eq_none, isSome_enums_iff h]
    rintro ⟨l, hl, -, hkind⟩
    obtain ⟨k, hk⟩ := mem_kinds_iff.mp hl
    rw [kind_of_kindListing? hk, Kind.name_inj] at hkind
    rw [hkind, kindListing?, hget] at hk
    cases hk
  | some values =>
    have hlisted : g.kindListing? more (.enum e) =
        some ⟨.valueEnum, (Kind.enum e).name, some (values.listing ++ more (.enum e)), none⟩ := by
      rw [kindListing?, hget, Option.map_some]
    obtain ⟨e', values', hkind, hstored, hload⟩ := values?_of_lastKind? h (lastKind?_listing hlisted) rfl
    obtain rfl : e = e' := Kind.enum.inj (Kind.name_inj.mp hkind)
    have hsame : values' = values := Except.ok.inj (hload.symm.trans (loadValues_listing hmore hget))
    rw [← values?_enum, hstored, hsame]

end Loaded

/-! ## Main results -/

/-- **A well-formed grammar is what its listing loads to**, with any more names that its tables cover. Names of instructions
lead to their opcodes in the order of these. -/
theorem ofListing_listing (hg : g.WellFormed) (hmore : g.Covers more) :
    ofListing (g.listing more) = .ok { g with opcodes := g.listedOpcodes } := by
  obtain ⟨loaded, h⟩ := exists_ofListing (consistent_listing hg hmore)
  have hinstructions := instructions_of_listing hg h
  have hmasks := masks_of_listing hg hmore h
  have henums := enums_of_listing hmore h
  obtain ⟨kinds, instructions, -, hnames, rfl⟩ := ofListing_eq_ok_iff.mp h
  have hopcodes : instructions.opcodes = g.listedOpcodes := by
    rw [InstructionTables.namesLast_of_foldlM hnames, listing, ← List.map_reverse, List.map_map, listedOpcodes,
      ← List.map_reverse]
    rfl
  rw [h]
  simp only at hinstructions hmasks henums
  rw [hinstructions, hmasks, henums, hopcodes]
  rfl

/-- So every loaded grammar can be loaded from a listing of its own. -/
theorem ofListing_own {l : Listing} (h : ofListing l = .ok g) :
    ofListing (g.listing fun _ => []) = .ok { g with opcodes := g.listedOpcodes } :=
  ofListing_listing (wellFormed_of_ofListing h) ⟨by simp, by simp⟩

/-! ## Names of instructions -/

/-- no two instructions of the grammar share a name -/
def DistinctNames (g : Grammar) : Prop :=
  ∀ {a b d e}, g.instructions.get? a = some d → g.instructions.get? b = some e → d.name = e.name → a = b

theorem DistinctNames.names {l : Listing} (hg : g.DistinctNames) (h : ofListing l = .ok g) :
    ∀ i ∈ l.instructions, ∀ j ∈ l.instructions, i.name = j.name → i.opcode = j.opcode := by
  intro i hi j hj hname
  obtain ⟨_, _, hstored⟩ := stores_of_ofListing h hi
  obtain ⟨_, _, hstored'⟩ := stores_of_ofListing h hj
  exact hg hstored hstored' hname

/-- If no two instructions share a name, a name leads to the opcode of that name, and to no other. -/
theorem opcode?_eq_some_iff {l : Listing} (h : ofListing l = .ok g) (hg : g.DistinctNames) {name : String}
    {opcode : UInt16} : g.opcode? name = some opcode ↔ g.name? opcode = some name := by
  constructor
  · intro hopcode
    obtain ⟨i, hi, rfl, rfl⟩ := (drawsOn_of_ofListing h).names hopcode
    obtain ⟨slots, -, hstored⟩ := stores_of_ofListing h hi
    rw [name?, hstored, Option.map_some]
  · intro hname
    obtain ⟨d, hstored, rfl⟩ := Option.map_eq_some_iff.mp hname
    obtain ⟨i, hi, rfl, hname, -⟩ := (drawsOn_of_ofListing h).instructions hstored
    rw [← hname]
    exact opcode?_of_names h (hg.names h) hi

/-- Then a grammar that is loaded from its own listing has the same opcodes by name, in whatever order they were before. -/
theorem opcode?_own {l : Listing} (h : ofListing l = .ok g) (hg : g.DistinctNames) (name : String) :
    ({ g with opcodes := g.listedOpcodes } : Grammar).opcode? name = g.opcode? name := by
  apply Option.ext
  intro opcode
  rw [opcode?_eq_some_iff h hg, opcode?_eq_some_iff (ofListing_own h) hg]
  rfl

/-- Nothing in the listing of a grammar is left out by a later part of it. -/
theorem DistinctNames.unshadowed (hg : g.DistinctNames) (more : Kind → List EnumerantListing) :
    (g.listing more).Unshadowed := by
  refine ⟨?_, ?_, ?_⟩
  · intro i hi j hj hname
    obtain ⟨a, d, hd, rfl⟩ := mem_instructions_iff.mp hi
    obtain ⟨b, e, he, rfl⟩ := mem_instructions_iff.mp hj
    exact hg hd he hname
  · intro l hl _ e he _
    obtain ⟨k, hk⟩ := mem_kinds_iff.mp hl
    exact ⟨l, lastKind?_listing hk, e, he, rfl, rfl⟩
  · intro l hl _ e he
    obtain ⟨k, hk⟩ := mem_kinds_iff.mp hl
    exact ⟨l, lastKind?_listing hk, e, he, rfl⟩

/-! ## The core grammar -/

/-- the names that are listed for the core grammar and not kept, which are vendors' forms of other names -/
def Core.vendorNames : Kind → List EnumerantListing
  | .mask .imageOperands => [
    ⟨"MakeTexelAvailableKHR", 0x100, [⟨"IdScope", none⟩]⟩, ⟨"MakeTexelVisibleKHR", 0x200, [⟨"IdScope", none⟩]⟩,
    ⟨"NonPrivateTexelKHR", 0x400, []⟩, ⟨"VolatileTexelKHR", 0x800, []⟩]
  | .mask .memoryAccess => [
    ⟨"MakePointerAvailableKHR", 8, [⟨"IdScope", none⟩]⟩, ⟨"MakePointerVisibleKHR", 16, [⟨"IdScope", none⟩]⟩,
    ⟨"NonPrivatePointerKHR", 32, []⟩]
  | .enum .addressingModel => [⟨"PhysicalStorageBuffer64EXT", 5348, []⟩]
  | _ => []

/-- The core grammar has what the codec relies on. -/
theorem core_wellFormed : core.WellFormed := by
  have hlayouts : ∀ e ∈ Core.instructions.entries, (Layout.ofTypes e.1 e.2.types).isOk := by decide +kernel
  have hparams : ∀ e ∈ Core.masks.entries, ∀ b ∈ e.2.defined, b.2.params.length ≤ 3 := by decide +kernel
  refine ⟨?_, ?_, ?_⟩
  · intro opcode d hget
    have hok := hlayouts _ (Table.get?_eq_some_iff.mp hget)
    cases hl : Layout.ofTypes opcode d.types with
    | ok l => exact ⟨l, rfl⟩
    | error =>
      rw [hl] at hok
      cases hok
  · intro m
    cases m <;> rfl
  · intro m table i known hget hknown
    exact hparams _ (Table.get?_eq_some_iff.mp hget) _ (MaskTable.mem_defined_iff.mpr hknown)

theorem core_covers : core.Covers Core.vendorNames := by
  have hmasks : ∀ b ∈ Core.masks.entries, ∀ e ∈ Core.vendorNames (.mask b.1), b.2.Covers e := by decide +kernel
  have henums : ∀ v ∈ Core.enums.entries, ∀ e ∈ Core.vendorNames (.enum v.1), v.2.Covers e := by decide +kernel
  refine ⟨?_, ?_⟩
  · intro m table hget
    exact hmasks _ (Table.get?_eq_some_iff.mp hget)
  · intro k values hget
    exact henums _ (Table.get?_eq_some_iff.mp hget)

/-- **The core grammar is what its listing loads to**, with the names that are not kept. -/
theorem ofListing_core : ofListing (core.listing Core.vendorNames) = .ok core :=
  ofListing_listing core_wellFormed core_covers

theorem core_distinctNames : core.DistinctNames := by
  intro a b d e hd he hname
  have hd : (a, d) ∈ Core.instructions.entries := Table.get?_eq_some_iff.mp hd
  have he : (b, e) ∈ Core.instructions.entries := Table.get?_eq_some_iff.mp he
  exact congrArg Prod.fst (List.inj_on_of_nodup_map Core.nodup_names hd he hname)

/-- The core grammar has all of this listing, and its names and opcodes are one for one. -/
theorem core_keeps : core.Keeps (core.listing Core.vendorNames) ∧
    ∀ name opcode, core.opcode? name = some opcode ↔ core.name? opcode = some name :=
  ⟨keeps_of_unshadowed (core_distinctNames.unshadowed _) ofListing_core,
    fun _ _ => opcode?_eq_some_iff ofListing_core core_distinctNames⟩

end Grammar

end Spirv
