/-
The name that a value is stored under. Names of one value are taken in one after the other, and of two the standard one is
kept before a vendor's form of it, otherwise the first in the alphabet. A vendor's form has more letters behind the
standard name, so it comes later in the alphabet too: both rules are the same order, and what is kept in the end is the
first of all names (`LeastName`). There is one such name, whatever the order in which names are listed, so listings with
the same names in another order have the same tables.

- `preferredName_eq`: the two rules are one.
- `HoldsLeast.concat`, `HoldsLeast.eq_of_mem_iff`: one more name, and the same names in another order.
- `holdsLeast_of_loadValues`, `holdsLeast_of_loadMask`: the names in a table.
- `loadMask_perm`, `loadValues_perm`, `KindListing.Permuted.add_eq_ok_iff`: a kind with its names in another order.

Main result:
- `Grammar.alias_names_least`: the names in a loaded grammar, and its tables when names are listed in another order.
-/
import Mathlib.Data.List.Forall2
import Spirv.Proofs.MaskTexts
import Spirv.Proofs.Shadowing
import Spirv.Proofs.Utf8

namespace Spirv

/-! ## The name to keep of two -/

/-- A name with more letters behind it comes later. -/
theorem lt_of_toList_eq_append {a b : String} {suffix : List Char} (h : b.toList = a.toList ++ suffix)
    (hne : suffix ≠ []) : a < b := by
  obtain ⟨c, cs, rfl⟩ := List.exists_cons_of_ne_nil hne
  have hlt : a.toList ++ [] < a.toList ++ c :: cs := List.append_left_lt (List.nil_lt_cons c cs)
  rwa [List.append_nil, ← h] at hlt

theorem exists_suffix_of_isVendorForm {a b : String} (h : isVendorForm a b = true) :
    ∃ suffix, b.toList = a.toList ++ suffix ∧ suffix ≠ [] := by
  rw [isVendorForm, Bool.and_eq_true, Bool.and_eq_true, List.isPrefixOf_iff_prefix] at h
  obtain ⟨⟨⟨suffix, hsuffix⟩, hne⟩, -⟩ := h
  refine ⟨suffix, hsuffix.symm, ?_⟩
  rintro rfl
  rw [← hsuffix, ← String.length_toList, List.drop_left] at hne
  cases hne

/-- Both rules keep the name that comes first. -/
theorem preferredName_eq (a b : String) : preferredName a b = if b < a then b else a := by
  have hlt {a b : String} (h : isVendorForm a b = true) : a < b := by
    obtain ⟨suffix, hsuffix, hne⟩ := exists_suffix_of_isVendorForm h
    exact lt_of_toList_eq_append hsuffix hne
  rw [preferredName]
  by_cases hab : isVendorForm a b = true
  · rw [if_pos hab, if_neg (String.lt_asymm (hlt hab))]
  by_cases hba : isVendorForm b a = true
  · rw [if_neg hab, if_pos hba, if_pos (hlt hba)]
  · rw [if_neg hab, if_neg hba]

/-! ## The least name of a value -/

/-- one of the names of a value, with no other name of the value before it byte by byte -/
structure LeastName (es : List EnumerantListing) (v : Word) (name : String) : Prop where
  listed : ∃ e ∈ es, e.value = v ∧ e.name = name
  least : ∀ e ∈ es, e.value = v → ¬e.name.toUTF8.toList < name.toUTF8.toList

/-- the least name of a value, if it has a name -/
def HoldsLeast (es : List EnumerantListing) (v : Word) : Option String → Prop
  | none => ∀ e ∈ es, e.value ≠ v
  | some name => LeastName es v name

variable {es fs : List EnumerantListing} {v : Word} {name : String}

theorem LeastName.not_lt (h : LeastName es v name) {e : EnumerantListing} (he : e ∈ es) (hvalue : e.value = v) :
    ¬e.name < name := by
  rw [← Text.toUTF8_lt_iff]
  exact h.least e he hvalue

/-- The least name is no vendor's form of another. -/
theorem LeastName.toList_ne (h : LeastName es v name) {e : EnumerantListing} (he : e ∈ es) (hvalue : e.value = v)
    {suffix : List Char} (hne : suffix ≠ []) : name.toList ≠ e.name.toList ++ suffix := by
  intro hsuffix
  exact h.not_lt he hvalue (lt_of_toList_eq_append hsuffix hne)

theorem LeastName.unique {other : String} (h : LeastName es v name) (hother : LeastName fs v other)
    (hmem : ∀ e, e ∈ es ↔ e ∈ fs) : name = other := by
  obtain ⟨e, he, hvalue, rfl⟩ := h.listed
  obtain ⟨f, hf, hvalue', rfl⟩ := hother.listed
  exact String.le_antisymm (h.not_lt ((hmem f).mpr hf) hvalue') (hother.not_lt ((hmem e).mp he) hvalue)

variable {e : EnumerantListing} {name? : Option String}

/-- The least name stays, unless another name of the value comes before it. -/
theorem LeastName.concat (h : LeastName es v name) (hlt : e.value = v → ¬e.name < name) :
    LeastName (es ++ [e]) v name := by
  obtain ⟨f, hf, hvalue, hname⟩ := h.listed
  refine ⟨⟨f, List.mem_append_left _ hf, hvalue, hname⟩, ?_⟩
  rw [List.forall_mem_append, List.forall_mem_singleton, Text.toUTF8_lt_iff]
  exact ⟨h.least, hlt⟩

theorem leastName_of_mem (he : e ∈ es) (hvalue : e.value = v) (hlt : ∀ f ∈ es, f.value = v → ¬f.name < e.name) :
    LeastName es v e.name := by
  refine ⟨⟨e, he, hvalue, rfl⟩, ?_⟩
  simpa only [Text.toUTF8_lt_iff] using hlt

theorem leastName_concat (hvalue : e.value = v) (hlt : ∀ f ∈ es, f.value = v → ¬f.name < e.name) :
    LeastName (es ++ [e]) v e.name := by
  apply leastName_of_mem (List.mem_append_right _ (List.mem_singleton_self e)) hvalue
  rw [List.forall_mem_append, List.forall_mem_singleton]
  exact ⟨hlt, fun _ => String.lt_irrefl _⟩

theorem holdsLeast_nil (v : Word) : HoldsLeast [] v none := by
  intro e he
  cases he

namespace HoldsLeast

/-- A name of another value changes nothing. -/
theorem concat_of_ne (h : HoldsLeast es v name?) (hvalue : e.value ≠ v) : HoldsLeast (es ++ [e]) v name? := by
  cases name? with
  | none =>
    rw [HoldsLeast, List.forall_mem_append, List.forall_mem_singleton]
    exact ⟨h, hvalue⟩
  | some name => exact LeastName.concat h fun heq => absurd heq hvalue

/-- One more name of the value is kept if it comes first. -/
theorem concat (h : HoldsLeast es v name?) (hvalue : e.value = v) :
    HoldsLeast (es ++ [e]) v (some ((name?.map (preferredName · e.name)).getD e.name)) := by
  cases name? with
  | none => exact leastName_concat hvalue fun f hf hfvalue => absurd hfvalue (h f hf)
  | some name =>
    rw [Option.map_some, Option.getD_some, preferredName_eq]
    by_cases hlt : e.name < name
    · rw [if_pos hlt]
      apply leastName_concat hvalue
      intro f hf hfvalue hflt
      exact LeastName.not_lt h hf hfvalue (String.lt_trans hflt hlt)
    · rw [if_neg hlt]
      exact LeastName.concat h fun _ => hlt

/-- The least name does not go by the order of the names. -/
theorem eq_of_mem_iff {other? : Option String} (h : HoldsLeast es v name?) (hother : HoldsLeast fs v other?)
    (hmem : ∀ e, e ∈ es ↔ e ∈ fs) : name? = other? := by
  cases name? with
  | none =>
    cases other? with
    | none => rfl
    | some other =>
      obtain ⟨f, hf, hvalue, -⟩ := hother.listed
      exact absurd hvalue (h f ((hmem f).mpr hf))
  | some name =>
    cases other? with
    | none =>
      obtain ⟨f, hf, hvalue, -⟩ := h.listed
      exact absurd hvalue (hother f ((hmem f).mp hf))
    | some other => rw [LeastName.unique h hother hmem]

theorem exists_leastName (h : HoldsLeast es v name?) (he : e ∈ es) (hvalue : e.value = v) :
    ∃ name, name? = some name ∧ LeastName es v name := by
  cases name? with
  | none => exact absurd hvalue (h e he)
  | some name => exact ⟨name, rfl, h⟩

end HoldsLeast

/-! ## Values of an enumeration -/

theorem holdsLeast_of_loadValues {kind : String} {values : Table Word String} (h : loadValues kind es = .ok values)
    (v : Word) : HoldsLeast es v (values.get? v) := by
  have hstart : ∀ v, HoldsLeast [] v ((Table.empty : Table Word String).get? v) := holdsLeast_nil
  refine holds_foldlM (fun done (values : Table Word String) => ∀ v, HoldsLeast done v (values.get? v)) ?_ hstart h v
  intro done values e values' hvalues hadd v
  obtain ⟨-, rfl⟩ := addValue_eq_ok_iff.mp hadd
  rw [Table.get?_insert_eq]
  by_cases hv : v = e.value
  · rw [if_pos hv, hv]
    exact (hvalues e.value).concat rfl
  · rw [if_neg hv]
    exact (hvalues v).concat_of_ne (Ne.symm hv)

/-! ## Bits of a mask -/

namespace MaskDraft

/-- A draft has the least of the names it was given, for each bit and for the word without set bits. -/
structure NamesLeast (done : List EnumerantListing) (d : MaskDraft) : Prop where
  emptyName : HoldsLeast done 0 d.emptyName
  bits : ∀ bit : BitIndex, HoldsLeast done bit.toMask ((d.table.bit? bit).map (·.name))
  unnamed : d.table.emptyName = "None"

theorem namesLeast_start : NamesLeast [] .start := by
  refine ⟨holdsLeast_nil 0, ?_, rfl⟩
  intro bit
  rw [start, MaskTable.bit?_empty]
  exact holdsLeast_nil _

theorem nameWith_eq (d : MaskDraft) (bit : BitIndex) (name : String) : d.nameWith bit name =
    (((d.table.bit? bit).map (·.name)).map (preferredName · name)).getD name := by
  rw [nameWith]
  cases d.table.bit? bit <;> rfl

theorem NamesLeast.add {kind : String} {done : List EnumerantListing} {d t : MaskDraft} (h : NamesLeast done d)
    (hadd : d.add kind e = .ok t) : NamesLeast (done ++ [e]) t := by
  rcases zero_or_bit_of_add hadd with hzero | ⟨bit, hbit⟩
  · obtain ⟨-, rfl⟩ := (add_of_zero_eq_ok_iff hzero).mp hadd
    refine ⟨h.emptyName.concat hzero, ?_, h.unnamed⟩
    intro bit
    apply (h.bits bit).concat_of_ne
    rw [hzero]
    exact bit.toMask_ne_zero.symm
  · obtain ⟨params, -, -, -, rfl⟩ := (add_of_bit_eq_ok_iff hbit).mp hadd
    refine ⟨h.emptyName.concat_of_ne (Word.ne_zero_of_two_pow hbit), ?_, h.unnamed⟩
    intro bit'
    have hmask := BitIndex.toMask_eq_iff.mpr hbit
    simp only [MaskTable.bit?_define]
    by_cases heq : bit = bit'
    · rw [if_pos heq, Option.map_some, nameWith_eq, ← heq]
      exact (h.bits bit).concat hmask
    · rw [if_neg heq]
      apply (h.bits bit').concat_of_ne
      rw [hmask, Ne, BitIndex.toMask_inj]
      exact heq

end MaskDraft

/-- A loaded mask has the least name of each bit, and of the word without set bits, which is called `None` if it is not
named. -/
theorem holdsLeast_of_loadMask {kind : String} {table : MaskTable Kind} (h : loadMask kind es = .ok table) :
    (∀ bit : BitIndex, HoldsLeast es bit.toMask ((table.bit? bit).map (·.name))) ∧
      ∃ name?, HoldsLeast es 0 name? ∧ table.emptyName = name?.getD "None" := by
  obtain ⟨d, hd, h⟩ := bind_eq_ok_iff.mp h
  obtain rfl := Except.ok.inj h
  have hnames : MaskDraft.NamesLeast es d :=
    holds_foldlM MaskDraft.NamesLeast (fun h hadd => h.add hadd) MaskDraft.namesLeast_start hd
  refine ⟨hnames.bits, d.emptyName, hnames.emptyName, ?_⟩
  rw [MaskDraft.finish, hnames.unnamed]

section LoadedMask

variable {kind : String} {table : MaskTable Kind}

theorem leastName_of_loadMask (h : loadMask kind es = .ok table) (he : e ∈ es) {bit : BitIndex}
    (hbit : e.value = bit.toMask) : ∃ known, table.bit? bit = some known ∧ LeastName es e.value known.name := by
  obtain ⟨name, hnamed, hleast⟩ := ((holdsLeast_of_loadMask h).1 bit).exists_leastName he hbit
  obtain ⟨known, hknown, rfl⟩ := Option.map_eq_some_iff.mp hnamed
  exact ⟨known, hknown, hbit ▸ hleast⟩

theorem leastName_emptyName (h : loadMask kind es = .ok table) (he : e ∈ es) (hvalue : e.value = 0) :
    LeastName es 0 table.emptyName := by
  obtain ⟨-, name?, hname, hempty⟩ := holdsLeast_of_loadMask h
  obtain ⟨name, rfl, hleast⟩ := hname.exists_leastName he hvalue
  rw [hempty]
  exact hleast

theorem emptyName_of_unnamed (h : loadMask kind es = .ok table) (hnone : ∀ e ∈ es, e.value ≠ 0) :
    table.emptyName = "None" := by
  obtain ⟨-, name?, hname, hempty⟩ := holdsLeast_of_loadMask h
  have hunnamed : HoldsLeast es 0 none := hnone
  rw [hempty, hname.eq_of_mem_iff hunnamed fun _ => Iff.rfl]
  rfl

end LoadedMask

/-! ## Names in another order -/

/-- Values in another order have the same table. -/
theorem loadValues_perm {kind : String} {values : Table Word String} (hperm : es.Perm fs)
    (h : loadValues kind es = .ok values) : loadValues kind fs = .ok values := by
  have hright : ∀ f ∈ fs, f.params = [] := by
    intro f hf
    exact exists_loadValues_iff.mp ⟨values, h⟩ f (hperm.mem_iff.mpr hf)
  obtain ⟨values', h'⟩ : ∃ values', loadValues kind fs = .ok values' := exists_loadValues_iff.mpr hright
  have hsame : values' = values := by
    apply Table.ext_get?
    intro v
    exact (holdsLeast_of_loadValues h' v).eq_of_mem_iff (holdsLeast_of_loadValues h v) fun e => hperm.mem_iff.symm
  rwa [hsame] at h'

theorem MaskTable.ext_bit? {α : Type} {t u : MaskTable α} (hname : t.emptyName = u.emptyName)
    (hbits : ∀ i, t.bit? i = u.bit? i) : t = u := by
  obtain ⟨s, bits⟩ := t
  obtain ⟨s', bits'⟩ := u
  obtain rfl : s = s' := hname
  obtain rfl : bits = bits' := Vector.ext fun i hi => hbits ⟨i, hi⟩
  rfl

/-- A bit is the same in two tables if they have the same name for it and list the same operands. -/
theorem bit?_eq_of_listed {t u : MaskTable Kind} {bit : BitIndex}
    (hnamed : (t.bit? bit).map (·.name) = (u.bit? bit).map (·.name))
    (hlisted : ∀ known, t.bit? bit = some known → ∃ known', u.bit? bit = some known' ∧
      known.params.map Kind.listing = known'.params.map Kind.listing) : t.bit? bit = u.bit? bit := by
  cases hknown : t.bit? bit with
  | none =>
    rw [hknown, Option.map_none, eq_comm, Option.map_eq_none_iff] at hnamed
    exact hnamed.symm
  | some known =>
    obtain ⟨known', hknown', hparams⟩ := hlisted known hknown
    have hkinds := congrArg (List.map (·.kind)) hparams
    rw [Kind.map_kind_listing, Kind.map_kind_listing] at hkinds
    rw [hknown, hknown', Option.map_some, Option.map_some, Option.some.injEq] at hnamed
    obtain ⟨name, params⟩ := known
    obtain ⟨name', params'⟩ := known'
    obtain rfl : name = name' := hnamed
    obtain rfl : params = params' := Kind.map_name_inj.mp hkinds
    exact hknown'.symm

/-- What a bit asks for does not go by the order of its names. -/
theorem bit?_eq_of_mem_iff {kind : String} {table table' : MaskTable Kind} (h : loadMask kind es = .ok table)
    (h' : loadMask kind fs = .ok table') (hmem : ∀ e, e ∈ es ↔ e ∈ fs) (bit : BitIndex) :
    table.bit? bit = table'.bit? bit := by
  apply bit?_eq_of_listed (((holdsLeast_of_loadMask h).1 bit).eq_of_mem_iff ((holdsLeast_of_loadMask h').1 bit) hmem)
  intro known hknown
  -- one enumerant of the bit says on both sides what the bit asks for
  obtain ⟨f, hf, hvalue, hparams⟩ := (bit?_of_loadMask h).mp ⟨known, hknown, rfl⟩
  obtain ⟨known', hknown', hparams'⟩ := (bit?_of_loadMask h').mpr ⟨f, (hmem f).mp hf, hvalue, rfl⟩
  exact ⟨known', hknown', hparams.symm.trans hparams'⟩

theorem EnumerantListing.Agrees.symm {e f : EnumerantListing} (h : e.Agrees f) : f.Agrees e :=
  fun heq => (h heq.symm).symm

/-- Bits in another order have the same table. -/
theorem loadMask_perm {kind : String} {table : MaskTable Kind} (hperm : es.Perm fs)
    (h : loadMask kind es = .ok table) : loadMask kind fs = .ok table := by
  obtain ⟨hnames, haliases⟩ := exists_loadMask_iff.mp ⟨table, h⟩
  have hright : ∀ f ∈ fs, f.NamesBits := fun f hf => hnames f (hperm.mem_iff.mpr hf)
  obtain ⟨table', h'⟩ : ∃ table', loadMask kind fs = .ok table' :=
    exists_loadMask_iff.mpr ⟨hright, (hperm.pairwise_iff EnumerantListing.Agrees.symm).mp haliases⟩
  have hsame : table' = table := by
    apply MaskTable.ext_bit?
    · obtain ⟨-, name?, hname, heq⟩ := holdsLeast_of_loadMask h
      obtain ⟨-, name?', hname', heq'⟩ := holdsLeast_of_loadMask h'
      rw [heq, heq', hname.eq_of_mem_iff hname' fun e => hperm.mem_iff]
    · intro bit
      exact (bit?_eq_of_mem_iff h h' (fun e => hperm.mem_iff) bit).symm
  rwa [hsame] at h'

/-! ## Listings with enumerants in another order -/

/-- the same kind, with its enumerants in another order -/
structure KindListing.Permuted (k k' : KindListing) : Prop where
  category : k.category = k'.category
  kind : k.kind = k'.kind
  enumerants : Option.Rel List.Perm k.enumerants k'.enumerants
  bases : k.bases = k'.bases

namespace KindListing.Permuted

variable {k k' : KindListing}

theorem symm (h : k.Permuted k') : k'.Permuted k := by
  obtain ⟨hcategory, hkind, henumerants, hbases⟩ := h
  refine ⟨hcategory.symm, hkind.symm, ?_, hbases.symm⟩
  generalize k.enumerants = enumerants, k'.enumerants = enumerants' at henumerants ⊢
  cases henumerants with
  | none => exact .none
  | some hperm => exact .some hperm.symm

theorem perm_getD {enumerants enumerants' : Option (List EnumerantListing)}
    (h : Option.Rel List.Perm enumerants enumerants') : (enumerants.getD []).Perm (enumerants'.getD []) := by
  cases h with
  | none => exact .refl []
  | some hperm => exact hperm

theorem add_eq_ok {t u : KindTables} (h : k.Permuted k') (hadd : t.add k = .ok u) : t.add k' = .ok u := by
  obtain ⟨category, kind, enumerants', bases⟩ := k'
  obtain ⟨hcategory, hkind, henumerants, hbases⟩ := h
  rw [KindTables.add_eq_ok_iff] at hadd ⊢
  cases hadd with
  | bitEnum hload =>
    cases hcategory
    cases hkind
    exact .bitEnum (loadMask_perm (perm_getD henumerants) hload)
  | valueEnum hload =>
    cases hcategory
    cases hkind
    exact .valueEnum (loadValues_perm (perm_getD henumerants) hload)
  | id =>
    cases hcategory
    cases hkind
    cases henumerants
    cases hbases
    exact .id
  | literal =>
    cases hcategory
    cases hkind
    cases henumerants
    cases hbases
    exact .literal
  | string =>
    cases hcategory
    cases hkind
    cases henumerants
    cases hbases
    exact .string
  | composite =>
    cases hcategory
    cases hkind
    cases hbases
    exact .composite

theorem add_eq_ok_iff {t u : KindTables} (h : k.Permuted k') : t.add k = .ok u ↔ t.add k' = .ok u :=
  ⟨h.add_eq_ok, h.symm.add_eq_ok⟩

end KindListing.Permuted

theorem foldlM_add_of_permuted {ks ks' : List KindListing} (h : List.Forall₂ KindListing.Permuted ks ks')
    {t u : KindTables} : ks.foldlM KindTables.add t = .ok u ↔ ks'.foldlM KindTables.add t = .ok u := by
  induction h generalizing t with
  | nil => exact Iff.rfl
  | cons hk _ ih =>
    rw [foldlM_cons_eq_ok_iff, foldlM_cons_eq_ok_iff]
    refine exists_congr fun m => ?_
    rw [hk.add_eq_ok_iff, ih]

/-! ## Main result -/

namespace Grammar

variable {g : Grammar} {l : Listing}

theorem ofListing_of_permuted {kinds : List KindListing} (h : List.Forall₂ KindListing.Permuted l.kinds kinds) :
    ofListing l = .ok g ↔ ofListing { l with kinds := kinds } = .ok g := by
  rw [ofListing_eq_ok_iff, ofListing_eq_ok_iff]
  simp only [foldlM_add_of_permuted h]

/-- A kind that is listed once is listed last. -/
theorem lastKind?_of_once {k : KindListing} (hk : k ∈ l.kinds)
    (honce : ∀ k' ∈ l.kinds, k'.kind = k.kind → k' = k) : l.lastKind? k.kind = some k := by
  have hsome : (l.lastKind? k.kind).isSome := by
    rw [Listing.lastKind?, List.find?_isSome]
    exact ⟨k, List.mem_reverse.mpr hk, by simp⟩
  obtain ⟨k', hlast⟩ := Option.isSome_iff_exists.mp hsome
  obtain ⟨hmem, hkind⟩ := Listing.mem_of_lastKind? hlast
  rw [hlast, honce k' hmem hkind]

theorem maskTable?_of_lastKind? (h : ofListing l = .ok g) {k : KindListing} (hk : l.lastKind? k.kind = some k)
    (hcategory : k.category = .bitEnum) : ∃ m table, k.kind = (Kind.mask m).name ∧
      g.maskTable? (Kind.type (.mask m)) = some table ∧ loadMask k.kind (k.enumerants.getD []) = .ok table := by
  obtain ⟨hmem, -⟩ := Listing.mem_of_lastKind? hk
  obtain ⟨m, hkind⟩ := (consistent_of_ofListing h k hmem).exists_mask hcategory
  obtain ⟨-, table, hload⟩ := (consistent_of_ofListing h k hmem).mask hkind
  obtain ⟨kinds, instructions, hkinds, -, rfl⟩ := ofListing_eq_ok_iff.mp h
  rw [hkind] at hk
  have hget := ((KindTables.keepsLast_of_foldlM hkinds).masks m table).mpr ⟨k, hk, hcategory, hload⟩
  refine ⟨m, table, hkind, ?_, hload⟩
  rw [maskTable?_mask, KindTables.get?_complete, hget, Option.getD_some]

theorem values?_of_lastKind? (h : ofListing l = .ok g) {k : KindListing} (hk : l.lastKind? k.kind = some k)
    (hcategory : k.category = .valueEnum) : ∃ e values, k.kind = (Kind.enum e).name ∧
      g.values? (Kind.type (.enum e)) = some values ∧ loadValues k.kind (k.enumerants.getD []) = .ok values := by
  obtain ⟨hmem, -⟩ := Listing.mem_of_lastKind? hk
  obtain ⟨e, hkind⟩ := (consistent_of_ofListing h k hmem).exists_enum hcategory
  obtain ⟨-, values, hload⟩ := (consistent_of_ofListing h k hmem).enum hkind
  obtain ⟨kinds, instructions, hkinds, -, rfl⟩ := ofListing_eq_ok_iff.mp h
  rw [hkind] at hk
  exact ⟨e, values, hkind, ((KindTables.keepsLast_of_foldlM hkinds).enums e values).mpr ⟨k, hk, hcategory, hload⟩, hload⟩

/-- **The names in a loaded grammar.** Of a kind that is listed once, every value and every bit that is named has the least
of its names, byte by byte, and so has the mask word without set bits, which is called `None` if it is not named. The
least name is no vendor's form of another name. So listings that differ in the order of enumerants have the same grammar,
or none of them has any. -/
theorem alias_names_least (l : Listing) :
    (∀ g, ofListing l = .ok g → ∀ k ∈ l.kinds, (∀ k' ∈ l.kinds, k'.kind = k.kind → k' = k) →
      (k.category = .bitEnum → ∃ m table, k.kind = (Kind.mask m).name ∧
        g.maskTable? (Kind.type (.mask m)) = some table ∧
        (∀ e ∈ k.enumerants.getD [], e.value ≠ 0 → ∃ bit known, e.value = BitIndex.toMask bit ∧
          table.bit? bit = some known ∧ LeastName (k.enumerants.getD []) e.value known.name) ∧
        (∀ e ∈ k.enumerants.getD [], e.value = 0 → LeastName (k.enumerants.getD []) 0 table.emptyName) ∧
        ((∀ e ∈ k.enumerants.getD [], e.value ≠ 0) → table.emptyName = "None")) ∧
      (k.category = .valueEnum → ∃ enum values, k.kind = (Kind.enum enum).name ∧
        g.values? (Kind.type (.enum enum)) = some values ∧
        ∀ e ∈ k.enumerants.getD [], ∃ name, values.get? e.value = some name ∧
          LeastName (k.enumerants.getD []) e.value name)) ∧
    (∀ es v name, LeastName es v name → ∀ e ∈ es, e.value = v →
      ¬∃ suffix, suffix ≠ [] ∧ (∀ c ∈ suffix, c.isUpper) ∧ name.toList = e.name.toList ++ suffix) ∧
    ∀ kinds, List.Forall₂ KindListing.Permuted l.kinds kinds →
      ∀ g, ofListing l = .ok g ↔ ofListing { l with kinds := kinds } = .ok g := by
  refine ⟨?_, ?_, ?_⟩
  · intro g h k hk honce
    have hlast := lastKind?_of_once hk honce
    refine ⟨?_, ?_⟩
    · intro hcategory
      obtain ⟨m, table, hkind, htable, hload⟩ := maskTable?_of_lastKind? h hlast hcategory
      refine ⟨m, table, hkind, htable, ?_, fun e => leastName_emptyName hload, emptyName_of_unnamed hload⟩
      intro e he hvalue
      obtain ⟨bit, hbit⟩ := (consistent_of_ofListing h k hk).single_bit hcategory he hvalue
      have hmask := BitIndex.toMask_eq_iff.mpr hbit
      obtain ⟨known, hknown, hleast⟩ := leastName_of_loadMask hload he hmask
      exact ⟨bit, known, hmask, hknown, hleast⟩
    · intro hcategory
      obtain ⟨enum, values, hkind, hvalues, hload⟩ := values?_of_lastKind? h hlast hcategory
      refine ⟨enum, values, hkind, hvalues, ?_⟩
      intro e he
      exact (holdsLeast_of_loadValues hload e.value).exists_leastName he rfl
  · rintro es v name hleast e he hvalue ⟨suffix, hne, -, hname⟩
    exact hleast.toList_ne he hvalue hne hname
  · intro kinds hkinds g
    exact ofListing_of_permuted hkinds

end Grammar

namespace Sample

/-- a bit with a vendor's name before the standard one -/
def bitNames : List EnumerantListing :=
  [⟨"MakePointerAvailableKHR", 8, [⟨"IdScope", none⟩]⟩, ⟨"Volatile", 1, []⟩, ⟨"MakePointerAvailable", 8, [⟨"IdScope", none⟩]⟩]

/-- a value with three names, and one with one name -/
def valueNames : List EnumerantListing :=
  [⟨"PhysicalStorageBuffer64EXT", 5348, []⟩, ⟨"Logical", 0, []⟩, ⟨"Physical", 5348, []⟩,
   ⟨"PhysicalStorageBuffer64", 5348, []⟩]

def aliased : Listing where
  magic := 0x07230203
  major := 1
  minor := 6
  revision := 1
  instructions := []
  kinds := [⟨.bitEnum, "MemoryAccess", some bitNames, none⟩, ⟨.valueEnum, "AddressingModel", some valueNames, none⟩]

/-- the same kinds with their names the other way round -/
def reordered : List KindListing :=
  [⟨.bitEnum, "MemoryAccess", some bitNames.reverse, none⟩,
   ⟨.valueEnum, "AddressingModel", some valueNames.reverse, none⟩]

theorem permuted_reordered : List.Forall₂ KindListing.Permuted aliased.kinds reordered :=
  .cons ⟨rfl, rfl, .some (List.reverse_perm _).symm, rfl⟩
    (.cons ⟨rfl, rfl, .some (List.reverse_perm _).symm, rfl⟩ .nil)

end Sample

namespace Grammar

/-- The standard name of the bit, and the first of the names of the value, in both orders. -/
theorem alias_names_least_sample : ∃ g, ofListing Sample.aliased = .ok g ∧
    ofListing { Sample.aliased with kinds := Sample.reordered } = .ok g ∧
    (∃ m table, "MemoryAccess" = (Kind.mask m).name ∧ g.maskTable? (Kind.type (.mask m)) = some table ∧
      table.emptyName = "None" ∧ ∃ bit known, (8 : Word) = BitIndex.toMask bit ∧ table.bit? bit = some known ∧
        known.name = "MakePointerAvailable") ∧
    ∃ enum values, "AddressingModel" = (Kind.enum enum).name ∧ g.values? (Kind.type (.enum enum)) = some values ∧
      values.get? 5348 = some "Physical" := by
  have hload : (ofListing Sample.aliased >>= fun g => .ok (g.opcode? "OpNop")) = .ok none := by
    with_unfolding_all rfl
  obtain ⟨g, hg, -⟩ := bind_eq_ok_iff.mp hload
  obtain ⟨hnames, -, hpermuted⟩ := alias_names_least Sample.aliased
  obtain ⟨hbits, -⟩ := hnames g hg ⟨.bitEnum, "MemoryAccess", some Sample.bitNames, none⟩ (by decide) (by decide)
  obtain ⟨-, hvalues⟩ := hnames g hg ⟨.valueEnum, "AddressingModel", some Sample.valueNames, none⟩ (by decide) (by decide)
  refine ⟨g, hg, (hpermuted _ Sample.permuted_reordered g).mp hg, ?_, ?_⟩
  · obtain ⟨m, table, hkind, htable, hleast, -, hempty⟩ := hbits rfl
    obtain ⟨bit, known, hbit, hknown, hname⟩ :=
      hleast ⟨"MakePointerAvailable", 8, [⟨"IdScope", none⟩]⟩ (by decide) (by decide)
    have hstandard : LeastName Sample.bitNames 8 "MakePointerAvailable" := by
      refine ⟨by decide, ?_⟩
      simp only [Text.toUTF8_lt_iff]
      decide
    exact ⟨m, table, hkind, htable, hempty (by decide), bit, known, hbit, hknown,
      hname.unique hstandard fun _ => Iff.rfl⟩
  · obtain ⟨enum, values, hkind, hvalues, hleast⟩ := hvalues rfl
    obtain ⟨name, hget, hname⟩ := hleast ⟨"Physical", 5348, []⟩ (by decide)
    have hfirst : LeastName Sample.valueNames 5348 "Physical" := by
      refine ⟨by decide, ?_⟩
      simp only [Text.toUTF8_lt_iff]
      decide
    exact ⟨enum, values, hkind, hvalues, hname.unique hfirst (fun _ => Iff.rfl) ▸ hget⟩

end Grammar

end Spirv
