/-
A listing is accepted when it is consistent. Names, kinds and instructions are taken in one after the other, and each time
what was taken in before has a part in it: a bit may be named again if the names agree, and an opcode may not be used
again. So for each of them it is said what the tables in the making hold (`MaskDraft.Reflects`,
`InstructionTables.Reflects`), and a step is accepted when the new element is right in itself and goes with everything that
the tables hold. By induction a whole list is accepted when every element is right and any two go together.

The first of two names of a bit may have been replaced by then. The table keeps what the bit asks for, not the names, and
by `Reflects.listed` that is what every earlier name of this bit asks for.

- `exists_foldlM_iff`, `holds_foldlM`: the induction, for all lists of a listing.
- `MaskDraft.Reflects.exists_add_iff`, `KindTables.exists_add_iff`, `InstructionTables.Reflects.exists_add_iff`: one step.
- `MaskDraft.Reflects.add`, `InstructionTables.Reflects.add`: what a step keeps.

Main result:
- `Grammar.ofListing_accepts_consistent`: the accepted listings are the consistent ones.
-/
import Spirv.Proofs.Listings
import Spirv.Proofs.SetBits

namespace Spirv

/-! ## One after the other -/

section Fold

variable {σ α ε : Type} {f : σ → α → Except ε σ} (Holds : List α → σ → Prop)

theorem foldlM_cons_eq_ok_iff {s t : σ} {a : α} {l : List α} :
    (a :: l).foldlM f s = .ok t ↔ ∃ m, f s a = .ok m ∧ l.foldlM f m = .ok t := by
  rw [List.foldlM_cons, bind_eq_ok_iff]

/-- What every step keeps, with what was taken in before it, a whole run keeps. -/
theorem holds_foldlM (keeps : ∀ {done s a t}, Holds done s → f s a = .ok t → Holds (done ++ [a]) t) {done : List α}
    {s t : σ} {l : List α} (hs : Holds done s) (h : l.foldlM f s = .ok t) : Holds (done ++ l) t := by
  induction l generalizing done s with
  | nil =>
    obtain rfl := Except.ok.inj h
    rwa [List.append_nil]
  | cons a l ih =>
    obtain ⟨m, hm, h⟩ := foldlM_cons_eq_ok_iff.mp h
    rw [List.append_cons]
    exact ih (keeps hs hm) h

/-- If a step takes in whatever is right in itself and goes with everything before it, then a run takes in whatever is
right in itself, as long as any two of them go together. -/
theorem exists_foldlM_iff (P : α → Prop) (R : α → α → Prop)
    (accepts : ∀ {done s a}, Holds done s → ((∃ t, f s a = .ok t) ↔ P a ∧ ∀ b ∈ done, R b a))
    (keeps : ∀ {done s a t}, Holds done s → f s a = .ok t → Holds (done ++ [a]) t) {done : List α} {s : σ}
    (hs : Holds done s) (l : List α) :
    (∃ t, l.foldlM f s = .ok t) ↔ (∀ a ∈ l, P a) ∧ l.Pairwise R ∧ ∀ b ∈ done, ∀ a ∈ l, R b a := by
  induction l generalizing done s with
  | nil => exact iff_of_true ⟨s, rfl⟩ (by simp)
  | cons a l ih =>
    simp only [foldlM_cons_eq_ok_iff, List.forall_mem_cons, List.pairwise_cons]
    refine ⟨?_, ?_⟩
    · intro h
      obtain ⟨t, m, hm, h⟩ := h
      obtain ⟨ha, hdone⟩ := (accepts hs).mp ⟨m, hm⟩
      obtain ⟨hl, hpairs, hbefore⟩ := (ih (keeps hs hm)).mp ⟨t, h⟩
      refine ⟨⟨ha, hl⟩, ⟨hbefore a (by simp), hpairs⟩, ?_⟩
      intro b hb
      exact ⟨hdone b hb, hbefore b (List.mem_append_left _ hb)⟩
    · intro h
      obtain ⟨⟨ha, hl⟩, ⟨hrest, hpairs⟩, hbefore⟩ := h
      obtain ⟨m, hm⟩ := (accepts hs).mpr ⟨ha, fun b hb => (hbefore b hb).1⟩
      have hmore : ∀ b ∈ done ++ [a], ∀ c ∈ l, R b c := by
        intro b hb
        rcases List.mem_append.mp hb with hb | hb
        · exact (hbefore b hb).2
        · rw [List.mem_singleton.mp hb]
          exact hrest
      obtain ⟨t, h⟩ := (ih (keeps hs hm)).mpr ⟨hl, hpairs, hmore⟩
      exact ⟨t, m, hm, h⟩

/-- If a step goes by what is taken in alone, so does a run. -/
theorem exists_foldlM_iff_forall (P : α → Prop) (accepts : ∀ {s a}, (∃ t, f s a = .ok t) ↔ P a) (s : σ) (l : List α) :
    (∃ t, l.foldlM f s = .ok t) ↔ ∀ a ∈ l, P a := by
  have hfold := @exists_foldlM_iff σ α ε f (fun _ _ => True) P (fun _ _ => True) (by simp [accepts]) (by simp) [] s
    trivial l
  simpa [List.pairwise_of_forall] using hfold

end Fold

/-! ## Masks -/

theorem namesBits_iff {e : EnumerantListing} : e.NamesBits ↔ (e.value = 0 ∧ e.params = []) ∨
    ∃ (bit : BitIndex) (params : List Kind), e.value.toNat = 2 ^ bit.val ∧ e.params = params.map Kind.listing ∧
      params.length ≤ maxParams := by
  obtain ⟨name, value, params⟩ := e
  refine ⟨?_, ?_⟩
  · intro h
    cases h with
    | empty => exact .inl ⟨rfl, rfl⟩
    | bit n hvalue hcount hparams =>
      obtain ⟨ks, rfl⟩ := exists_eq_map_iff.mpr fun p hp => Kind.exists_listing_iff.mpr (hparams p hp)
      refine .inr ⟨⟨n, Word.lt_of_two_pow hvalue⟩, ks, hvalue, rfl, ?_⟩
      rwa [List.length_map] at hcount
  · intro h
    rcases h with ⟨rfl, rfl⟩ | ⟨bit, ks, hvalue, hparams, hcount⟩
    · exact .empty
    · refine .bit bit.val hvalue ?_ ?_
      · rw [show params = ks.map Kind.listing from hparams, List.length_map]
        exact hcount
      · intro p hp
        apply Kind.exists_listing_iff.mp
        exact exists_eq_map_iff.mp ⟨ks, hparams⟩ p hp

theorem params_of_namesBits {e : EnumerantListing} (h : e.NamesBits) (hvalue : e.value = 0) : e.params = [] := by
  cases h with
  | empty => rfl
  | bit n hn => exact absurd hvalue (Word.ne_zero_of_two_pow hn)

namespace MaskDraft

variable {kind : String} {d t : MaskDraft} {e : EnumerantListing}

/-- the name of a bit after one more name for it -/
def nameWith (d : MaskDraft) (bit : BitIndex) (name : String) : String :=
  ((d.table.bit? bit).map fun known => preferredName known.name name).getD name

theorem add_of_zero_eq_ok_iff (hvalue : e.value = 0) : d.add kind e = .ok t ↔ e.params = [] ∧
    t = { d with emptyName := some ((d.emptyName.map (preferredName · e.name)).getD e.name) } := by
  rw [add, if_pos hvalue]
  cases e.params with
  | nil => simp [eq_comm]
  | cons p ps => simp

theorem add_of_bit_eq_ok_iff {bit : BitIndex} (hvalue : e.value.toNat = 2 ^ bit.val) : d.add kind e = .ok t ↔
    ∃ params : List Kind, e.params = params.map Kind.listing ∧ params.length ≤ maxParams ∧
      (∀ known, d.table.bit? bit = some known → known.params = params) ∧
      t = { d with table := d.table.define bit ⟨d.nameWith bit e.name, params⟩ } := by
  rw [add, if_neg (Word.ne_zero_of_two_pow hvalue), Word.singleBit?_eq_some_iff.mpr hvalue, nameWith]
  simp only [bind_eq_ok_iff, loadParams_eq_ok_iff (Nat.zero_le maxParams), Nat.zero_add, and_assoc]
  apply exists_congr
  intro params
  refine and_congr_right fun _ => and_congr_right fun _ => ?_
  cases d.table.bit? bit with
  | none => simp [pure, Except.pure, eq_comm]
  | some known =>
    by_cases hsame : known.params = params
    · simp [hsame, pure, Except.pure, eq_comm]
    · simp [hsame]

theorem zero_or_bit_of_add (h : d.add kind e = .ok t) : e.value = 0 ∨ ∃ bit : BitIndex, e.value.toNat = 2 ^ bit.val := by
  by_cases hvalue : e.value = 0
  · exact .inl hvalue
  · rw [add, if_neg hvalue] at h
    cases hbit : e.value.singleBit? with
    | none =>
      rw [hbit] at h
      cases h
    | some bit => exact .inr ⟨bit, Word.singleBit?_eq_some_iff.mp hbit⟩

/-- What a draft holds after these names. A bit is defined when it was named, with what every name of it asks for. -/
structure Reflects (done : List EnumerantListing) (d : MaskDraft) : Prop where
  names : ∀ e ∈ done, e.NamesBits
  listed : ∀ e ∈ done, ∀ bit : BitIndex, e.value.toNat = 2 ^ bit.val →
    ∃ known, d.table.bit? bit = some known ∧ e.params = known.params.map Kind.listing
  only : ∀ {bit known}, d.table.bit? bit = some known → ∃ e ∈ done, e.value.toNat = 2 ^ bit.val

theorem reflects_start : Reflects [] .start := by
  refine ⟨by simp, by simp, ?_⟩
  intro bit known h
  rw [start, MaskTable.bit?_empty] at h
  cases h

variable {done : List EnumerantListing}

theorem namesBits_of_add (h : d.add kind e = .ok t) : e.NamesBits := by
  rw [namesBits_iff]
  rcases zero_or_bit_of_add h with hvalue | ⟨bit, hvalue⟩
  · exact .inl ⟨hvalue, ((add_of_zero_eq_ok_iff hvalue).mp h).1⟩
  · obtain ⟨params, hparams, hcount, -⟩ := (add_of_bit_eq_ok_iff hvalue).mp h
    exact .inr ⟨bit, params, hvalue, hparams, hcount⟩

theorem Reflects.names_concat (h : Reflects done d) (hnames : e.NamesBits) : ∀ b ∈ done ++ [e], b.NamesBits := by
  rw [List.forall_mem_append, List.forall_mem_singleton]
  exact ⟨h.names, hnames⟩

theorem Reflects.nameEmpty (h : Reflects done d) (hnames : e.NamesBits) (hvalue : e.value = 0) (name : Option String) :
    Reflects (done ++ [e]) { d with emptyName := name } := by
  refine ⟨h.names_concat hnames, ?_, ?_⟩
  · rw [List.forall_mem_append, List.forall_mem_singleton]
    exact ⟨h.listed, fun bit hbit => absurd hvalue (Word.ne_zero_of_two_pow hbit)⟩
  · intro bit known hknown
    obtain ⟨b, hb, hbit⟩ := h.only hknown
    exact ⟨b, List.mem_append_left _ hb, hbit⟩

theorem Reflects.define {bit : BitIndex} {params : List Kind} (h : Reflects done d) (hnames : e.NamesBits)
    (hvalue : e.value.toNat = 2 ^ bit.val) (hparams : e.params = params.map Kind.listing)
    (hsame : ∀ known, d.table.bit? bit = some known → known.params = params) (name : String) :
    Reflects (done ++ [e]) { d with table := d.table.define bit ⟨name, params⟩ } := by
  refine ⟨h.names_concat hnames, ?_, ?_⟩
  · intro b hb bit' hbit'
    rw [MaskTable.bit?_define]
    by_cases heq : bit = bit'
    · subst heq
      rw [if_pos rfl]
      refine ⟨_, rfl, ?_⟩
      rcases List.mem_append.mp hb with hb | hb
      · -- an earlier name of the same bit asked for the same
        obtain ⟨known, hknown, hbparams⟩ := h.listed b hb bit hbit'
        rw [hbparams, hsame known hknown]
      · rw [List.mem_singleton.mp hb, hparams]
    · rw [if_neg heq]
      rcases List.mem_append.mp hb with hb | hb
      · exact h.listed b hb bit' hbit'
      · rw [List.mem_singleton.mp hb, hvalue] at hbit'
        exact absurd (Fin.ext ((Nat.pow_right_inj (by omega)).mp hbit')) heq
  · intro bit' known hknown
    rw [MaskTable.bit?_define] at hknown
    by_cases heq : bit = bit'
    · exact ⟨e, by simp, heq ▸ hvalue⟩
    · rw [if_neg heq] at hknown
      obtain ⟨b, hb, hbit⟩ := h.only hknown
      exact ⟨b, List.mem_append_left _ hb, hbit⟩

theorem Reflects.add (h : Reflects done d) (hadd : d.add kind e = .ok t) : Reflects (done ++ [e]) t := by
  have hnames : e.NamesBits := namesBits_of_add hadd
  rcases zero_or_bit_of_add hadd with hvalue | ⟨bit, hvalue⟩
  · obtain ⟨-, rfl⟩ := (add_of_zero_eq_ok_iff hvalue).mp hadd
    exact h.nameEmpty hnames hvalue _
  · obtain ⟨params, hparams, -, hsame, rfl⟩ := (add_of_bit_eq_ok_iff hvalue).mp hadd
    exact h.define hnames hvalue hparams hsame _

/-- A name is taken in when it names a bit, and asks for what the other names of this bit ask for. -/
theorem Reflects.exists_add_iff (h : Reflects done d) :
    (∃ t, d.add kind e = .ok t) ↔ e.NamesBits ∧ ∀ b ∈ done, b.Agrees e := by
  refine ⟨?_, ?_⟩
  · intro hadd
    obtain ⟨t, hadd⟩ := hadd
    refine ⟨namesBits_of_add hadd, ?_⟩
    intro b hb hvalue
    rcases zero_or_bit_of_add hadd with hzero | ⟨bit, hbit⟩
    · obtain ⟨hparams, -⟩ := (add_of_zero_eq_ok_iff hzero).mp hadd
      rw [hparams, params_of_namesBits (h.names b hb) (hvalue.trans hzero)]
    · obtain ⟨params, hparams, -, hsame, -⟩ := (add_of_bit_eq_ok_iff hbit).mp hadd
      obtain ⟨known, hknown, hbparams⟩ := h.listed b hb bit (by rw [hvalue, hbit])
      rw [hparams, hbparams, hsame known hknown]
  · intro hright
    obtain ⟨hnames, hagrees⟩ := hright
    rcases namesBits_iff.mp hnames with ⟨hvalue, hparams⟩ | ⟨bit, params, hvalue, hparams, hcount⟩
    · exact ⟨_, (add_of_zero_eq_ok_iff hvalue).mpr ⟨hparams, rfl⟩⟩
    · refine ⟨_, (add_of_bit_eq_ok_iff hvalue).mpr ⟨params, hparams, hcount, ?_, rfl⟩⟩
      intro known hknown
      obtain ⟨b, hb, hbit⟩ := h.only hknown
      obtain ⟨known', hknown', hbparams⟩ := h.listed b hb bit hbit
      obtain rfl := Option.some.inj (hknown.symm.trans hknown')
      have hkinds := hagrees b hb (UInt32.toNat_inj.mp (hbit.trans hvalue.symm))
      rw [hbparams, hparams, Kind.map_kind_listing, Kind.map_kind_listing] at hkinds
      exact Kind.map_name_inj.mp hkinds

theorem exists_foldlM_add_iff (kind : String) (es : List EnumerantListing) :
    (∃ t, es.foldlM (MaskDraft.add kind) .start = .ok t) ↔
      (∀ e ∈ es, e.NamesBits) ∧ es.Pairwise EnumerantListing.Agrees := by
  rw [exists_foldlM_iff Reflects EnumerantListing.NamesBits EnumerantListing.Agrees (fun h => h.exists_add_iff)
    (fun h hadd => h.add hadd) reflects_start]
  simp

theorem reflects_of_foldlM {es : List EnumerantListing} (h : es.foldlM (MaskDraft.add kind) .start = .ok t) :
    Reflects es t :=
  holds_foldlM Reflects (fun h hadd => h.add hadd) reflects_start h

end MaskDraft

theorem exists_loadMask_iff {kind : String} {es : List EnumerantListing} : (∃ table, loadMask kind es = .ok table) ↔
    (∀ e ∈ es, e.NamesBits) ∧ es.Pairwise EnumerantListing.Agrees := by
  rw [← MaskDraft.exists_foldlM_add_iff kind, loadMask]
  simp only [bind_eq_ok_iff]
  refine ⟨?_, ?_⟩
  · intro h
    obtain ⟨table, d, h, -⟩ := h
    exact ⟨d, h⟩
  · intro h
    obtain ⟨d, h⟩ := h
    exact ⟨d.finish, d, h, rfl⟩

/-! ## Values -/

theorem addValue_eq_ok_iff {kind : String} {values values' : Table Word String} {e : EnumerantListing} :
    addValue kind values e = .ok values' ↔ e.params = [] ∧
      values' = values.insert e.value (((values.get? e.value).map (preferredName · e.name)).getD e.name) := by
  rw [addValue]
  cases e.params with
  | nil => simp [eq_comm]
  | cons p ps => simp

theorem exists_loadValues_iff {kind : String} {es : List EnumerantListing} :
    (∃ values, loadValues kind es = .ok values) ↔ ∀ e ∈ es, e.params = [] :=
  exists_foldlM_iff_forall (fun e => e.params = []) (by simp [addValue_eq_ok_iff]) Table.empty es

/-! ## Kinds -/

namespace KindTables

/-- All that taking in a listed kind can do. -/
inductive Adds (t : KindTables) : KindListing → KindTables → Prop where
  | bitEnum {m enumerants bases table} (h : loadMask (Kind.mask m).name (enumerants.getD []) = .ok table) :
      Adds t ⟨.bitEnum, (Kind.mask m).name, enumerants, bases⟩ { t with masks := t.masks.insert m table }
  | valueEnum {k enumerants bases values} (h : loadValues (Kind.enum k).name (enumerants.getD []) = .ok values) :
      Adds t ⟨.valueEnum, (Kind.enum k).name, enumerants, bases⟩ { t with enums := t.enums.insert k values }
  | id {k} : Adds t ⟨.id, (Kind.id k).name, none, none⟩ t
  | literal {k} : Adds t ⟨.literal, (Kind.literal k).name, none, none⟩ t
  | string : Adds t ⟨.literal, Kind.string.name, none, none⟩ t
  | composite {p enumerants} :
      Adds t ⟨.composite, (Kind.pair p).name, enumerants, some [p.halves.1.name, p.halves.2.name]⟩ t

variable {t u : KindTables} {l : KindListing}

theorem mapM_bases_eq_ok_iff {bases : Option (List String)} {ks : List Kind} :
    bases.mapM (·.mapM kindNamed) = .ok (some ks) ↔ bases = some (ks.map Kind.name) := by
  cases bases with
  | none => simp [pure, Except.pure]
  | some names =>
    rw [Option.mapM_some, Option.some.injEq, ← mapM_kindNamed_eq_ok_iff]
    cases names.mapM kindNamed <;> simp [Functor.map, Except.map]

theorem eq_of_no_parts {enumerants : Option (List EnumerantListing)} {bases : Option (List String)}
    (h : (if enumerants.isNone && bases.isNone then .ok t else .error LoadFault.partsOfPlainKind) = Except.ok u) :
    enumerants = none ∧ bases = none ∧ u = t := by
  split at h
  · rename_i hparts
    rw [Bool.and_eq_true, Option.isNone_iff_eq_none, Option.isNone_iff_eq_none] at hparts
    exact ⟨hparts.1, hparts.2, (Except.ok.inj h).symm⟩
  · cases h

theorem adds_of_add (h : t.add l = .ok u) : t.Adds l u := by
  obtain ⟨category, name, enumerants, bases⟩ := l
  obtain ⟨kind, hkind, h⟩ := bind_eq_ok_iff.mp h
  obtain rfl := kindNamed_eq_ok_iff.mp hkind
  simp only at h
  split at h
  · obtain ⟨table, htable, h⟩ := bind_eq_ok_iff.mp h
    obtain rfl := Except.ok.inj h
    exact .bitEnum htable
  · obtain ⟨values, hvalues, h⟩ := bind_eq_ok_iff.mp h
    obtain rfl := Except.ok.inj h
    exact .valueEnum hvalues
  · obtain ⟨ks, hbases, h⟩ := bind_eq_ok_iff.mp h
    split at h
    · rename_i hks
      obtain rfl := Except.ok.inj h
      rw [hks, mapM_bases_eq_ok_iff] at hbases
      obtain rfl := hbases
      exact .composite
    · cases h
  · obtain ⟨rfl, rfl, rfl⟩ := eq_of_no_parts h
    exact .id
  · obtain ⟨rfl, rfl, rfl⟩ := eq_of_no_parts h
    exact .literal
  · obtain ⟨rfl, rfl, rfl⟩ := eq_of_no_parts h
    exact .string
  · cases h

theorem add_of_adds (h : t.Adds l u) : t.add l = .ok u := by
  have hkind (k : Kind) : kindNamed k.name = .ok k := kindNamed_eq_ok_iff.mpr rfl
  cases h with
  | bitEnum h => simp only [add, hkind, h]; rfl
  | valueEnum h => simp only [add, hkind, h]; rfl
  | id => simp only [add, hkind]; rfl
  | literal => simp only [add, hkind]; rfl
  | string => simp only [add, hkind]; rfl
  | composite =>
    rename_i p enumerants
    have hbases : (some [p.halves.1.name, p.halves.2.name]).mapM (·.mapM kindNamed) =
        .ok (some [p.halves.1, p.halves.2]) := mapM_bases_eq_ok_iff.mpr rfl
    simp only [add, hkind, hbases]
    exact if_pos rfl

theorem add_eq_ok_iff : t.add l = .ok u ↔ t.Adds l u := ⟨adds_of_add, add_of_adds⟩

theorem exists_add_iff : (∃ u, t.add l = .ok u) ↔ l.Consistent := by
  simp only [add_eq_ok_iff]
  refine ⟨?_, ?_⟩
  · intro h
    obtain ⟨u, h⟩ := h
    cases h with
    | bitEnum h =>
      obtain ⟨hnames, haliases⟩ := exists_loadMask_iff.mp ⟨_, h⟩
      exact .bitEnum hnames haliases
    | valueEnum h => exact .valueEnum (exists_loadValues_iff.mp ⟨_, h⟩)
    | id => exact .id
    | literal => exact .literal
    | string => exact .string
    | composite => exact .composite
  · intro h
    cases h with
    | bitEnum hnames haliases =>
      obtain ⟨table, h⟩ := exists_loadMask_iff.mpr ⟨hnames, haliases⟩
      exact ⟨_, .bitEnum h⟩
    | valueEnum hnames =>
      obtain ⟨values, h⟩ := exists_loadValues_iff.mpr hnames
      exact ⟨_, .valueEnum h⟩
    | id => exact ⟨t, .id⟩
    | literal => exact ⟨t, .literal⟩
    | string => exact ⟨t, .string⟩
    | composite => exact ⟨t, .composite⟩

end KindTables

/-! ## Instructions -/

/-- The operands of a consistent instruction list the places of a layout. -/
theorem InstructionListing.consistent_iff {i : InstructionListing} : i.Consistent ↔
    ∃ slots : List Slot, i.operands = slots.map Slot.listing ∧
      ∃ l, Layout.ofTypes i.opcode (slots.map .operand) = .ok l := by
  have hrepeated {slots : List Slot} : (∀ o ∈ (slots.map Slot.listing).dropLast, o.quantifier ≠ some .repeated) ↔
      ∀ s ∈ slots.dropLast, s.presence ≠ .repeated := by
    rw [← List.map_dropLast, List.forall_mem_map]
    refine forall_congr' fun s => imp_congr_right fun _ => ?_
    obtain ⟨presence, k⟩ := s
    cases presence <;> simp [Slot.listing, Presence.quantifier]
  refine ⟨?_, ?_⟩
  · intro h
    obtain ⟨slots, hslots⟩ := exists_eq_map_iff.mpr fun o ho => Slot.exists_listing_iff.mpr (h.known o ho)
    have hlast := h.repeated_last
    rw [hslots, hrepeated] at hlast
    exact ⟨slots, hslots, Layout.exists_ofTypes_iff.mpr hlast⟩
  · intro h
    obtain ⟨slots, hslots, hl⟩ := h
    refine ⟨?_, ?_⟩
    · intro o ho
      exact Slot.exists_listing_iff.mp (exists_eq_map_iff.mp ⟨slots, hslots⟩ o ho)
    · rw [hslots, hrepeated]
      exact Layout.exists_ofTypes_iff.mp hl

namespace InstructionTables

variable {t u : InstructionTables} {i : InstructionListing}

/-- the tables with one more instruction -/
def insert (t : InstructionTables) (i : InstructionListing) (slots : List Slot) : InstructionTables :=
  ⟨t.instructions.insert i.opcode ⟨i.name, slots.map .operand⟩, (i.name, i.opcode) :: t.opcodes⟩

/-- All that taking in a listed instruction can do. -/
theorem add_eq_ok_iff : t.add i = .ok u ↔ ∃ slots : List Slot, i.operands = slots.map Slot.listing ∧
    (∃ l, Layout.ofTypes i.opcode (slots.map .operand) = .ok l) ∧ t.instructions.get? i.opcode = none ∧
      u = t.insert i slots := by
  rw [add, bind_eq_ok_iff]
  simp only [mapM_type_eq_ok_iff]
  refine ⟨?_, ?_⟩
  · intro h
    obtain ⟨types, ⟨slots, hslots, rfl⟩, h⟩ := h
    split at h
    · cases h
    · rename_i l hl
      cases hknown : t.instructions.get? i.opcode with
      | some d =>
        rw [hknown] at h
        cases h
      | none =>
        rw [hknown] at h
        exact ⟨slots, hslots, ⟨l, hl⟩, rfl, (Except.ok.inj h).symm⟩
  · intro h
    obtain ⟨slots, hslots, ⟨l, hl⟩, hknown, rfl⟩ := h
    refine ⟨slots.map .operand, ⟨slots, hslots, rfl⟩, ?_⟩
    simp only [hl, hknown]
    rfl

/-- What the tables hold after these instructions: each under its opcode, and all with a layout. -/
structure Reflects (done : List InstructionListing) (t : InstructionTables) : Prop where
  listed : ∀ i ∈ done, ∃ slots : List Slot, i.operands = slots.map Slot.listing ∧
    t.instructions.get? i.opcode = some ⟨i.name, slots.map .operand⟩
  only : ∀ {opcode d}, t.instructions.get? opcode = some d →
    (∃ i ∈ done, i.opcode = opcode) ∧ ∃ l, Layout.ofTypes opcode d.types = .ok l

theorem reflects_start : Reflects [] ⟨.empty, []⟩ := by
  refine ⟨by simp, ?_⟩
  intro opcode d h
  cases h

variable {done : List InstructionListing}

theorem Reflects.get?_eq_none_iff (h : Reflects done t) {opcode : UInt16} :
    t.instructions.get? opcode = none ↔ ∀ j ∈ done, j.opcode ≠ opcode := by
  refine ⟨?_, ?_⟩
  · intro hnone j hj heq
    obtain ⟨slots, -, hget⟩ := h.listed j hj
    rw [heq, hnone] at hget
    cases hget
  · intro hnew
    cases hget : t.instructions.get? opcode with
    | none => rfl
    | some d =>
      obtain ⟨⟨j, hj, heq⟩, -⟩ := h.only hget
      exact absurd heq (hnew j hj)

theorem Reflects.add (h : Reflects done t) (hadd : t.add i = .ok u) : Reflects (done ++ [i]) u := by
  obtain ⟨slots, hslots, ⟨l, hl⟩, hfree, rfl⟩ := add_eq_ok_iff.mp hadd
  refine ⟨?_, ?_⟩
  · rw [List.forall_mem_append, List.forall_mem_singleton]
    refine ⟨?_, slots, hslots, ?_⟩
    · intro j hj
      obtain ⟨slots', hslots', hget⟩ := h.listed j hj
      have hne : j.opcode ≠ i.opcode := h.get?_eq_none_iff.mp hfree j hj
      refine ⟨slots', hslots', ?_⟩
      rw [insert, Table.get?_insert_eq, if_neg hne, hget]
    · rw [insert, Table.get?_insert_eq, if_pos rfl]
  · intro opcode d hget
    rw [insert, Table.get?_insert_eq] at hget
    split at hget
    · rename_i heq
      obtain rfl := Option.some.inj hget
      exact ⟨⟨i, by simp, heq.symm⟩, l, heq ▸ hl⟩
    · obtain ⟨⟨j, hj, hopcode⟩, hlayout⟩ := h.only hget
      exact ⟨⟨j, List.mem_append_left _ hj, hopcode⟩, hlayout⟩

/-- An instruction is taken in when its operands are a layout and its opcode is new. -/
theorem Reflects.exists_add_iff (h : Reflects done t) :
    (∃ u, t.add i = .ok u) ↔ i.Consistent ∧ ∀ j ∈ done, j.opcode ≠ i.opcode := by
  rw [InstructionListing.consistent_iff, ← h.get?_eq_none_iff]
  simp only [add_eq_ok_iff]
  refine ⟨?_, ?_⟩
  · intro hadd
    obtain ⟨u, slots, hslots, hl, hfree, -⟩ := hadd
    exact ⟨⟨slots, hslots, hl⟩, hfree⟩
  · intro hnew
    obtain ⟨⟨slots, hslots, hl⟩, hfree⟩ := hnew
    exact ⟨_, slots, hslots, hl, hfree, rfl⟩

theorem exists_foldlM_add_iff (is : List InstructionListing) :
    (∃ t, is.foldlM InstructionTables.add ⟨.empty, []⟩ = .ok t) ↔
      (∀ i ∈ is, i.Consistent) ∧ (is.map (·.opcode)).Nodup := by
  rw [exists_foldlM_iff Reflects InstructionListing.Consistent (fun i j => i.opcode ≠ j.opcode)
    (fun h => h.exists_add_iff) (fun h hadd => h.add hadd) reflects_start, List.nodup_iff_pairwise_ne, List.pairwise_map]
  simp

theorem reflects_of_foldlM {is : List InstructionListing} (h : is.foldlM InstructionTables.add ⟨.empty, []⟩ = .ok t) :
    Reflects is t :=
  holds_foldlM Reflects (fun h hadd => h.add hadd) reflects_start h

end InstructionTables

/-! ## Main result -/

namespace Grammar

theorem ofListing_eq_ok_iff {l : Listing} {g : Grammar} : ofListing l = .ok g ↔
    ∃ kinds instructions, l.kinds.foldlM KindTables.add ⟨.empty, .empty⟩ = .ok kinds ∧
      l.instructions.foldlM InstructionTables.add ⟨.empty, []⟩ = .ok instructions ∧
      g = ⟨l.magic, ⟨l.major, l.minor, l.revision⟩, instructions.instructions, instructions.opcodes,
        kinds.complete.masks, kinds.complete.enums⟩ := by
  rw [ofListing]
  simp only [bind_eq_ok_iff]
  refine ⟨?_, ?_⟩
  · intro h
    obtain ⟨kinds, hkinds, instructions, hinstructions, h⟩ := h
    exact ⟨kinds, instructions, hkinds, hinstructions, (Except.ok.inj h).symm⟩
  · intro h
    obtain ⟨kinds, instructions, hkinds, hinstructions, rfl⟩ := h
    exact ⟨kinds, hkinds, instructions, hinstructions, rfl⟩

theorem exists_ofListing {l : Listing} (hl : l.Consistent) : ∃ g, ofListing l = .ok g := by
  obtain ⟨kinds, hkinds⟩ := (exists_foldlM_iff_forall KindListing.Consistent KindTables.exists_add_iff _ _).mpr hl.kinds
  obtain ⟨instructions, hinstructions⟩ :=
    (InstructionTables.exists_foldlM_add_iff _).mpr ⟨hl.instructions, hl.opcodes⟩
  exact ⟨_, ofListing_eq_ok_iff.mpr ⟨kinds, instructions, hkinds, hinstructions, rfl⟩⟩

/-- **A listing is accepted when it is consistent, and only then.** Whatever the faults of an inconsistent listing are,
and in whatever order they come, there is no grammar for it. -/
theorem ofListing_accepts_consistent (l : Listing) : (∃ g, ofListing l = .ok g) ↔ l.Consistent := by
  refine ⟨?_, exists_ofListing⟩
  intro h
  obtain ⟨g, h⟩ := h
  obtain ⟨kinds, instructions, hkinds, hinstructions, -⟩ := ofListing_eq_ok_iff.mp h
  obtain ⟨hi, hopcodes⟩ := (InstructionTables.exists_foldlM_add_iff _).mp ⟨instructions, hinstructions⟩
  exact ⟨(exists_foldlM_iff_forall KindListing.Consistent KindTables.exists_add_iff _ _).mp ⟨kinds, hkinds⟩, hi, hopcodes⟩

end Grammar

end Spirv
