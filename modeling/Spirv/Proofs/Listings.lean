/-
Listings, and when they are consistent. A kind is listed by its name, which no other kind has, and a place of a layout by
the name of its kind and the mark of its presence. So what can be read from a listed operand is what it lists
(`Slot.listing`), and a list of operands is read when it lists places one by one.

`Listing.Consistent` says without any tables what is asked of a listing: of each enumerant, of each kind in its category,
of each instruction, and of all instructions together.

- `Kind.ofName?_eq_some_iff`: names of kinds.
- `OperandListing.type_eq_ok_iff`, `mapM_type_eq_ok_iff`: operands of instructions.
- `loadParams_eq_ok_iff`: what a bit asks for.
-/
import Mathlib.Algebra.Group.Nat.Defs
import Spirv.Grammar.Load
import Spirv.Proofs.Language

namespace Spirv

/-! ## Names -/

namespace Kind

/-- No two kinds share a name, so each is found under its own. -/
theorem ofName?_name (k : Kind) : ofName? k.name = some k := by
  have hall : ∀ k ∈ all, ofName? k.name = some k := by decide +kernel
  exact hall k (mem_all k)

theorem ofName?_eq_some_iff {s : String} {k : Kind} : ofName? s = some k ↔ s = k.name := by
  refine ⟨?_, ?_⟩
  · intro h
    have hname := List.find?_some h
    exact (of_decide_eq_true hname).symm
  · rintro rfl
    exact ofName?_name k

theorem name_inj {j k : Kind} : j.name = k.name ↔ j = k := by
  refine ⟨?_, congrArg name⟩
  intro h
  exact Option.some.inj ((ofName?_name j).symm.trans (ofName?_eq_some_iff.mpr h))

end Kind

theorem kindNamed_eq_ok_iff {s : String} {k : Kind} : kindNamed s = .ok k ↔ s = k.name := by
  rw [kindNamed, ← Kind.ofName?_eq_some_iff]
  cases Kind.ofName? s <;> simp

/-! ## Operands as they are listed -/

/-- how a grammar marks that an operand need not be there exactly once -/
def Presence.quantifier : Presence → Option Quantifier
  | .required => none
  | .optional => some .optional
  | .repeated => some .repeated

/-- how a grammar lists a place of a layout -/
def Slot.listing (s : Slot) : OperandListing := ⟨s.kind.name, s.presence.quantifier⟩

/-- how a grammar lists what a bit asks for -/
def Kind.listing (k : Kind) : OperandListing := Slot.listing ⟨.required, k⟩

namespace Kind

theorem exists_listing_iff {o : OperandListing} :
    (∃ k : Kind, o = k.listing) ↔ o.quantifier = none ∧ ∃ k : Kind, o.kind = k.name := by
  obtain ⟨name, quantifier⟩ := o
  simp [listing, Slot.listing, Presence.quantifier, and_comm]

theorem map_kind_listing (ks : List Kind) : (ks.map listing).map (·.kind) = ks.map name := by
  rw [List.map_map]
  rfl

theorem map_name_inj {ks js : List Kind} : ks.map name = js.map name ↔ ks = js :=
  List.map_inj_right fun _ _ => name_inj.mp

end Kind

theorem Slot.exists_listing_iff {o : OperandListing} :
    (∃ s : Slot, o = s.listing) ↔ ∃ k : Kind, o.kind = k.name := by
  obtain ⟨name, quantifier⟩ := o
  refine ⟨?_, ?_⟩
  · intro h
    obtain ⟨s, h⟩ := h
    exact ⟨s.kind, congrArg OperandListing.kind h⟩
  · intro h
    obtain ⟨k, rfl⟩ := h
    rcases quantifier with _ | _ | _
    · exact ⟨⟨.required, k⟩, rfl⟩
    · exact ⟨⟨.optional, k⟩, rfl⟩
    · exact ⟨⟨.repeated, k⟩, rfl⟩

theorem Slot.map_listing_inj {l m : List Slot} : l.map listing = m.map listing ↔ l = m := by
  refine List.map_inj_right fun s t h => ?_
  obtain ⟨presence, k⟩ := s
  obtain ⟨presence', k'⟩ := t
  obtain ⟨hname, hquantifier⟩ := OperandListing.mk.inj h
  obtain rfl : k = k' := Kind.name_inj.mp hname
  cases presence <;> cases presence' <;> first | rfl | cases hquantifier

/-- The type of a listed operand is that of the place that it lists. -/
theorem OperandListing.type_eq_ok_iff {o : OperandListing} {t : OperandType} :
    o.type = .ok t ↔ ∃ s : Slot, o = s.listing ∧ t = .operand s := by
  refine ⟨?_, ?_⟩
  · intro h
    obtain ⟨name, quantifier⟩ := o
    obtain ⟨k, hk, h⟩ := bind_eq_ok_iff.mp h
    obtain rfl := kindNamed_eq_ok_iff.mp hk
    rcases quantifier with _ | _ | _
    · exact ⟨⟨.required, k⟩, rfl, (Except.ok.inj h).symm⟩
    · exact ⟨⟨.optional, k⟩, rfl, (Except.ok.inj h).symm⟩
    · exact ⟨⟨.repeated, k⟩, rfl, (Except.ok.inj h).symm⟩
  · intro h
    obtain ⟨⟨presence, k⟩, rfl, rfl⟩ := h
    have hk : kindNamed k.name = .ok k := kindNamed_eq_ok_iff.mpr rfl
    refine bind_eq_ok_iff.mpr ⟨k, hk, ?_⟩
    cases presence <;> rfl

/-- Anything that lists its elements one by one lists them all. -/
theorem exists_eq_map_iff {α β : Type} {f : α → β} {l : List β} :
    (∃ as : List α, l = as.map f) ↔ ∀ b ∈ l, ∃ a, b = f a := by
  induction l with
  | nil => exact iff_of_true ⟨[], rfl⟩ (by simp)
  | cons b l ih =>
    rw [List.forall_mem_cons, ← ih]
    refine ⟨?_, ?_⟩
    · intro h
      obtain ⟨_ | ⟨a, as⟩, h⟩ := h
      · cases h
      · obtain ⟨rfl, rfl⟩ := List.cons.inj h
        exact ⟨⟨a, rfl⟩, as, rfl⟩
    · intro h
      obtain ⟨⟨a, rfl⟩, as, rfl⟩ := h
      exact ⟨a :: as, rfl⟩

theorem mapM_eq_ok_iff {α β γ ε : Type} {f : α → Except ε γ} {listing : β → α} {value : β → γ}
    (hf : ∀ {a c}, f a = .ok c ↔ ∃ b, a = listing b ∧ c = value b) {l : List α} {cs : List γ} :
    l.mapM f = .ok cs ↔ ∃ bs : List β, l = bs.map listing ∧ cs = bs.map value := by
  induction l generalizing cs with
  | nil =>
    rw [List.mapM_nil]
    refine ⟨?_, ?_⟩
    · intro h
      obtain rfl := Except.ok.inj h
      exact ⟨[], rfl, rfl⟩
    · intro h
      obtain ⟨bs, hl, rfl⟩ := h
      rw [List.map_eq_nil_iff.mp hl.symm]
      rfl
  | cons a l ih =>
    rw [List.mapM_cons]
    simp only [bind_eq_ok_iff]
    refine ⟨?_, ?_⟩
    · intro h
      obtain ⟨c, ha, cs', hl, h⟩ := h
      obtain ⟨b, rfl, rfl⟩ := hf.mp ha
      obtain ⟨bs, rfl, rfl⟩ := ih.mp hl
      exact ⟨b :: bs, rfl, (Except.ok.inj h).symm⟩
    · intro h
      obtain ⟨_ | ⟨b, bs⟩, hl, rfl⟩ := h
      · cases hl
      · obtain ⟨rfl, rfl⟩ := List.cons.inj hl
        exact ⟨value b, hf.mpr ⟨b, rfl, rfl⟩, bs.map value, ih.mpr ⟨bs, rfl, rfl⟩, rfl⟩

theorem mapM_type_eq_ok_iff {os : List OperandListing} {types : List OperandType} :
    os.mapM OperandListing.type = .ok types ↔
      ∃ slots : List Slot, os = slots.map Slot.listing ∧ types = slots.map .operand :=
  mapM_eq_ok_iff OperandListing.type_eq_ok_iff

theorem mapM_kindNamed_eq_ok_iff {names : List String} {ks : List Kind} :
    names.mapM kindNamed = .ok ks ↔ names = ks.map Kind.name := by
  have hkind {s : String} {k : Kind} : kindNamed s = .ok k ↔ ∃ j : Kind, s = j.name ∧ k = id j := by
    rw [kindNamed_eq_ok_iff]
    simp
  rw [mapM_eq_ok_iff hkind]
  simp

theorem loadParams_cons {kind enumerant : String} {count : Nat} (p : OperandListing) (ps : List OperandListing) :
    loadParams kind enumerant count (p :: ps) =
      if p.quantifier.isSome then .error (.quantifiedParam kind enumerant)
      else kindNamed p.kind >>= fun k =>
        if maxParams ≤ count then .error (.tooManyParams kind enumerant)
        else loadParams kind enumerant (count + 1) ps >>= fun ks => .ok (k :: ks) := by
  rw [loadParams]
  cases p.quantifier with
  | some q => rfl
  | none =>
    cases kindNamed p.kind with
    | error e => rfl
    | ok k => by_cases h : maxParams ≤ count <;> simp [h] <;> rfl

/-- What a bit asks for is read when each kind is known and there exactly once, and there are not too many of them. -/
theorem loadParams_eq_ok_iff {kind enumerant : String} {count : Nat} {ps : List OperandListing} {ks : List Kind}
    (hcount : count ≤ maxParams) : loadParams kind enumerant count ps = .ok ks ↔
      ps = ks.map Kind.listing ∧ count + ks.length ≤ maxParams := by
  induction ps generalizing count ks with
  | nil =>
    rw [loadParams]
    refine ⟨?_, ?_⟩
    · intro h
      obtain rfl := Except.ok.inj h
      exact ⟨rfl, hcount⟩
    · intro h
      obtain ⟨h, -⟩ := h
      rw [List.map_eq_nil_iff.mp h.symm]
  | cons p ps ih =>
    rw [loadParams_cons]
    refine ⟨?_, ?_⟩
    · intro h
      split at h
      · cases h
      · rename_i hquantifier
        obtain ⟨k, hk, h⟩ := bind_eq_ok_iff.mp h
        split at h
        · cases h
        · rename_i hlt
          obtain ⟨ks', hks, h⟩ := bind_eq_ok_iff.mp h
          obtain rfl := Except.ok.inj h
          obtain ⟨rfl, hle⟩ := (ih (by omega)).mp hks
          obtain ⟨name, quantifier⟩ := p
          obtain rfl := kindNamed_eq_ok_iff.mp hk
          obtain rfl : quantifier = none := by simpa using hquantifier
          refine ⟨rfl, ?_⟩
          rw [List.length_cons]
          omega
    · intro h
      obtain ⟨h, hle⟩ := h
      cases ks with
      | nil => cases h
      | cons k ks =>
        obtain ⟨rfl, rfl⟩ := List.cons.inj h
        rw [List.length_cons] at hle
        have hk : kindNamed k.listing.kind = .ok k := kindNamed_eq_ok_iff.mpr rfl
        have hks : loadParams kind enumerant (count + 1) (ks.map Kind.listing) = .ok ks :=
          (ih (by omega)).mpr ⟨rfl, by omega⟩
        rw [if_neg (by simp [Kind.listing, Slot.listing, Presence.quantifier]), hk, hks]
        exact if_neg (by omega)

/-! ## Consistent listings -/

/-- a name of the mask word without set bits, which asks for nothing, or of one bit, which asks for up to three operands,
each of a known kind and there exactly once -/
inductive EnumerantListing.NamesBits : EnumerantListing → Prop where
  | empty {name} : NamesBits ⟨name, 0, []⟩
  | bit {name value params} (n : Nat) (hvalue : value.toNat = 2 ^ n) (hcount : params.length ≤ 3)
      (hparams : ∀ p ∈ params, p.quantifier = none ∧ ∃ k : Kind, p.kind = k.name) : NamesBits ⟨name, value, params⟩

/-- names of one value ask for the same kinds -/
def EnumerantListing.Agrees (e f : EnumerantListing) : Prop :=
  e.value = f.value → e.params.map (·.kind) = f.params.map (·.kind)

/-- a known kind in its category, with the parts that the category asks for -/
inductive KindListing.Consistent : KindListing → Prop where
  | bitEnum {m enumerants bases} (hnames : ∀ e ∈ enumerants.getD [], e.NamesBits)
      (haliases : (enumerants.getD []).Pairwise EnumerantListing.Agrees) :
      Consistent ⟨.bitEnum, (Kind.mask m).name, enumerants, bases⟩
  | valueEnum {k enumerants bases} (hnames : ∀ e ∈ enumerants.getD [], e.params = []) :
      Consistent ⟨.valueEnum, (Kind.enum k).name, enumerants, bases⟩
  | id {k} : Consistent ⟨.id, (Kind.id k).name, none, none⟩
  | literal {k} : Consistent ⟨.literal, (Kind.literal k).name, none, none⟩
  | string : Consistent ⟨.literal, Kind.string.name, none, none⟩
  | composite {p enumerants} :
      Consistent ⟨.composite, (Kind.pair p).name, enumerants, some [p.halves.1.name, p.halves.2.name]⟩

/-- operands of known kinds, of which only the last may be repeated -/
structure InstructionListing.Consistent (i : InstructionListing) : Prop where
  known : ∀ o ∈ i.operands, ∃ k : Kind, o.kind = k.name
  repeated_last : ∀ o ∈ i.operands.dropLast, o.quantifier ≠ some .repeated

structure Listing.Consistent (l : Listing) : Prop where
  kinds : ∀ k ∈ l.kinds, k.Consistent
  instructions : ∀ i ∈ l.instructions, i.Consistent
  opcodes : (l.instructions.map (·.opcode)).Nodup

end Spirv
