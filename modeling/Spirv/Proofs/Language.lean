/-
The language of a layout: which operands an instruction can have, said without a decoder or an encoder.

An operand of a kind has words that fit the kind's shape (`Shape.Fits`). Operands fall into groups (`Groups`), one of
each kind of a list: a group is an operand and, behind a mask, one group of each kind that the mask word asks for. The
kinds of the groups come from the types of the layout in order (`Fills`): one for each required type, at most one for
each optional type, any number for a repeated type; once an optional type is left out nothing follows.
`Layout.Admits` puts the two together.

- `Groups.append`, `Groups.split`: groups of two lists of kinds are the groups of the first, then those of the second.
- `groups_cons_iff`: what an operand asks for may as well be put in front of the kinds that are still to come. This is
  the order in which `Decoder.takeEach` and `Encoder.putEach` work, and the form in which proofs go through the operands.
- `Groups.eq_nil`: operands without words are no operands, as every operand has at least one word.
- `fills_nil_iff`: a layout without required types, and only such a layout, can be left empty.
- `admits_cons_iff`: the language of a layout from that of its first field and that of the others.
- `admits_iff`: the language of a layout without recursion on it, from the groups of some of its first fields, or of all its
  fields and some repetitions of the tail.

A decoder and an encoder go through a layout in the same way and differ in what they look at. `Walk` is what they have in
common, and `Walk.run_eq_ok_iff` is the argument for both: whatever passes a group of each field in turn passes the
language of the layout, and nothing else.
-/
import Spirv.Decode

namespace Spirv

/-- the words that one operand of this shape can have -/
def Shape.Fits : Shape → List Word → Prop
  | .fixed n, words => words.length = n
  | .terminated, words =>
    ∃ init last, words = init ++ [last] ∧ last.hasZeroByte = true ∧ ∀ w ∈ init, w.hasZeroByte = false

/-- consecutive groups of operands, one group of each kind -/
inductive Groups (x : Expansion) : List Kind → List Operand → Prop where
  | nil : Groups x [] []
  | plain {k words kinds rest} (hk : ∀ m, k ≠ .mask m) (hfits : k.shape.Fits words) (hrest : Groups x kinds rest) :
      Groups x (k :: kinds) (⟨k.type, words⟩ :: rest)
  /-- the groups that the mask asks for stand between the mask and the next group -/
  | mask {m w kinds asked rest} (hasked : Groups x (x m w) asked) (hrest : Groups x kinds rest) :
      Groups x (.mask m :: kinds) (⟨(Kind.mask m).type, [w]⟩ :: (asked ++ rest))

/-- the kinds of groups that follow the types of a layout in order -/
inductive Fills : List OperandType → List Kind → Prop where
  | nil : Fills [] []
  | required {k types kinds} (h : Fills types kinds) : Fills (.operand ⟨.required, k⟩ :: types) (k :: kinds)
  | present {k types kinds} (h : Fills types kinds) : Fills (.operand ⟨.optional, k⟩ :: types) (k :: kinds)
  /-- nothing follows, and so nothing may be required any more -/
  | omitted {k types} (h : ∀ j, .operand ⟨.required, j⟩ ∉ types) : Fills (.operand ⟨.optional, k⟩ :: types) []
  | repeated {k} (n : Nat) : Fills [.operand ⟨.repeated, k⟩] (List.replicate n k)

/-- operands that an instruction with this layout can have -/
def Layout.Admits (x : Expansion) (l : Layout) (operands : List Operand) : Prop :=
  ∃ kinds, Fills l.types kinds ∧ Groups x kinds operands

/-! ## Words of an operand -/

theorem Kind.ne_nil_of_fits {k : Kind} {words : List Word} (h : k.shape.Fits words) : words ≠ [] := by
  intro hnil
  subst hnil
  cases hs : k.shape with
  | fixed n =>
    rw [hs] at h
    have := Kind.shape_fixed_pos hs
    simp only [Shape.Fits, List.length_nil] at h
    omega
  | terminated =>
    rw [hs] at h
    obtain ⟨init, last, h, -⟩ := h
    simp at h

theorem Kind.follow_of_plain (x : Expansion) {k : Kind} (hk : ∀ m, k ≠ .mask m) (words : List Word) :
    k.follow x words = [] := by
  cases k with
  | mask m => exact absurd rfl (hk m)
  | _ => rfl

theorem Kind.mask_fits_iff {m : MaskKind} {words : List Word} :
    (Kind.mask m).shape.Fits words ↔ ∃ w, words = [w] :=
  List.length_eq_one_iff

theorem takeWhile_of_terminated {init : List Word} {last : Word} (hlast : last.hasZeroByte = true)
    (hinit : ∀ w ∈ init, w.hasZeroByte = false) (rest : List Word) :
    (init ++ last :: rest).takeWhile (!·.hasZeroByte) = init ∧
      (init ++ last :: rest).dropWhile (!·.hasZeroByte) = last :: rest := by
  have hpass : ∀ w ∈ init, (!w.hasZeroByte) = true := fun w hw => by simp [hinit w hw]
  rw [List.takeWhile_append_of_pos hpass, List.dropWhile_append_of_pos hpass]
  simp [hlast]

theorem fits_of_dropWhile {words rest : List Word} {last : Word}
    (h : words.dropWhile (!·.hasZeroByte) = last :: rest) :
    Shape.terminated.Fits (words.takeWhile (!·.hasZeroByte) ++ [last]) := by
  refine ⟨_, last, rfl, ?_, fun w hw => ?_⟩
  · have := List.head?_dropWhile_not (!·.hasZeroByte) words
    rw [h] at this
    simpa using this
  · have := List.all_eq_true.mp List.all_takeWhile w hw
    simpa using this

theorem terminated_fits_iff {words : List Word} :
    Shape.terminated.Fits words ↔ ∃ last, words.dropWhile (!·.hasZeroByte) = [last] := by
  refine ⟨fun h => ?_, fun h => ?_⟩
  · obtain ⟨init, last, rfl, hlast, hinit⟩ := h
    exact ⟨last, (takeWhile_of_terminated hlast hinit []).2⟩
  · obtain ⟨last, h⟩ := h
    have hfits := fits_of_dropWhile h
    rwa [← h, List.takeWhile_append_dropWhile] at hfits

/-! ## Groups -/

variable {x : Expansion}

theorem groups_nil_iff {operands : List Operand} : Groups x [] operands ↔ operands = [] := by
  refine ⟨fun h => ?_, ?_⟩
  · cases h
    rfl
  · intro h
    obtain rfl := h
    exact .nil

theorem Groups.append {a b : List Kind} {p q : List Operand} (hp : Groups x a p) (hq : Groups x b q) :
    Groups x (a ++ b) (p ++ q) := by
  induction hp with
  | nil => exact hq
  | plain hk hfits _ ih => exact .plain hk hfits ih
  | mask hasked _ _ ih =>
    rw [List.cons_append, List.cons_append, List.append_assoc]
    exact .mask hasked ih

theorem Groups.split {a b : List Kind} {operands : List Operand} (h : Groups x (a ++ b) operands) :
    ∃ p q, operands = p ++ q ∧ Groups x a p ∧ Groups x b q := by
  induction a generalizing operands with
  | nil => exact ⟨[], operands, rfl, .nil, h⟩
  | cons k a ih =>
    cases h with
    | plain hk hfits hrest =>
      obtain ⟨p, q, rfl, hp, hq⟩ := ih hrest
      exact ⟨_ :: p, q, rfl, .plain hk hfits hp, hq⟩
    | mask hasked hrest =>
      obtain ⟨p, q, rfl, hp, hq⟩ := ih hrest
      exact ⟨_ :: (_ ++ p), q, by simp, .mask hasked hp, hq⟩

/-- **One group at a time.** -/
theorem groups_cons_append_iff {k : Kind} {ks : List Kind} {operands : List Operand} :
    Groups x (k :: ks) operands ↔ ∃ p q, operands = p ++ q ∧ Groups x [k] p ∧ Groups x ks q := by
  refine ⟨Groups.split (a := [k]), ?_⟩
  rintro ⟨p, q, rfl, hp, hq⟩
  exact hp.append hq

/-- **One operand at a time.** The first operand has the first kind; behind it stand the groups that it asks for and
those of the other kinds. -/
theorem groups_cons_iff {k : Kind} {ks : List Kind} {operands : List Operand} :
    Groups x (k :: ks) operands ↔ ∃ words rest, operands = ⟨k.type, words⟩ :: rest ∧ k.shape.Fits words ∧
      Groups x (k.follow x words ++ ks) rest := by
  refine ⟨?_, ?_⟩
  · intro h
    cases h with
    | plain hk hfits hrest =>
      refine ⟨_, _, rfl, hfits, ?_⟩
      rw [Kind.follow_of_plain x hk]
      exact hrest
    | mask hasked hrest => exact ⟨_, _, rfl, Kind.mask_fits_iff.mpr ⟨_, rfl⟩, hasked.append hrest⟩
  · intro h
    obtain ⟨words, rest, rfl, hfits, hrest⟩ := h
    by_cases hk : ∀ m, k ≠ .mask m
    · rw [Kind.follow_of_plain x hk] at hrest
      exact .plain hk hfits hrest
    · obtain ⟨m, rfl⟩ : ∃ m, k = .mask m := by simpa using hk
      obtain ⟨w, rfl⟩ := Kind.mask_fits_iff.mp hfits
      obtain ⟨asked, rest, rfl, hasked, hrest⟩ := hrest.split
      exact .mask hasked hrest

theorem Groups.eq_nil {ks : List Kind} {operands : List Operand} (h : Groups x ks operands)
    (hwords : operands.flatMap (·.words) = []) : ks = [] ∧ operands = [] := by
  cases ks with
  | nil => exact ⟨rfl, groups_nil_iff.mp h⟩
  | cons k ks =>
    obtain ⟨words, rest, rfl, hfits, -⟩ := groups_cons_iff.mp h
    rw [List.flatMap_cons, List.append_eq_nil_iff] at hwords
    exact absurd hwords.1 (Kind.ne_nil_of_fits hfits)

/-! ## Filling a layout -/

/-- Only optional fields are left when none is required. -/
theorem forall_optional_iff {fs : List Field} : (∀ f ∈ fs, f.optional = true) ↔ ∀ k, ⟨k, false⟩ ∉ fs := by
  constructor
  · intro h k hk
    exact absurd (h _ hk) (by simp)
  · intro h f hf
    obtain ⟨k, optional⟩ := f
    cases optional with
    | true => rfl
    | false => exact absurd hf (h k)

theorem required_mem_types_iff {l : Layout} {k : Kind} :
    .operand ⟨.required, k⟩ ∈ l.types ↔ ⟨k, false⟩ ∈ l.fields := by
  induction l using Layout.cons_induction with
  | empty opcode tail => cases tail <;> simp [Layout.types, Layout.slots]
  | cons f l ih =>
    obtain ⟨j, optional⟩ := f
    rw [Layout.types_cons, Layout.fields_cons, List.mem_cons, List.mem_cons, ih]
    cases optional <;> simp [Field.slot]

/-- A layout can be left empty when no field is required. -/
theorem fills_nil_iff {l : Layout} : Fills l.types [] ↔ ∀ k, ⟨k, false⟩ ∉ l.fields := by
  cases l using Layout.cons_induction with
  | empty opcode tail =>
    refine ⟨fun _ k => List.not_mem_nil, fun _ => ?_⟩
    cases tail with
    | none => exact .nil
    | some k => exact .repeated 0
  | cons f l =>
    obtain ⟨j, optional⟩ := f
    cases optional with
    | false =>
      refine ⟨fun h => ?_, fun h => absurd List.mem_cons_self (h j)⟩
      cases h
    | true =>
      have hmem : ∀ k, (⟨k, false⟩ : Field) ∈ ⟨j, true⟩ :: l.fields ↔ ⟨k, false⟩ ∈ l.fields := by simp
      simp only [Layout.fields_cons, hmem]
      refine ⟨?_, ?_⟩
      · intro h
        cases h with
        | omitted h => exact fun k hk => h k (required_mem_types_iff.mpr hk)
      · exact fun h => .omitted fun k hk => h k (required_mem_types_iff.mp hk)

/-! ## What a layout admits, field by field -/

theorem admits_nil_iff {l : Layout} : l.Admits x [] ↔ ∀ k, ⟨k, false⟩ ∉ l.fields := by
  rw [← fills_nil_iff]
  refine ⟨?_, fun h => ⟨[], h, .nil⟩⟩
  intro h
  obtain ⟨kinds, hfills, hgroups⟩ := h
  obtain ⟨rfl, -⟩ := hgroups.eq_nil rfl
  exact hfills

theorem Layout.Admits.eq_nil {l : Layout} {operands : List Operand} (h : l.Admits x operands)
    (hwords : operands.flatMap (·.words) = []) : operands = [] := by
  obtain ⟨kinds, -, hgroups⟩ := h
  exact (hgroups.eq_nil hwords).2

theorem admits_bare_iff {opcode : UInt16} {operands : List Operand} :
    (⟨opcode, [], none⟩ : Layout).Admits x operands ↔ operands = [] := by
  refine ⟨?_, ?_⟩
  · intro h
    obtain ⟨kinds, hfills, hgroups⟩ := h
    cases hfills
    exact groups_nil_iff.mp hgroups
  · intro h
    obtain rfl := h
    exact ⟨[], .nil, .nil⟩

theorem admits_tail_iff {opcode : UInt16} {k : Kind} {operands : List Operand} :
    (⟨opcode, [], some k⟩ : Layout).Admits x operands ↔ ∃ n, Groups x (List.replicate n k) operands := by
  refine ⟨?_, ?_⟩
  · intro h
    obtain ⟨kinds, hfills, hgroups⟩ := h
    cases hfills with
    | repeated n => exact ⟨n, hgroups⟩
  · intro h
    obtain ⟨n, hgroups⟩ := h
    exact ⟨_, .repeated n, hgroups⟩

theorem admits_cons_nil_iff {f : Field} {l : Layout} (h : f.optional = true) :
    (l.cons f).Admits x [] ↔ l.Admits x [] := by
  obtain ⟨k, optional⟩ := f
  obtain rfl : optional = true := h
  simp [admits_nil_iff]

/-- A field is left out together with everything behind it, or one group of its kind comes first. -/
theorem admits_cons_iff {f : Field} {l : Layout} {operands : List Operand} :
    (l.cons f).Admits x operands ↔ (f.optional = true ∧ operands = [] ∧ l.Admits x []) ∨
      ∃ p q, operands = p ++ q ∧ Groups x [f.kind] p ∧ l.Admits x q := by
  obtain ⟨k, optional⟩ := f
  have group : ∀ {kinds}, Fills l.types kinds → Groups x (k :: kinds) operands →
      ∃ p q, operands = p ++ q ∧ Groups x [k] p ∧ l.Admits x q := by
    intro kinds hfills hgroups
    obtain ⟨p, q, rfl, hp, hq⟩ := hgroups.split (a := [k])
    exact ⟨p, q, rfl, hp, kinds, hfills, hq⟩
  refine ⟨?_, ?_⟩
  · intro h
    obtain ⟨kinds, hfills, hgroups⟩ := h
    cases optional with
    | false =>
      cases hfills with
      | required hfills => exact .inr (group hfills hgroups)
    | true =>
      cases hfills with
      | present hfills => exact .inr (group hfills hgroups)
      | omitted h =>
        refine .inl ⟨rfl, groups_nil_iff.mp hgroups, ?_⟩
        exact admits_nil_iff.mpr fun j hj => h j (required_mem_types_iff.mpr hj)
  · intro h
    rcases h with ⟨hoptional, rfl, hl⟩ | ⟨p, q, rfl, hp, kinds, hfills, hq⟩
    · obtain rfl : optional = true := hoptional
      exact ⟨[], .omitted fun j hj => admits_nil_iff.mp hl j (required_mem_types_iff.mp hj), .nil⟩
    · refine ⟨k :: kinds, ?_, hp.append hq⟩
      cases optional with
      | false => exact .required hfills
      | true => exact .present hfills

/-- There are groups of the first fields, with only optional ones behind them, or of all fields and of the repeated tail. -/
theorem admits_iff {l : Layout} {operands : List Operand} :
    l.Admits x operands ↔
      (∃ given later, l.fields = given ++ later ∧ (∀ f ∈ later, f.optional = true) ∧
        Groups x (given.map (·.kind)) operands) ∨
      ∃ k n, l.tail = some k ∧ Groups x (l.fields.map (·.kind) ++ List.replicate n k) operands := by
  induction l using Layout.cons_induction generalizing operands with
  | empty opcode tail =>
    cases tail with
    | none =>
      rw [admits_bare_iff]
      constructor
      · rintro rfl
        exact .inl ⟨[], [], rfl, nofun, .nil⟩
      · rintro (⟨given, later, hfields, -, hos⟩ | ⟨k, n, htail, -⟩)
        · obtain ⟨rfl, -⟩ := List.append_eq_nil_iff.mp hfields.symm
          exact groups_nil_iff.mp hos
        · cases htail
    | some k =>
      rw [admits_tail_iff]
      constructor
      · rintro ⟨n, hos⟩
        exact .inr ⟨k, n, rfl, hos⟩
      · rintro (⟨given, later, hfields, -, hos⟩ | ⟨j, n, htail, hos⟩)
        · obtain ⟨rfl, -⟩ := List.append_eq_nil_iff.mp hfields.symm
          exact ⟨0, hos⟩
        · obtain rfl := Option.some.inj htail
          exact ⟨n, hos⟩
  | cons f l ih =>
    rw [admits_cons_iff, Layout.fields_cons, Layout.tail_cons]
    constructor
    · rintro (⟨hoptional, rfl, hl⟩ | ⟨p, q, rfl, hp, hq⟩)
      · refine .inl ⟨[], f :: l.fields, rfl, ?_, .nil⟩
        rw [List.forall_mem_cons]
        exact ⟨hoptional, forall_optional_iff.mpr (admits_nil_iff.mp hl)⟩
      · rcases ih.mp hq with ⟨given, later, hfields, hlater, hq⟩ | ⟨k, n, htail, hq⟩
        · exact .inl ⟨f :: given, later, by rw [hfields, List.cons_append], hlater, hp.append hq⟩
        · exact .inr ⟨k, n, htail, hp.append hq⟩
    · rintro (⟨given, later, hfields, hlater, hos⟩ | ⟨k, n, htail, hos⟩)
      · cases given with
        | nil =>
          obtain rfl : f :: l.fields = later := hfields
          obtain ⟨hoptional, hlater⟩ := List.forall_mem_cons.mp hlater
          exact .inl ⟨hoptional, groups_nil_iff.mp hos, admits_nil_iff.mpr (forall_optional_iff.mp hlater)⟩
        | cons g given =>
          obtain ⟨rfl, hrest⟩ := List.cons.inj hfields
          obtain ⟨p, q, rfl, hp, hq⟩ := groups_cons_append_iff.mp hos
          exact .inr ⟨p, q, rfl, hp, ih.mpr (.inl ⟨given, later, hrest, hlater, hq⟩)⟩
      · obtain ⟨p, q, rfl, hp, hq⟩ := groups_cons_append_iff.mp hos
        exact .inr ⟨p, q, rfl, hp, ih.mpr (.inr ⟨k, n, htail, hq⟩)⟩

/-! ## Walks -/

theorem bind_eq_ok_iff {ε α β : Type} {r : Except ε α} {f : α → Except ε β} {b : β} :
    r >>= f = .ok b ↔ ∃ a, r = .ok a ∧ f a = .ok b := by
  cases r with
  | error e =>
    refine ⟨fun h => ?_, fun h => ?_⟩
    · cases h
    · obtain ⟨a, h, -⟩ := h
      cases h
  | ok a =>
    refine ⟨fun h => ⟨a, rfl, h⟩, fun h => ?_⟩
    obtain ⟨a', h, h'⟩ := h
    obtain rfl := Except.ok.inj h
    exact h'

/-- What a decoder and an encoder have in common: they pass one group after the other, on a way that comes to an end. -/
structure Walk (x : Expansion) (σ ε : Type) where
  /-- passes one group of the kind -/
  one : Kind → σ → Except ε σ
  /-- passes groups of the kind as long as there are more -/
  many : Kind → σ → Except ε σ
  /-- passes what a layout asks for, and finds nothing behind it -/
  run : Layout → σ → Except ε σ
  /-- between these states these operands were passed -/
  Passes : σ → List Operand → σ → Prop
  More : Kind → σ → Prop
  Done : σ → Prop
  size : σ → Nat
  passes_nil_iff : ∀ {s t}, Passes s [] t ↔ s = t
  passes_append_iff : ∀ {p q s t}, Passes s (p ++ q) t ↔ ∃ m, Passes s p m ∧ Passes m q t
  no_words_of_done : ∀ {os s t}, Done s → Passes s os t → os.flatMap (·.words) = []
  one_eq_ok_iff : ∀ {k s t}, one k s = .ok t ↔ ∃ os, Groups x [k] os ∧ Passes s os t
  one_lt : ∀ {k s t}, one k s = .ok t → size t < size s
  more_of_one : ∀ {k s t}, one k s = .ok t → More k s
  not_more_of_done : ∀ {k s}, Done s → ¬More k s
  many_of_more : ∀ {k s t}, More k s → (many k s = .ok t ↔ ∃ m, one k s = .ok m ∧ many k m = .ok t)
  many_of_not_more : ∀ {k s}, ¬More k s → many k s = .ok s
  run_bare : ∀ {opcode s t}, run ⟨opcode, [], none⟩ s = .ok t ↔ s = t ∧ Done t
  run_tail : ∀ {opcode k s t}, run ⟨opcode, [], some k⟩ s = .ok t ↔ many k s = .ok t ∧ Done t
  /-- at the end an optional field is left out, if the rest of the layout can be left empty -/
  run_left_out : ∀ {f l s t}, f.optional = true → Done s → (run l s = .ok t → l.Admits x []) →
    (run (l.cons f) s = .ok t ↔ run l s = .ok t)
  run_cons : ∀ {f l s t}, ¬(f.optional = true ∧ Done s) →
    (run (l.cons f) s = .ok t ↔ ∃ m, one f.kind s = .ok m ∧ run l m = .ok t)

namespace Walk

variable {σ ε : Type} (w : Walk x σ ε)

/-- A repeated tail passes any number of groups of its kind, until there are no more. -/
theorem many_eq_ok_iff {k : Kind} {s t : σ} :
    w.many k s = .ok t ↔ ¬w.More k t ∧ ∃ n os, Groups x (List.replicate n k) os ∧ w.Passes s os t := by
  induction hn : w.size s using Nat.strongRecOn generalizing s with
  | ind n ih =>
    by_cases hmore : w.More k s
    · rw [w.many_of_more hmore]
      refine ⟨?_, ?_⟩
      · intro h
        obtain ⟨m, hone, h⟩ := h
        obtain ⟨hend, j, q, hq, hpassesq⟩ := (ih _ (hn ▸ w.one_lt hone) rfl).mp h
        obtain ⟨p, hp, hpassesp⟩ := w.one_eq_ok_iff.mp hone
        exact ⟨hend, j + 1, p ++ q, hp.append hq, w.passes_append_iff.mpr ⟨m, hpassesp, hpassesq⟩⟩
      · intro h
        obtain ⟨hend, j, os, hos, hpasses⟩ := h
        cases j with
        | zero =>
          obtain rfl := groups_nil_iff.mp hos
          rw [w.passes_nil_iff.mp hpasses] at hmore
          exact absurd hmore hend
        | succ j =>
          obtain ⟨p, q, rfl, hp, hq⟩ := hos.split (a := [k]) (b := List.replicate j k)
          obtain ⟨m, hpassesp, hpassesq⟩ := w.passes_append_iff.mp hpasses
          have hone := w.one_eq_ok_iff.mpr ⟨p, hp, hpassesp⟩
          exact ⟨m, hone, (ih _ (hn ▸ w.one_lt hone) rfl).mpr ⟨hend, j, q, hq, hpassesq⟩⟩
    · rw [w.many_of_not_more hmore]
      refine ⟨?_, ?_⟩
      · intro h
        obtain rfl := Except.ok.inj h
        exact ⟨hmore, 0, [], .nil, w.passes_nil_iff.mpr rfl⟩
      · intro h
        obtain ⟨hend, j, os, hos, hpasses⟩ := h
        cases j with
        | zero =>
          obtain rfl := groups_nil_iff.mp hos
          rw [w.passes_nil_iff.mp hpasses]
        | succ j =>
          obtain ⟨p, q, rfl, hp, -⟩ := hos.split (a := [k]) (b := List.replicate j k)
          obtain ⟨m, hpassesp, -⟩ := w.passes_append_iff.mp hpasses
          exact absurd (w.more_of_one (w.one_eq_ok_iff.mpr ⟨p, hp, hpassesp⟩)) hmore

theorem eq_nil_of_done {l : Layout} {os : List Operand} {s t : σ} (hdone : w.Done s) (hos : l.Admits x os)
    (hpasses : w.Passes s os t) : os = [] :=
  hos.eq_nil (w.no_words_of_done hdone hpasses)

/-- **A run passes what its layout admits, to the end, and passes any of it that is there.** -/
theorem run_eq_ok_iff {l : Layout} {s t : σ} :
    w.run l s = .ok t ↔ w.Done t ∧ ∃ os, l.Admits x os ∧ w.Passes s os t := by
  induction l using Layout.cons_induction generalizing s with
  | empty opcode tail =>
    cases tail with
    | none => simp only [w.run_bare, admits_bare_iff, exists_eq_left, w.passes_nil_iff, and_comm]
    | some k =>
      simp only [w.run_tail, w.many_eq_ok_iff, admits_tail_iff]
      refine ⟨?_, ?_⟩
      · intro h
        obtain ⟨⟨_, n, os, hos, hpasses⟩, hdone⟩ := h
        exact ⟨hdone, os, ⟨n, hos⟩, hpasses⟩
      · intro h
        obtain ⟨hdone, os, ⟨n, hos⟩, hpasses⟩ := h
        exact ⟨⟨w.not_more_of_done hdone, n, os, hos, hpasses⟩, hdone⟩
  | cons f l ih =>
    by_cases hleft : f.optional = true ∧ w.Done s
    · -- nothing is left, so the operands are none, with this field or without it
      obtain ⟨hoptional, hdone⟩ := hleft
      have hempty : w.run l s = .ok t → l.Admits x [] := by
        intro h
        obtain ⟨-, os, hos, hpasses⟩ := ih.mp h
        rw [w.eq_nil_of_done hdone hos hpasses] at hos
        exact hos
      rw [w.run_left_out hoptional hdone hempty, ih]
      refine and_congr_right fun _ => exists_congr fun os => and_congr_left fun hpasses => ?_
      refine ⟨?_, ?_⟩
      · intro hos
        obtain rfl := w.eq_nil_of_done hdone hos hpasses
        exact (admits_cons_nil_iff hoptional).mpr hos
      · intro hos
        obtain rfl := w.eq_nil_of_done hdone hos hpasses
        exact (admits_cons_nil_iff hoptional).mp hos
    · rw [w.run_cons hleft]
      refine ⟨?_, ?_⟩
      · intro h
        obtain ⟨m, hone, hrun⟩ := h
        obtain ⟨p, hp, hpassesp⟩ := w.one_eq_ok_iff.mp hone
        obtain ⟨hdone, q, hq, hpassesq⟩ := ih.mp hrun
        exact ⟨hdone, p ++ q, admits_cons_iff.mpr (.inr ⟨p, q, rfl, hp, hq⟩),
          w.passes_append_iff.mpr ⟨m, hpassesp, hpassesq⟩⟩
      · intro h
        obtain ⟨hdone, os, hos, hpasses⟩ := h
        rcases admits_cons_iff.mp hos with ⟨hoptional, rfl, -⟩ | ⟨p, q, rfl, hp, hq⟩
        · rw [w.passes_nil_iff.mp hpasses] at hleft
          exact absurd ⟨hoptional, hdone⟩ hleft
        · obtain ⟨m, hpassesp, hpassesq⟩ := w.passes_append_iff.mp hpasses
          exact ⟨m, w.one_eq_ok_iff.mpr ⟨p, hp, hpassesp⟩, ih.mpr ⟨hdone, q, hq, hpassesq⟩⟩

end Walk

end Spirv
