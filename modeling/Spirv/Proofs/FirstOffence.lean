/-
Which lists of types are layouts, and what is reported of the others. A type offends where it stands for no operand, and where
it is repeated and another type follows it (`Offence`). The check goes through the types in order; all that it has passed is in
order, so what it stops at is the first offence, and if it does not stop there is none. Once every type stands for an operand,
the places of the layout are the types again, one for one: a place has a presence and a kind, and the type is the kind's own
type, or its optional or repeated form (`Slot.Wraps`). The number of the type says which: divided by the number of kinds it
has the presence as quotient and the kind as remainder, and read as a type it is that of the place (`Slot.ReadBack`).

- `OperandType.isOperand_iff`: the types that stand for an operand.
- `Offence.unique`, `FirstOffence.unique`: one thing is wrong with a type, and one list has one first offence.
- `Slot.Wraps.readBack`: from the number of a type to its place.
- `Layout.firstOffence_of_ofTypesFrom`: the check stops at the first offence.

Main result:
- `Layout.ofTypes_exact`: acceptance, the error, and the places of an accepted layout.
-/
import Mathlib.Data.List.Forall2
import Spirv.Layout

namespace Spirv

/-! ## Types that stand for an operand -/

namespace OperandType

/-- the type is concrete, optional or repeated -/
def IsOperand (t : OperandType) : Prop := t.isConcrete ∨ t.isOptional ∨ t.isRepeated

theorem isOperand_iff {t : OperandType} : t.IsOperand ↔ ∃ s, t = .operand s := by
  cases t with
  | operand s =>
    obtain ⟨presence, k⟩ := s
    cases presence <;> simp [IsOperand, isConcrete, concrete?, isOptional, isRepeated, slot?]
  | _ => simp [IsOperand, isConcrete, concrete?, isOptional, isRepeated, slot?]

theorem isRepeated_operand_iff {s : Slot} : (operand s).isRepeated = true ↔ s.presence = .repeated := by
  simp [isRepeated, slot?]

end OperandType

/-! ## Offences -/

/-- what is wrong with the type at a place -/
inductive Offence (types : List OperandType) : Nat → LayoutError → Prop where
  | notAnOperand {i t} (hi : types[i]? = some t) (ht : ¬t.IsOperand) : Offence types i (.notAnOperand t)
  | repeatedNotLast {i t} (hi : types[i]? = some t) (ht : t.isRepeated) (hlast : i + 1 < types.length) :
      Offence types i (.repeatedNotLast i)

/-- something is wrong with the type at a place, and nothing with the types before it -/
structure FirstOffence (types : List OperandType) (i : Nat) (e : LayoutError) : Prop where
  offence : Offence types i e
  least : ∀ j < i, ∀ e', ¬Offence types j e'

variable {types : List OperandType}

/-- An operand that is there at most once is in order anywhere. -/
theorem not_offence_of_ne_repeated {i : Nat} {s : Slot} (hi : types[i]? = some (.operand s)) (hs : s.presence ≠ .repeated)
    (e : LayoutError) : ¬Offence types i e := by
  intro h
  cases h with
  | notAnOperand hi' ht =>
    rw [← Option.some.inj (hi.symm.trans hi')] at ht
    exact ht (OperandType.isOperand_iff.mpr ⟨s, rfl⟩)
  | repeatedNotLast hi' ht =>
    rw [← Option.some.inj (hi.symm.trans hi'), OperandType.isRepeated_operand_iff] at ht
    exact hs ht

theorem Offence.unique {i : Nat} {e e' : LayoutError} (h : Offence types i e) (h' : Offence types i e') : e = e' := by
  cases h with
  | notAnOperand hi ht =>
    cases h' with
    | notAnOperand hi' => rw [Option.some.inj (hi.symm.trans hi')]
    | repeatedNotLast hi' ht' =>
      rw [Option.some.inj (hi.symm.trans hi')] at ht
      exact absurd (.inr (.inr ht')) ht
  | repeatedNotLast hi ht =>
    cases h' with
    | notAnOperand hi' ht' =>
      rw [← Option.some.inj (hi.symm.trans hi')] at ht'
      exact absurd (.inr (.inr ht)) ht'
    | repeatedNotLast => rfl

theorem FirstOffence.unique {i j : Nat} {e e' : LayoutError} (h : FirstOffence types i e) (h' : FirstOffence types j e') :
    e = e' := by
  rcases Nat.lt_trichotomy i j with hlt | rfl | hgt
  · exact absurd h.offence (h'.least i hlt e)
  · exact h.offence.unique h'.offence
  · exact absurd h'.offence (h.least j hgt e')

/-- Nothing is wrong with types that stand for operands, the last of which alone may be repeated. -/
theorem forall_not_offence_iff : (∀ i e, ¬Offence types i e) ↔
    (∀ t ∈ types, t.IsOperand) ∧ ∀ t ∈ types.dropLast, ¬t.isRepeated := by
  constructor
  · intro h
    refine ⟨fun t ht => ?_, fun t ht hrepeated => ?_⟩
    · obtain ⟨i, hi⟩ := List.mem_iff_getElem?.mp ht
      by_contra hoperand
      exact h i _ (.notAnOperand hi hoperand)
    · obtain ⟨i, hi⟩ := List.mem_iff_getElem?.mp ht
      obtain ⟨hlt, hi⟩ := List.getElem?_eq_some_iff.mp hi
      rw [List.length_dropLast] at hlt
      rw [List.getElem_dropLast] at hi
      exact h i _ (.repeatedNotLast (List.getElem?_eq_some_iff.mpr ⟨_, hi⟩) hrepeated (by omega))
  · rintro ⟨hoperand, hrepeated⟩ i e h
    cases h with
    | notAnOperand hi ht => exact ht (hoperand _ (List.mem_of_getElem? hi))
    | repeatedNotLast hi ht hlast =>
      obtain ⟨hlt, hi⟩ := List.getElem?_eq_some_iff.mp hi
      refine hrepeated _ ?_ ht
      rw [← hi]
      exact List.mem_iff_getElem.mpr ⟨_, by rw [List.length_dropLast]; omega, List.getElem_dropLast _⟩

/-! ## Places and types -/

/-- the form that a concrete type has where it occurs like this -/
def Presence.wrap : Presence → OperandType → Option OperandType
  | .required, t => some t
  | .optional, t => t.optional
  | .repeated, t => t.repeated

/-- The kind of the place is a concrete type, and the form of it that the presence asks for is the type; their numbers are
apart by as many blocks. -/
structure Slot.Wraps (s : Slot) (t : OperandType) : Prop where
  concrete : s.kind.type.isConcrete
  wrap_eq : s.presence.wrap s.kind.type = some t
  code_base : 1 ≤ s.kind.type.code ∧ s.kind.type.code ≤ Kind.count
  code_eq : t.code = s.presence.block * Kind.count + s.kind.type.code

/-- Presence and concrete type are read back from the number of the type, by quotient and remainder, and reading the number
as a type gives the type of the place. -/
structure Slot.ReadBack (s : Slot) (t : OperandType) : Prop where
  block_eq : (t.code - 1) / Kind.count = s.presence.block
  base_eq : (t.code - 1) % Kind.count + 1 = s.kind.type.code
  ofCode?_eq : OperandType.ofCode? (.ofNat t.code) = .ok (.operand s)

namespace Slot

theorem wraps_operand (s : Slot) : s.Wraps (.operand s) := by
  refine ⟨rfl, ?_, s.kind.number_bounds, OperandType.code_operand s⟩
  obtain ⟨presence, k⟩ := s
  cases presence <;> rfl

variable {s : Slot} {t : OperandType}

theorem Wraps.eq_operand (h : s.Wraps t) : t = .operand s := Option.some.inj (h.wrap_eq.symm.trans s.wraps_operand.wrap_eq)

theorem Wraps.readBack (h : s.Wraps t) : s.ReadBack t := by
  obtain rfl := h.eq_operand
  exact ⟨OperandType.code_div s, OperandType.code_mod s, OperandType.ofCode?_code _⟩

end Slot

namespace Layout

theorem wraps_slots (l : Layout) : List.Forall₂ Slot.Wraps l.slots l.types := by
  rw [types, List.forall₂_map_right_iff, List.forall₂_same]
  exact fun s _ => s.wraps_operand

/-! ## The check -/

theorem eq_error_of_map_cons {f : Field} {r : Except LayoutError Layout} {e : LayoutError}
    (h : r.map (cons f) = .error e) : r = .error e := by
  cases r with
  | error => exact congrArg Except.error (Except.error.inj h)
  | ok l => cases h

/-- The check stops at the first offence, if there is none in what it has passed. -/
theorem firstOffence_of_ofTypesFrom {opcode : UInt16} (passed : List OperandType) {rest : List OperandType} {e : LayoutError}
    (h : ofTypesFrom opcode passed.length rest = .error e)
    (hpassed : ∀ j < passed.length, ∀ e', ¬Offence (passed ++ rest) j e') : ∃ i, FirstOffence (passed ++ rest) i e := by
  induction rest generalizing passed with
  | nil => cases h
  | cons t rest ih =>
    have ht : (passed ++ t :: rest)[passed.length]? = some t := by simp
    -- where the type at hand is in order, the check goes on behind it
    have next (hnone : ∀ e', ¬Offence (passed ++ t :: rest) passed.length e')
        (h : ofTypesFrom opcode (passed.length + 1) rest = .error e) : ∃ i, FirstOffence (passed ++ t :: rest) i e := by
      have hlength : (passed ++ [t]).length = passed.length + 1 := by simp
      rw [← List.singleton_append, ← List.append_assoc] at hpassed hnone ⊢
      refine ih _ (hlength ▸ h) ?_
      intro j hj
      rcases Nat.lt_or_eq_of_le (Nat.le_of_lt_succ (hlength ▸ hj)) with hlt | rfl
      · exact hpassed j hlt
      · exact hnone
    cases t with
    | operand s =>
      obtain ⟨presence, k⟩ := s
      cases presence with
      | required => exact next (not_offence_of_ne_repeated ht (by simp)) (eq_error_of_map_cons h)
      | optional => exact next (not_offence_of_ne_repeated ht (by simp)) (eq_error_of_map_cons h)
      | repeated =>
        cases rest with
        | nil => cases h
        | cons u rest =>
          obtain rfl := Except.error.inj h
          exact ⟨_, .repeatedNotLast ht rfl (by simp), hpassed⟩
    | _ =>
      obtain rfl := Except.error.inj h
      exact ⟨_, .notAnOperand ht (by simp [OperandType.isOperand_iff]), hpassed⟩

theorem not_offence_of_ofTypes {opcode : UInt16} {l : Layout} (h : ofTypes opcode types = .ok l) :
    ∀ i e, ¬Offence types i e := by
  obtain ⟨-, rfl⟩ := ofTypes_eq_ok_iff.mp h
  have hlast := exists_ofTypes_iff.mp ⟨l, h⟩
  rw [forall_not_offence_iff, Layout.types, ← List.map_dropLast, List.forall_mem_map, List.forall_mem_map]
  refine ⟨fun s _ => OperandType.isOperand_iff.mpr ⟨s, rfl⟩, fun s hs => ?_⟩
  rw [OperandType.isRepeated_operand_iff]
  exact hlast s hs

/-! ## Main result -/

/-- **The check of a layout is exact, and reports the first offence.** It accepts types that all stand for operands, the last
of which alone may be repeated. For others the error names the type, or the place, of the first offence. An accepted layout
has one place for each type, in order. The type can be had back from its place, and the place from the number of the type. -/
theorem ofTypes_exact (opcode : UInt16) (types : List OperandType) :
    ((∃ l, ofTypes opcode types = .ok l) ↔ (∀ t ∈ types, t.IsOperand) ∧ ∀ t ∈ types.dropLast, ¬t.isRepeated) ∧
    (∀ e, ofTypes opcode types = .error e ↔ ∃ i, FirstOffence types i e) ∧
    ∀ l, ofTypes opcode types = .ok l → l.opcode = opcode ∧ l.types = types ∧
      List.Forall₂ Slot.Wraps l.slots types ∧ List.Forall₂ Slot.ReadBack l.slots types := by
  have hfirst {e : LayoutError} (h : ofTypes opcode types = .error e) : ∃ i, FirstOffence types i e :=
    firstOffence_of_ofTypesFrom [] h (by simp)
  refine ⟨?_, fun e => ⟨hfirst, ?_⟩, ?_⟩
  · rw [← forall_not_offence_iff]
    constructor
    · rintro ⟨l, hl⟩
      exact not_offence_of_ofTypes hl
    · intro hnone
      cases h : ofTypes opcode types with
      | ok l => exact ⟨l, rfl⟩
      | error e =>
        obtain ⟨i, hi⟩ := hfirst h
        exact absurd hi.offence (hnone i e)
  · rintro ⟨i, hi⟩
    cases h : ofTypes opcode types with
    | ok l => exact absurd hi.offence (not_offence_of_ofTypes h i e)
    | error e' =>
      obtain ⟨j, hj⟩ := hfirst h
      rw [hi.unique hj]
  · intro l hl
    obtain ⟨hopcode, rfl⟩ := ofTypes_eq_ok_iff.mp hl
    exact ⟨hopcode, rfl, l.wraps_slots, l.wraps_slots.imp fun _ _ h => h.readBack⟩

/-- a text and any number of IDs; with a marker behind them the IDs are not the last -/
theorem ofTypes_exact_sample :
    let types : List OperandType := [Kind.string.type, .operand ⟨.repeated, .id .reference⟩]
    let l : Layout := ⟨9, [⟨.string, false⟩], some (.id .reference)⟩
    (ofTypes 9 types = .ok l ∧ List.Forall₂ Slot.Wraps l.slots types ∧ List.Forall₂ Slot.ReadBack l.slots types) ∧
      ofTypes 9 (types ++ [.absent]) = .error (.repeatedNotLast 1) ∧
      ∃ i, FirstOffence (types ++ [.absent]) i (.repeatedNotLast 1) := by
  intro types l
  have hok : ofTypes 9 types = .ok l := rfl
  have herror : ofTypes 9 (types ++ [.absent]) = .error (.repeatedNotLast 1) := rfl
  obtain ⟨-, -, hwraps, hreadBack⟩ := (ofTypes_exact 9 types).2.2 l hok
  exact ⟨⟨hok, hwraps, hreadBack⟩, herror, ((ofTypes_exact 9 _).2.1 _).mp herror⟩

end Layout

end Spirv
