/-
What the error of a mask points at. The encoder demands the kinds that a mask word asks for, one after the other, right
behind the mask. As no mask asks for a mask, nothing stands between the operands that meet these demands, and the error is
found where they break off (`BreaksOff`). The operands in front of the mask are put without an error, whatever they are.

- `Encoder.PutFails.breaksOff`: the demands of a mask word.
- `Encoder.PutFails.exists_mask`: an operand and what it asks for.
- `Encoder.Fails.exists_mask`: a whole run.

Main result:
- `mask_mismatch_points_at`: the place of the mask, and that of the operand which is wrong or missing.
-/
import Spirv.Proofs.Decoding
import Spirv.Proofs.EncodingFailures

namespace Spirv

/-- no mask asks for a mask -/
def Expansion.Flat (x : Expansion) : Prop := ∀ m w, ∀ k ∈ x m w, ∀ n, k ≠ .mask n

theorem Grammar.flat_expand_core : core.expand.Flat := by
  have hparams : ∀ e ∈ core.masks.entries, ∀ bit ∈ e.2.defined, ∀ k ∈ bit.2.params, k.cls ≠ .mask := by decide +kernel
  intro m w k hk n
  obtain ⟨e, he, bit, hbit, hparam⟩ := exists_param_of_mem_expand hk
  rintro rfl
  exact hparams e he bit hbit _ hparam rfl

/-- The first operands are of the first kinds, in order; in place of the kind that is expected next another type is found, or
nothing. -/
def BreaksOff (kinds : List Kind) (operands : List Operand) (expected : Kind) (found : Option OperandType) : Prop :=
  ∃ j, kinds[j]? = some expected ∧ (operands.take j).map (·.type) = (kinds.take j).map Kind.type ∧
    found = (operands[j]?).map (·.type) ∧ found ≠ some expected.type

variable {x : Expansion} {m : MaskKind} {w : Word} {expected : Kind} {found : Option OperandType}

theorem BreaksOff.cons {kinds : List Kind} {operands : List Operand} (h : BreaksOff kinds operands expected found)
    (k : Kind) (words : List Word) : BreaksOff (k :: kinds) (⟨k.type, words⟩ :: operands) expected found := by
  obtain ⟨j, hexpected, hgiven, hfound, hwrong⟩ := h
  refine ⟨j + 1, hexpected, ?_, hfound, hwrong⟩
  rw [List.take_succ_cons, List.take_succ_cons, List.map_cons, List.map_cons, hgiven]

theorem Demand.follow_of_plain (x : Expansion) {k : Kind} (hk : ∀ n, k ≠ .mask n) (words : List Word) :
    Demand.follow x k words = [] := by
  apply List.map_eq_nil_iff.mp
  rw [map_kind_follow, Kind.follow_of_plain x hk]

namespace Encoder

/-- The error of a mask's demand is found where the operands that are demanded break off. -/
theorem PutFails.breaksOff {m' : MaskKind} {w' : Word} {kinds : List Kind} {e : Encoder} {stop : EncodeStop}
    (hkinds : ∀ k ∈ kinds, ∀ n, k ≠ .mask n) (h : PutFails x (kinds.map (⟨·, some (m', w')⟩)) e stop)
    (herror : stop.error = .maskOperandMismatch m w expected found) :
    m' = m ∧ w' = w ∧ BreaksOff kinds e.rest expected found := by
  induction kinds generalizing e with
  | nil => cases h
  | cons k kinds ih =>
    obtain ⟨hk, hkinds⟩ := List.forall_mem_cons.mp hkinds
    rw [List.map_cons] at h
    cases h with
    | unmet hfound hwrong =>
      obtain ⟨rfl, rfl, rfl, rfl⟩ := EncodeError.maskOperandMismatch.inj herror
      exact ⟨rfl, rfl, 0, rfl, rfl, by rw [← hfound, List.head?_eq_getElem?], hwrong⟩
    | misshapen _ hfault =>
      rcases Kind.wordsFault?_cases hfault with ⟨count, rfl⟩ | rfl <;> cases herror
    | @behind _ _ _ words rest _ hrest _ h =>
      simp only [Demand.follow_of_plain x hk, List.nil_append] at h
      obtain ⟨hm, hw, hbreaks⟩ := ih hkinds h
      rw [hrest]
      exact ⟨hm, hw, hbreaks.cons k words⟩

/-- An operand fails with the error of a mask when it is this mask and what it asks for breaks off behind it. -/
theorem PutFails.exists_mask (hx : x.Flat) {k : Kind} {e : Encoder} {stop : EncodeStop} (h : PutFails x [.plain k] e stop)
    (herror : stop.error = .maskOperandMismatch m w expected found) :
    ∃ behind, e.rest = ⟨(Kind.mask m).type, [w]⟩ :: behind ∧ BreaksOff (x m w) behind expected found := by
  cases h with
  | @unmet _ _ _ found' => cases found' <;> cases herror
  | misshapen _ hfault =>
    rcases Kind.wordsFault?_cases hfault with ⟨count, rfl⟩ | rfl <;> cases herror
  | @behind _ _ _ words rest _ hrest hfits h =>
    rw [Demand.kind_plain] at hrest hfits h
    rw [List.append_nil] at h
    by_cases hk : ∀ n, k ≠ .mask n
    · rw [Demand.follow_of_plain x hk] at h
      cases h
    · obtain ⟨m', rfl⟩ : ∃ m', k = .mask m' := by simpa using hk
      obtain ⟨w', rfl⟩ := Kind.mask_fits_iff.mp hfits
      obtain ⟨rfl, rfl, hbreaks⟩ := h.breaksOff (hx m' w') herror
      exact ⟨rest, hrest, hbreaks⟩

/-- A run fails with the error of a mask when this mask is among its operands and what it asks for breaks off behind it. -/
theorem Fails.exists_mask (hx : x.Flat) {l : Layout} {e : Encoder} {stop : EncodeStop} (h : Fails x l e stop)
    (herror : stop.error = .maskOperandMismatch m w expected found) :
    ∃ before behind, e.rest = before ++ ⟨(Kind.mask m).type, [w]⟩ :: behind ∧
      BreaksOff (x m w) behind expected found := by
  have hfirst {k : Kind} {e : Encoder} {stop : EncodeStop} (h : PutFails x [.plain k] e stop)
      (herror : stop.error = .maskOperandMismatch m w expected found) : ∃ before behind,
        e.rest = before ++ ⟨(Kind.mask m).type, [w]⟩ :: behind ∧ BreaksOff (x m w) behind expected found := by
    obtain ⟨behind, hrest, hbreaks⟩ := h.exists_mask hx herror
    exact ⟨[], behind, hrest, hbreaks⟩
  have hlater {k : Kind} {e e' : Encoder} (hput : put x k e = .ok e') (h : ∃ before behind,
        e'.rest = before ++ ⟨(Kind.mask m).type, [w]⟩ :: behind ∧ BreaksOff (x m w) behind expected found) :
      ∃ before behind, e.rest = before ++ ⟨(Kind.mask m).type, [w]⟩ :: behind ∧
        BreaksOff (x m w) behind expected found := by
    obtain ⟨p, -, hwrites⟩ := put_eq_ok_iff.mp hput
    obtain ⟨before, behind, hrest, hbreaks⟩ := h
    exact ⟨p ++ before, behind, by rw [hwrites.rest, hrest, List.append_assoc], hbreaks⟩
  induction h with
  | field _ h => exact hfirst h herror
  | behindField hput _ ih => exact hlater hput (ih herror)
  | omitted => cases herror
  | @other f l e o =>
    rcases l.refusal_cases f.kind o.type with ⟨next, h⟩ | h <;> rw [h] at herror <;> cases herror
  | repetition _ h => exact hfirst h herror
  | behindRepetition hput _ ih => exact hlater hput (ih herror)
  | excess => cases herror

end Encoder

/-! ## Main result -/

/-- **The error of a mask points at a real mismatch**, for any layout that types can have (`Layout.ofTypes_eq_ok_iff`). The
mask is the operand at `i`, and its word is the one in the error. Behind it stand operands of the first `j` types that the
word asks for; the type that is expected is the next one, and what is found is the type of the operand in its place, if
there is one, and not the one expected. -/
theorem mask_mismatch_points_at {l : Layout} {operands : List Operand} {m : MaskKind} {w : Word} {expected : Kind}
    {found : Option OperandType}
    (h : l.encode Grammar.core.expand operands = .error (.maskOperandMismatch m w expected found)) :
    ∃ i j, operands[i]? = some ⟨(Kind.mask m).type, [w]⟩ ∧
      j < (Grammar.core.expand m w).length ∧
      ((operands.drop (i + 1)).take j).map (·.type) = ((Grammar.core.expand m w).take j).map Kind.type ∧
      (Grammar.core.expand m w)[j]? = some expected ∧
      found = (operands[i + 1 + j]?).map (·.type) ∧ found ≠ some expected.type := by
  obtain ⟨stop, hfails, herror⟩ := Layout.exists_fails_of_encode h nofun
  obtain ⟨before, behind, hrest, j, hexpected, hgiven, hfound, hwrong⟩ :=
    hfails.exists_mask Grammar.flat_expand_core herror
  have hoperands : operands = before ++ ⟨(Kind.mask m).type, [w]⟩ :: behind := hrest
  have hbehind : operands.drop (before.length + 1) = behind := by rw [hoperands, List.drop_append]; simp
  refine ⟨before.length, j, ?_, (List.getElem?_eq_some_iff.mp hexpected).1, ?_, hexpected, ?_, hwrong⟩
  · rw [hoperands, List.getElem?_append_right (Nat.le_refl _), Nat.sub_self, List.getElem?_cons_zero]
  · rw [hbehind, hgiven]
  · rw [← List.getElem?_drop, hbehind, hfound]

/-- The mask asks for a number and a scope; in place of the scope there is a pair. -/
theorem mask_mismatch_points_at_sample :
    Sample.layout.encode Grammar.core.expand (Sample.operands.eraseIdx 4) =
      .error (.maskOperandMismatch .memoryAccess 0xb (.id .scope) (some (Kind.type (.pair .idId)))) ∧
    ∃ i j, (Sample.operands.eraseIdx 4)[i]? = some ⟨(Kind.mask .memoryAccess).type, [0xb]⟩ ∧
      j < (Grammar.core.expand .memoryAccess 0xb).length ∧
      (((Sample.operands.eraseIdx 4).drop (i + 1)).take j).map (·.type) =
        ((Grammar.core.expand .memoryAccess 0xb).take j).map Kind.type ∧
      (Grammar.core.expand .memoryAccess 0xb)[j]? = some (.id .scope) ∧
      some (Kind.type (.pair .idId)) = ((Sample.operands.eraseIdx 4)[i + 1 + j]?).map (·.type) ∧
      some (Kind.type (.pair .idId)) ≠ some (Kind.id .scope).type := by
  have hencode : Sample.layout.encode Grammar.core.expand (Sample.operands.eraseIdx 4) =
      .error (.maskOperandMismatch .memoryAccess 0xb (.id .scope) (some (Kind.type (.pair .idId)))) := by
    with_unfolding_all rfl
  exact ⟨hencode, mask_mismatch_points_at hencode⟩

end Spirv
