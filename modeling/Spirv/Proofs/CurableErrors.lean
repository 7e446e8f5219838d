/-
What more operands could do for operands that are not encoded. An encoder stops in front of the operand that is wrong. When
none is left in front of it, operands were missing: those that were put are the first of some admitted operands. When one is
left, that one is wrong, and it stays wrong whatever stands behind it, because with more operands behind the others the
encoder goes the same way.

- `Encoder.Fails.exists_completion`: operands that were missing can be supplied.
- `Encoder.Fails.feed`: with more operands the encoder fails as before.
- `Encoder.Fails.truthful`: what an error says about the operands left.

Main result:
- `encode_error_curable_or_final`: an error is curable or final, and most errors say which of the two they are.
-/
import Spirv.Proofs.EncodingFailures
import Spirv.Proofs.FewestWords

namespace Spirv

variable {x : Expansion}

/-! ## Operands that are missing -/

namespace Encoder

/-- When no operand is left, those that were put begin the groups that were demanded. -/
theorem PutFails.exists_completion (hx : x.Idle) {ds : List Demand} {e : Encoder} {stop : EncodeStop}
    (h : PutFails x ds e stop) (hend : stop.encoder.rest = []) :
    ∃ more, Groups x (ds.map (·.kind)) (e.rest ++ more) := by
  induction h with
  | @unmet d ds e =>
    refine ⟨((d :: ds).map (·.kind)).map Kind.zeros, ?_⟩
    rw [hend, List.nil_append]
    exact groups_zeros hx _
  | misshapen hrest =>
    rw [hrest] at hend
    cases hend
  | @behind d ds e words rest stop hrest hfits _ ih =>
    obtain ⟨more, hos⟩ := ih hend
    rw [List.map_append, Demand.map_kind_follow] at hos
    refine ⟨more, ?_⟩
    rw [hrest, List.map_cons]
    exact groups_cons_iff.mpr ⟨words, rest ++ more, rfl, hfits, hos⟩

/-- When no operand is left, those that were put begin operands that the layout admits. -/
theorem Fails.exists_completion (hx : x.Idle) {l : Layout} {e : Encoder} {stop : EncodeStop} (h : Fails x l e stop)
    (hend : stop.encoder.rest = []) : ∃ more, l.Admits x (e.rest ++ more) := by
  induction h with
  | @field f l e stop _ h =>
    obtain ⟨more, hp⟩ := h.exists_completion hx hend
    obtain ⟨q, hq, -⟩ := l.exists_admits_least hx
    exact ⟨more ++ q, admits_cons_iff.mpr (.inr ⟨_, q, (List.append_assoc ..).symm, hp, hq⟩)⟩
  | behindField hput _ ih =>
    obtain ⟨p, hp, hwrites⟩ := put_eq_ok_iff.mp hput
    obtain ⟨more, hq⟩ := ih hend
    refine ⟨more, admits_cons_iff.mpr (.inr ⟨p, _, ?_, hp, hq⟩)⟩
    rw [hwrites.rest, List.append_assoc]
  | @omitted f required l e _ hrest =>
    -- the field that was left out has to be supplied with the required one
    obtain ⟨q, hq, -⟩ := l.exists_admits_least hx
    refine ⟨f.kind.zeros :: q, admits_cons_iff.mpr (.inr ⟨[f.kind.zeros], q, ?_, groups_zeros hx [f.kind], hq⟩)⟩
    rw [hrest]
    rfl
  | other _ hrest =>
    rw [hrest] at hend
    cases hend
  | repetition _ h =>
    obtain ⟨more, hp⟩ := h.exists_completion hx hend
    exact ⟨more, admits_tail_iff.mpr ⟨1, hp⟩⟩
  | behindRepetition hput _ ih =>
    obtain ⟨p, hp, hwrites⟩ := put_eq_ok_iff.mp hput
    obtain ⟨more, hq⟩ := ih hend
    obtain ⟨n, hq⟩ := admits_tail_iff.mp hq
    refine ⟨more, admits_tail_iff.mpr ⟨n + 1, ?_⟩⟩
    rw [hwrites.rest, List.append_assoc]
    exact hp.append hq
  | excess hrest =>
    rw [hrest] at hend
    cases hend

end Encoder

/-! ## Operands that are wrong -/

/-- the error when some more operands stand behind the others: when operands are left over, these are left over too -/
def EncodeError.withMore (more : Nat) : EncodeError → EncodeError
  | .excessOperands first count => .excessOperands first (count + more)
  | error => error

theorem Demand.withMore_unmet (d : Demand) (found : Option OperandType) (more : Nat) :
    (d.unmet found).withMore more = d.unmet found := by
  unfold unmet
  split <;> rfl

namespace Encoder

/-- the encoder with more operands behind those it has -/
def feed (e : Encoder) (more : List Operand) : Encoder := ⟨e.rest ++ more, e.words⟩

theorem head?_feed {e : Encoder} {type : OperandType} (h : e.rest.head?.map (·.type) = some type) (more : List Operand) :
    (e.feed more).rest.head?.map (·.type) = some type := by
  obtain ⟨o, hhead, htype⟩ := Option.map_eq_some_iff.mp h
  obtain ⟨rest, hrest⟩ := List.head?_eq_some_iff.mp hhead
  rw [feed, hrest]
  exact congrArg some htype

theorem Writes.feed {e e' : Encoder} {operands : List Operand} (h : e.Writes operands e') (more : List Operand) :
    (e.feed more).Writes operands (e'.feed more) := by
  refine ⟨?_, h.words⟩
  rw [Encoder.feed, Encoder.feed, h.rest, List.append_assoc]

theorem put_feed {k : Kind} {e e' : Encoder} (h : put x k e = .ok e') (more : List Operand) :
    put x k (e.feed more) = .ok (e'.feed more) := by
  obtain ⟨operands, hos, hwrites⟩ := put_eq_ok_iff.mp h
  exact put_eq_ok_iff.mpr ⟨operands, hos, hwrites.feed more⟩

end Encoder

/-- where encoding stops with more operands behind the others -/
def EncodeStop.feed (stop : EncodeStop) (more : List Operand) : EncodeStop :=
  ⟨stop.error.withMore more.length, stop.encoder.feed more⟩

namespace Encoder

/-- When an operand is left, the demands fail in the same way with more operands behind it. -/
theorem PutFails.feed {ds : List Demand} {e : Encoder} {stop : EncodeStop} (h : PutFails x ds e stop)
    (hleft : stop.encoder.rest ≠ []) (more : List Operand) : PutFails x ds (e.feed more) (stop.feed more) := by
  induction h with
  | @unmet d ds e found hfound hwrong =>
    obtain ⟨o, rest, hrest⟩ := List.exists_cons_of_ne_nil hleft
    have hfound' : (e.feed more).rest.head?.map (·.type) = found := by
      rw [← hfound, hrest]
      exact head?_feed (congrArg (·.head?.map (·.type)) hrest) more
    rw [EncodeStop.feed, Demand.withMore_unmet]
    exact .unmet hfound' hwrong
  | @misshapen d ds e words rest fault hrest hfault =>
    have hsame : fault.withMore more.length = fault := by
      rcases Kind.wordsFault?_cases hfault with ⟨count, rfl⟩ | rfl <;> rfl
    have hrest' : (e.feed more).rest = ⟨d.kind.type, words⟩ :: (rest ++ more) := by rw [Encoder.feed, hrest, List.cons_append]
    rw [EncodeStop.feed, hsame]
    exact .misshapen hrest' hfault
  | behind hrest hfits _ ih =>
    refine .behind ?_ hfits (ih hleft)
    rw [Encoder.feed, hrest, List.cons_append]

/-- When an operand is left, a run fails in the same way with more operands behind it. -/
theorem Fails.feed {l : Layout} {e : Encoder} {stop : EncodeStop} (h : Fails x l e stop)
    (hleft : stop.encoder.rest ≠ []) (more : List Operand) : Fails x l (e.feed more) (stop.feed more) := by
  induction h with
  | field hgiven h => exact .field (fun hoptional => head?_feed (hgiven hoptional) more) (h.feed hleft more)
  | behindField hput _ ih => exact .behindField (put_feed hput more) (ih hleft)
  | omitted _ hrest => exact absurd hrest hleft
  | @other f l e o rest hoptional hrest htype =>
    have hsame : (l.refusal f.kind o.type).withMore more.length = l.refusal f.kind o.type := by
      rcases l.refusal_cases f.kind o.type with ⟨next, h⟩ | h <;> rw [h] <;> rfl
    have hrest' : (e.feed more).rest = o :: (rest ++ more) := by rw [Encoder.feed, hrest, List.cons_append]
    rw [EncodeStop.feed, hsame]
    exact .other hoptional hrest' htype
  | repetition hmore h => exact .repetition (head?_feed hmore more) (h.feed hleft more)
  | behindRepetition hput _ ih => exact .behindRepetition (put_feed hput more) (ih hleft)
  | @excess opcode tail e o rest hrest hother =>
    have hrest' : (e.feed more).rest = o :: (rest ++ more) := by rw [Encoder.feed, hrest, List.cons_append]
    have hcount : rest.length + 1 + more.length = (rest ++ more).length + 1 := by
      rw [List.length_append]
      omega
    rw [EncodeStop.feed, EncodeError.withMore, hcount]
    exact .excess hrest' hother

end Encoder

/-! ## What an error says -/

/-- what an error says that more operands can cure -/
def EncodeError.AsksForOperands : EncodeError → Prop
  | .missingOperand _ | .maskOperandMismatch _ _ _ none => True
  | _ => False

/-- what an error says of an operand that is there -/
def EncodeError.Objects : EncodeError → Prop
  | .unexpectedOperand _ _ | .wordCountMismatch _ _ | .unterminatedString | .maskOperandMismatch _ _ _ (some _)
  | .excessOperands _ _ => True
  | _ => False

/-- the error speaks of an operand just when one is left -/
structure EncodeStop.Truthful (stop : EncodeStop) : Prop where
  asks : stop.error.AsksForOperands → stop.encoder.rest = []
  objects : stop.error.Objects → stop.encoder.rest ≠ []

namespace Encoder

theorem PutFails.truthful {ds : List Demand} {e : Encoder} {stop : EncodeStop} (h : PutFails x ds e stop) :
    stop.Truthful := by
  induction h with
  | @unmet d ds e found hfound =>
    obtain ⟨k, source⟩ := d
    cases found with
    | none =>
      have hrest : e.rest = [] := List.head?_eq_none_iff.mp (Option.map_eq_none_iff.mp hfound)
      exact ⟨fun _ => hrest, by cases source <;> exact False.elim⟩
    | some type =>
      refine ⟨by cases source <;> exact False.elim, fun _ hrest => ?_⟩
      rw [show e.rest = [] from hrest] at hfound
      cases hfound
  | misshapen hrest hfault =>
    refine ⟨fun hasks => ?_, fun _ => by simp [hrest]⟩
    rcases Kind.wordsFault?_cases hfault with ⟨count, rfl⟩ | rfl
    · exact False.elim hasks
    · exact False.elim hasks
  | behind _ _ _ ih => exact ih

theorem Fails.truthful {l : Layout} {e : Encoder} {stop : EncodeStop} (h : Fails x l e stop) : stop.Truthful := by
  induction h with
  | field _ h => exact h.truthful
  | behindField _ _ ih => exact ih
  | omitted _ hrest => exact ⟨fun _ => hrest, False.elim⟩
  | @other f l e o rest _ hrest =>
    refine ⟨fun hasks => ?_, fun _ => by simp [hrest]⟩
    rcases l.refusal_cases f.kind o.type with ⟨next, h⟩ | h
    · rw [h] at hasks
      exact False.elim hasks
    · rw [h] at hasks
      exact False.elim hasks
  | repetition _ h => exact h.truthful
  | behindRepetition _ _ ih => exact ih
  | excess hrest => exact ⟨False.elim, fun _ => by simp [hrest]⟩

end Encoder

/-! ## Main result -/

namespace Layout

/-- with some more operands the only thing that can be wrong is that there are too many words -/
def Curable (x : Expansion) (l : Layout) (operands : List Operand) : Prop :=
  ∃ more, (∃ words, l.encode x (operands ++ more) = .ok words) ∨
    ∃ total, l.encode x (operands ++ more) = .error (.wordCountOverflow total)

/-- whatever operands stand behind these, encoding fails in the same way -/
def Final (x : Expansion) (l : Layout) (operands : List Operand) (error : EncodeError) : Prop :=
  ∀ more, l.encode x (operands ++ more) = .error (error.withMore more.length)

theorem curable_of_fails (hx : x.Idle) {l : Layout} {operands : List Operand} {stop : EncodeStop}
    (h : Encoder.Fails x l ⟨operands, #[]⟩ stop) (hend : stop.encoder.rest = []) : l.Curable x operands := by
  obtain ⟨more, hos⟩ := h.exists_completion hx hend
  refine ⟨more, ?_⟩
  rw [encode_of_admits hos]
  simp only
  split
  · exact .inl ⟨_, rfl⟩
  · exact .inr ⟨_, rfl⟩

theorem final_of_fails {l : Layout} {operands : List Operand} {stop : EncodeStop}
    (h : Encoder.Fails x l ⟨operands, #[]⟩ stop) (hleft : stop.encoder.rest ≠ []) : l.Final x operands stop.error :=
  fun more => encode_of_fails (h.feed hleft more)

/-- What fails in the same way for ever is not cured. -/
theorem Final.not_curable {l : Layout} {operands : List Operand} {error : EncodeError} (h : l.Final x operands error)
    (hcount : ∀ total, error ≠ .wordCountOverflow total) : ¬l.Curable x operands := by
  rintro ⟨more, ⟨words, hmore⟩ | ⟨total, hmore⟩⟩
  · rw [h more] at hmore
    cases hmore
  · rw [h more] at hmore
    cases error with
    | wordCountOverflow total => exact hcount total rfl
    | _ => cases hmore

end Layout

/-- **Encoding errors are curable or final**, for any layout that types can have (`Layout.ofTypes_eq_ok_iff`). When encoding
fails with anything but too many words, either some operands put behind the others cure it, or it fails in the same way
whatever operands are put there, and never both. Missing operands can be supplied; an operand that is wrong stays wrong. -/
theorem encode_error_curable_or_final (g : Grammar) {l : Layout} {operands : List Operand} {error : EncodeError}
    (h : l.encode g.expand operands = .error error) (hcount : ∀ total, error ≠ .wordCountOverflow total) :
    ((l.Curable g.expand operands ∧ ¬l.Final g.expand operands error) ∨
      (¬l.Curable g.expand operands ∧ l.Final g.expand operands error)) ∧
    ((∃ k, error = .missingOperand k) ∨ (∃ m w k, error = .maskOperandMismatch m w k none) →
      l.Curable g.expand operands) ∧
    ((∃ k type, error = .unexpectedOperand k type) ∨ (∃ k found, error = .wordCountMismatch k found) ∨
        error = .unterminatedString ∨ (∃ m w k type, error = .maskOperandMismatch m w k (some type)) ∨
        (∃ type count, error = .excessOperands type count) →
      l.Final g.expand operands error) := by
  obtain ⟨stop, hfails, rfl⟩ := Layout.exists_fails_of_encode h hcount
  refine ⟨?_, ?_, ?_⟩
  · by_cases hend : stop.encoder.rest = []
    · have hcurable := Layout.curable_of_fails g.idle_expand hfails hend
      exact .inl ⟨hcurable, fun hfinal => hfinal.not_curable hcount hcurable⟩
    · have hfinal := Layout.final_of_fails hfails hend
      exact .inr ⟨hfinal.not_curable hcount, hfinal⟩
  · intro herror
    apply Layout.curable_of_fails g.idle_expand hfails
    apply hfails.truthful.asks
    rcases herror with ⟨k, herror⟩ | ⟨m, w, k, herror⟩ <;> rw [herror] <;> trivial
  · intro herror
    apply Layout.final_of_fails hfails
    apply hfails.truthful.objects
    rcases herror with ⟨k, type, herror⟩ | ⟨k, found, herror⟩ | herror | ⟨m, w, k, type, herror⟩ | ⟨type, count, herror⟩ <;>
      rw [herror] <;> trivial

/-- The mask asks for a number and a scope, of which only the number is there. -/
theorem encode_error_curable_or_final_sample :
    Sample.layout.encode Grammar.core.expand (Sample.operands.take 4) =
      .error (.maskOperandMismatch .memoryAccess 0xb (.id .scope) none) ∧
    (∀ total, EncodeError.maskOperandMismatch .memoryAccess 0xb (.id .scope) none ≠ .wordCountOverflow total) ∧
    Sample.layout.Curable Grammar.core.expand (Sample.operands.take 4) := by
  have hencode : Sample.layout.encode Grammar.core.expand (Sample.operands.take 4) =
      .error (.maskOperandMismatch .memoryAccess 0xb (.id .scope) none) := by
    with_unfolding_all rfl
  have hcount (total : Nat) :
      EncodeError.maskOperandMismatch .memoryAccess 0xb (.id .scope) none ≠ .wordCountOverflow total := nofun
  exact ⟨hencode, hcount, (encode_error_curable_or_final Grammar.core hencode hcount).2.1 (.inr ⟨_, _, _, rfl⟩)⟩

end Spirv
