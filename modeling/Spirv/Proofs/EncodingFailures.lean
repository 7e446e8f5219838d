/-
How encoding fails. `Encoder.PutFails` says it for operands that are demanded one after the other, `Encoder.Fails` for those of
a layout. Each has one rule for each way to fail and one for each way to go on, and what they describe is all that can
happen. What is said of every failure is said by induction on them.

- `Encoder.putEach_eq_error_iff`, `Encoder.run_eq_error_iff`: an encoder fails in these ways and in no other.
- `Layout.encode_of_fails`, `Layout.exists_fails_of_encode`: the same for a whole instruction. Only when nothing has failed
  is the number of words looked at.
-/
import Spirv.Proofs.Encoding

namespace Spirv

variable {x : Expansion}

/-- what an optional field of kind `k` in front of the layout answers to an operand of this type -/
def Layout.refusal (l : Layout) (k : Kind) (type : OperandType) : EncodeError :=
  match (l.fields.map (·.kind) ++ l.tail.toList).find? (·.type = type) with
  | some next => .illegalOptionalOmission k next
  | none => .unexpectedOperand k type

/-- The words of an operand have the wrong number, or are those of a text without an end. -/
theorem Kind.wordsFault?_cases {k : Kind} {words : List Word} {fault : EncodeError} (h : k.wordsFault? words = some fault) :
    (∃ count, fault = .wordCountMismatch k count) ∨ fault = .unterminatedString := by
  unfold wordsFault? at h
  split at h
  · split at h
    · cases h
    · exact .inl ⟨_, (Option.some.inj h).symm⟩
  · split at h
    · exact .inr (Option.some.inj h).symm
    · cases h
    · exact .inl ⟨_, (Option.some.inj h).symm⟩

theorem Layout.refusal_cases (l : Layout) (k : Kind) (type : OperandType) :
    (∃ next, l.refusal k type = .illegalOptionalOmission k next) ∨ l.refusal k type = .unexpectedOperand k type := by
  unfold refusal
  split
  · exact .inl ⟨_, rfl⟩
  · exact .inr rfl

/-! ## Operands that are demanded -/

namespace Encoder

/-- the ways in which putting one operand for each demand can fail -/
inductive PutFails (x : Expansion) : List Demand → Encoder → EncodeStop → Prop where
  /-- an operand of another type comes next, or none -/
  | unmet {d ds e found} (hfound : e.rest.head?.map (·.type) = found) (hwrong : found ≠ some d.kind.type) :
      PutFails x (d :: ds) e ⟨d.unmet found, e⟩
  | misshapen {d ds e words rest fault} (hrest : e.rest = ⟨d.kind.type, words⟩ :: rest)
      (hfault : d.kind.wordsFault? words = some fault) : PutFails x (d :: ds) e ⟨fault, e⟩
  | behind {d ds e words rest stop} (hrest : e.rest = ⟨d.kind.type, words⟩ :: rest) (hfits : d.kind.shape.Fits words)
      (h : PutFails x (Demand.follow x d.kind words ++ ds) ⟨rest, e.words ++ words⟩ stop) : PutFails x (d :: ds) e stop

theorem putFails_of_putEach {ds : List Demand} {e : Encoder} {stop : EncodeStop} (h : putEach x ds e = .error stop) :
    PutFails x ds e stop := by
  fun_induction putEach x ds e with
  | case1 => cases h
  | case2 d ds e hrest =>
    obtain rfl := Except.error.inj h
    exact .unmet (by rw [hrest]; rfl) (Option.some_ne_none _).symm
  | case3 d ds e o rest hrest htype =>
    obtain rfl := Except.error.inj h
    exact .unmet (by rw [hrest]; rfl) fun hsame => htype (Option.some.inj hsame)
  | case4 d ds e o rest hrest htype fault hfault =>
    obtain rfl := Except.error.inj h
    obtain ⟨type, words⟩ := o
    obtain rfl : type = d.kind.type := by simpa using htype
    exact .misshapen hrest hfault
  | case5 d ds e o rest hrest htype hfault _ ih =>
    obtain ⟨type, words⟩ := o
    obtain rfl : type = d.kind.type := by simpa using htype
    exact .behind hrest (Kind.wordsFault?_eq_none_iff.mp hfault) (ih h)

theorem PutFails.putEach_eq {ds : List Demand} {e : Encoder} {stop : EncodeStop} (h : PutFails x ds e stop) :
    putEach x ds e = .error stop := by
  induction h with
  | @unmet d ds e found hfound hwrong =>
    rw [putEach]
    split
    · rename_i hrest
      rw [hrest] at hfound
      obtain rfl := hfound
      rfl
    · rename_i o rest hrest
      rw [hrest] at hfound
      obtain rfl := hfound
      exact if_pos fun hsame => hwrong (congrArg some hsame)
  | @misshapen d ds e words rest fault hrest hfault =>
    rw [putEach]
    split
    · rename_i hrest'
      simp [hrest] at hrest'
    · rename_i o rest' hrest'
      obtain ⟨rfl, rfl⟩ := List.cons.inj (hrest.symm.trans hrest')
      rw [if_neg (by simp), hfault]
  | @behind d ds e words rest stop hrest hfits _ ih =>
    rw [putEach]
    split
    · rename_i hrest'
      simp [hrest] at hrest'
    · rename_i o rest' hrest'
      obtain ⟨rfl, rfl⟩ := List.cons.inj (hrest.symm.trans hrest')
      rw [if_neg (by simp), Kind.wordsFault?_eq_none_iff.mpr hfits]
      exact ih

theorem putEach_eq_error_iff {ds : List Demand} {e : Encoder} {stop : EncodeStop} :
    putEach x ds e = .error stop ↔ PutFails x ds e stop :=
  ⟨putFails_of_putEach, PutFails.putEach_eq⟩

/-! ## Operands of a layout -/

/-- the ways in which a run over a layout can fail -/
inductive Fails (x : Expansion) : Layout → Encoder → EncodeStop → Prop where
  | field {f : Field} {l : Layout} {e stop} (hgiven : f.optional = true → e.rest.head?.map (·.type) = some f.kind.type)
      (h : PutFails x [.plain f.kind] e stop) : Fails x (l.cons f) e stop
  | behindField {f : Field} {l : Layout} {e e' stop} (hput : put x f.kind e = .ok e') (h : Fails x l e' stop) :
      Fails x (l.cons f) e stop
  /-- an optional field is left out although a field behind it is required -/
  | omitted {f required : Field} {l : Layout} {e} (hoptional : f.optional = true) (hrest : e.rest = [])
      (hrequired : l.fields.find? (!·.optional) = some required) :
      Fails x (l.cons f) e ⟨.illegalOptionalOmission f.kind required.kind, e⟩
  /-- an optional field is left out although an operand follows -/
  | other {f : Field} {l : Layout} {e o rest} (hoptional : f.optional = true) (hrest : e.rest = o :: rest)
      (htype : o.type ≠ f.kind.type) : Fails x (l.cons f) e ⟨l.refusal f.kind o.type, e⟩
  | repetition {opcode k e stop} (hmore : e.rest.head?.map (·.type) = some k.type)
      (h : PutFails x [.plain k] e stop) : Fails x ⟨opcode, [], some k⟩ e stop
  | behindRepetition {opcode k e e' stop} (hput : put x k e = .ok e') (h : Fails x ⟨opcode, [], some k⟩ e' stop) :
      Fails x ⟨opcode, [], some k⟩ e stop
  /-- operands are left behind all that the layout takes -/
  | excess {opcode tail e o rest} (hrest : e.rest = o :: rest) (hother : tail.map Kind.type ≠ some o.type) :
      Fails x ⟨opcode, [], tail⟩ e ⟨.excessOperands o.type (rest.length + 1), e⟩

theorem run_tail_of_more {opcode : UInt16} {k : Kind} {e : Encoder} (h : e.rest.head?.map (·.type) = some k.type) :
    run x ⟨opcode, [], some k⟩ e = put x k e >>= run x ⟨opcode, [], some k⟩ := by
  calc run x ⟨opcode, [], some k⟩ e
    _ = putRepeated x k e >>= run x ⟨opcode, [], none⟩ := run_tail ..
    _ = (put x k e >>= putRepeated x k) >>= run x ⟨opcode, [], none⟩ := by rw [putRepeated_of_more h]
    _ = put x k e >>= run x ⟨opcode, [], some k⟩ := bind_assoc ..

theorem run_of_excess {opcode : UInt16} {tail : Option Kind} {e : Encoder} {o : Operand} {rest : List Operand}
    (hrest : e.rest = o :: rest) (hother : tail.map Kind.type ≠ some o.type) :
    run x ⟨opcode, [], tail⟩ e = .error ⟨.excessOperands o.type (rest.length + 1), e⟩ := by
  have hbare : run x ⟨opcode, [], none⟩ e = .error ⟨.excessOperands o.type (rest.length + 1), e⟩ := by
    obtain ⟨operands, words⟩ := e
    obtain rfl : operands = o :: rest := hrest
    rfl
  cases tail with
  | none => exact hbare
  | some k =>
    have hmany : putRepeated x k e = .ok e := by
      apply putRepeated_of_end
      rw [hrest]
      exact hother.symm
    calc run x ⟨opcode, [], some k⟩ e
      _ = putRepeated x k e >>= run x ⟨opcode, [], none⟩ := run_tail ..
      _ = run x ⟨opcode, [], none⟩ e := by rw [hmany]; rfl
      _ = .error ⟨.excessOperands o.type (rest.length + 1), e⟩ := hbare

theorem run_of_end {l : Layout} {e : Encoder} (hrest : e.rest = []) (hl : ∀ k, ⟨k, false⟩ ∉ l.fields) :
    run x l e = .ok e :=
  run_eq_ok_iff.mpr ⟨hrest, [], admits_nil_iff.mpr hl, writes_nil_iff.mpr rfl⟩

theorem run_cons_of_omitted {f required : Field} {l : Layout} {e : Encoder} (hoptional : f.optional = true)
    (hrest : e.rest = []) (hrequired : l.fields.find? (!·.optional) = some required) :
    run x (l.cons f) e = .error ⟨.illegalOptionalOmission f.kind required.kind, e⟩ := by
  rw [run_eq_bind, Layout.fields_cons, putFields, if_pos hoptional, hrest]
  simp only [List.head?_nil, hrequired]
  rfl

theorem run_cons_of_other {f : Field} {l : Layout} {e : Encoder} {o : Operand} {rest : List Operand}
    (hoptional : f.optional = true) (hrest : e.rest = o :: rest) (htype : o.type ≠ f.kind.type) :
    run x (l.cons f) e = .error ⟨l.refusal f.kind o.type, e⟩ := by
  rw [run_eq_bind, Layout.fields_cons, Layout.tail_cons, putFields, if_pos hoptional, hrest]
  simp only [List.head?_cons]
  rw [if_neg htype]
  split
  · rename_i next hfind
    rw [Layout.refusal, hfind]
    rfl
  · rename_i hfind
    rw [Layout.refusal, hfind]
    rfl

theorem fails_of_run {l : Layout} {e : Encoder} {stop : EncodeStop} (h : run x l e = .error stop) : Fails x l e stop := by
  induction l using Layout.cons_induction generalizing e with
  | empty opcode tail =>
    -- each repetition puts an operand, so the induction is on how many are left
    induction hn : e.rest.length using Nat.strongRecOn generalizing e with
    | ind n ih =>
      by_cases hmore : ∃ k, tail = some k ∧ e.rest.head?.map (·.type) = some k.type
      · obtain ⟨k, rfl, hmore⟩ := hmore
        rw [run_tail_of_more hmore] at h
        cases hput : put x k e with
        | error stop' =>
          rw [hput] at h
          obtain rfl := Except.error.inj h
          exact .repetition hmore (putEach_eq_error_iff.mp hput)
        | ok e' =>
          rw [hput] at h
          exact .behindRepetition hput (ih _ (hn ▸ put_lt hput) h rfl)
      · cases hrest : e.rest with
        | nil =>
          rw [run_of_end hrest (by simp)] at h
          cases h
        | cons o rest =>
          have hother : tail.map Kind.type ≠ some o.type := by
            intro htail
            obtain ⟨k, rfl, htype⟩ := Option.map_eq_some_iff.mp htail
            exact hmore ⟨k, rfl, by rw [hrest, htype]; rfl⟩
          obtain rfl := Except.error.inj ((run_of_excess hrest hother).symm.trans h)
          exact .excess hrest hother
  | cons f l ih =>
    by_cases hgiven : f.optional = true → e.rest.head?.map (·.type) = some f.kind.type
    · rw [run_cons_of_given hgiven] at h
      cases hput : put x f.kind e with
      | error stop' =>
        rw [hput] at h
        obtain rfl := Except.error.inj h
        exact .field hgiven (putEach_eq_error_iff.mp hput)
      | ok e' =>
        rw [hput] at h
        exact .behindField hput (ih h)
    · obtain ⟨hoptional, hhead⟩ : f.optional = true ∧ e.rest.head?.map (·.type) ≠ some f.kind.type := by
        simpa using hgiven
      cases hrest : e.rest with
      | nil =>
        cases hfind : l.fields.find? (!·.optional) with
        | some required =>
          obtain rfl := Except.error.inj ((run_cons_of_omitted hoptional hrest hfind).symm.trans h)
          exact .omitted hoptional hrest hfind
        | none =>
          have hfields : ∀ k, ⟨k, false⟩ ∉ l.fields := by
            intro k hk
            simpa using List.find?_eq_none.mp hfind _ hk
          rw [run_cons_of_left_out hoptional hrest hfields, run_of_end hrest hfields] at h
          cases h
      | cons o rest =>
        have htype : o.type ≠ f.kind.type := by simpa [hrest] using hhead
        obtain rfl := Except.error.inj ((run_cons_of_other hoptional hrest htype).symm.trans h)
        exact .other hoptional hrest htype

theorem Fails.run_eq {l : Layout} {e : Encoder} {stop : EncodeStop} (h : Fails x l e stop) : run x l e = .error stop := by
  induction h with
  | field hgiven h =>
    rw [run_cons_of_given hgiven, put, putEach_eq_error_iff.mpr h]
    rfl
  | behindField hput _ ih =>
    rw [run_cons_of_given fun _ => head_of_put hput, hput]
    exact ih
  | omitted hoptional hrest hrequired => exact run_cons_of_omitted hoptional hrest hrequired
  | other hoptional hrest htype => exact run_cons_of_other hoptional hrest htype
  | repetition hmore h =>
    rw [run_tail_of_more hmore, put, putEach_eq_error_iff.mpr h]
    rfl
  | behindRepetition hput _ ih =>
    rw [run_tail_of_more (head_of_put hput), hput]
    exact ih
  | excess hrest hother => exact run_of_excess hrest hother

/-- These are all the ways in which a run can fail. -/
theorem run_eq_error_iff {l : Layout} {e : Encoder} {stop : EncodeStop} : run x l e = .error stop ↔ Fails x l e stop :=
  ⟨fails_of_run, Fails.run_eq⟩

end Encoder

/-! ## Whole instructions -/

namespace Layout

theorem encode_of_fails {l : Layout} {operands : List Operand} {stop : EncodeStop}
    (h : Encoder.Fails x l ⟨operands, #[]⟩ stop) : l.encode x operands = .error stop.error := by
  rw [encode, encodeOperands, Encoder.run_eq_error_iff.mpr h]

theorem exists_fails_of_encode {l : Layout} {operands : List Operand} {error : EncodeError}
    (h : l.encode x operands = .error error) (hcount : ∀ total, error ≠ .wordCountOverflow total) :
    ∃ stop, Encoder.Fails x l ⟨operands, #[]⟩ stop ∧ stop.error = error := by
  unfold encode encodeOperands at h
  cases hrun : Encoder.run x l ⟨operands, #[]⟩ with
  | error stop =>
    rw [hrun] at h
    exact ⟨stop, Encoder.run_eq_error_iff.mp hrun, Except.error.inj h⟩
  | ok e =>
    rw [hrun] at h
    simp only at h
    split at h
    · cases h
    · exact absurd (Except.error.inj h).symm (hcount _)

end Layout

end Spirv
