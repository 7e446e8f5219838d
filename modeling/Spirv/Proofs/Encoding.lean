/-
The encoder accepts exactly the operands that its layout admits. It decides by the types of the operands where the
decoder decides by the words left, and both come to the same language: the encoder is a `Walk` too.

- `Kind.wordsFault?_eq_none_iff`: the words of an operand are accepted when they fit the shape of its kind.
- `Encoder.putEach_eq_ok_iff`: the groups that a list of demands takes.
- `Encoder.putFields_of_given`, `Encoder.putFields_of_other`, `Encoder.putFields_of_left_out`: what an optional field does.
- `Encoder.walk`: the encoder as a walk that goes by the operands left, and so `Encoder.run_eq_ok_iff` for a whole layout.
- `Layout.encodeOperands_eq_ok_iff`: the operand words of admitted operands, without the header word.
-/
import Spirv.Proofs.Language
import Spirv.Encode

namespace Spirv

variable {x : Expansion}

theorem Kind.wordsFault?_eq_none_iff {k : Kind} {words : List Word} :
    k.wordsFault? words = none ↔ k.shape.Fits words := by
  unfold wordsFault?
  cases k.shape with
  | fixed n => simp [Shape.Fits]
  | terminated =>
    rw [terminated_fits_iff]
    simp only
    split
    · rename_i hdrop
      simp [hdrop]
    · rename_i last hdrop
      simp [hdrop]
    · rename_i hdrop
      simp [hdrop]

namespace Encoder

/-! ## What an encoder has written -/

/-- on its way from `e` to `e'` an encoder has written these operands -/
structure Writes (e : Encoder) (operands : List Operand) (e' : Encoder) : Prop where
  rest : e.rest = operands ++ e'.rest
  words : e'.words = e.words ++ operands.flatMap (·.words)

theorem writes_nil_iff {e e' : Encoder} : e.Writes [] e' ↔ e = e' := by
  obtain ⟨rest, done⟩ := e
  obtain ⟨rest', done'⟩ := e'
  refine ⟨fun h => ?_, fun h => ?_⟩
  · obtain ⟨hrest, hwords⟩ := h
    simp only [List.flatMap_nil, List.nil_append, Array.appendList_nil] at hrest hwords
    rw [hrest, hwords]
  · cases h
    exact ⟨rfl, by simp⟩

theorem writes_cons_iff {e e' : Encoder} {o : Operand} {os : List Operand} :
    e.Writes (o :: os) e' ↔ ∃ rest, e.rest = o :: rest ∧ Writes ⟨rest, e.words ++ o.words⟩ os e' := by
  have hassoc : e.words ++ (o :: os).flatMap (·.words) = e.words ++ o.words ++ os.flatMap (·.words) := by
    rw [← Array.toList_inj]
    simp
  refine ⟨?_, ?_⟩
  · intro h
    exact ⟨_, h.rest, rfl, hassoc ▸ h.words⟩
  · intro h
    obtain ⟨rest, hrest, hrest', hwords⟩ := h
    simp only at hrest'
    refine ⟨?_, ?_⟩
    · rw [hrest, hrest', List.cons_append]
    · rw [hassoc]
      exact hwords

theorem writes_append_iff {e e' : Encoder} {p q : List Operand} :
    e.Writes (p ++ q) e' ↔ ∃ m, e.Writes p m ∧ m.Writes q e' := by
  induction p generalizing e with
  | nil => simp [writes_nil_iff]
  | cons o p ih =>
    simp only [List.cons_append, writes_cons_iff, ih]
    refine ⟨?_, ?_⟩
    · intro h
      obtain ⟨rest, hrest, m, hp, hq⟩ := h
      exact ⟨m, ⟨rest, hrest, hp⟩, hq⟩
    · intro h
      obtain ⟨m, ⟨rest, hrest, hp⟩, hq⟩ := h
      exact ⟨rest, hrest, m, hp, hq⟩

theorem Writes.eq_nil {e e' : Encoder} {os : List Operand} (h : e.Writes os e') (hrest : e.rest = []) : os = [] := by
  have hos := h.rest
  rw [hrest] at hos
  exact (List.append_eq_nil_iff.mp hos.symm).1

/-! ## Groups -/

theorem putEach_cons_eq_ok_iff {d : Demand} {ds : List Demand} {e e' : Encoder} :
    putEach x (d :: ds) e = .ok e' ↔ ∃ words rest, d.kind.shape.Fits words ∧ e.rest = ⟨d.kind.type, words⟩ :: rest ∧
      putEach x (Demand.follow x d.kind words ++ ds) ⟨rest, e.words ++ words⟩ = .ok e' := by
  rw [putEach]
  refine ⟨?_, ?_⟩
  · intro h
    split at h
    · simp at h
    · rename_i o rest hrest
      split at h
      · simp at h
      · rename_i htype
        split at h
        · simp at h
        · rename_i hfault
          obtain ⟨type, words⟩ := o
          obtain rfl : type = d.kind.type := by simpa using htype
          exact ⟨words, rest, Kind.wordsFault?_eq_none_iff.mp hfault, hrest, h⟩
  · intro h
    obtain ⟨words, rest, hfits, hrest, h⟩ := h
    split
    · rename_i hrest'
      simp [hrest] at hrest'
    · rename_i o rest' hrest'
      obtain ⟨rfl, rfl⟩ := List.cons.inj (hrest.symm.trans hrest')
      rw [if_neg (by simp), Kind.wordsFault?_eq_none_iff.mpr hfits]
      exact h

/-- Putting one operand for each demand writes the groups of the demanded kinds, and writes any that are there. -/
theorem putEach_eq_ok_iff {ds : List Demand} {e e' : Encoder} :
    putEach x ds e = .ok e' ↔ ∃ os, Groups x (ds.map (·.kind)) os ∧ e.Writes os e' := by
  induction hn : e.rest.length using Nat.strongRecOn generalizing ds e with
  | ind n ih =>
    cases ds with
    | nil => simp [putEach, groups_nil_iff, writes_nil_iff]
    | cons d ds =>
      have hlt : ∀ {o rest}, e.rest = o :: rest → rest.length < n := by
        intro o rest hrest
        rw [← hn, hrest]
        simp
      rw [putEach_cons_eq_ok_iff, List.map_cons]
      refine ⟨?_, ?_⟩
      · intro h
        obtain ⟨words, rest, hfits, hrest, h⟩ := h
        obtain ⟨os, hos, hwrites⟩ := (ih _ (hlt hrest) rfl).mp h
        rw [List.map_append, Demand.map_kind_follow] at hos
        exact ⟨⟨d.kind.type, words⟩ :: os, groups_cons_iff.mpr ⟨words, os, rfl, hfits, hos⟩,
          writes_cons_iff.mpr ⟨rest, hrest, hwrites⟩⟩
      · intro h
        obtain ⟨os, hos, hwrites⟩ := h
        obtain ⟨words, os, rfl, hfits, hos⟩ := groups_cons_iff.mp hos
        obtain ⟨rest, hrest, hwrites⟩ := writes_cons_iff.mp hwrites
        rw [← Demand.map_kind_follow, ← List.map_append] at hos
        exact ⟨words, rest, hfits, hrest, (ih _ (hlt hrest) rfl).mpr ⟨os, hos, hwrites⟩⟩

theorem put_eq_ok_iff {k : Kind} {e e' : Encoder} : put x k e = .ok e' ↔ ∃ os, Groups x [k] os ∧ e.Writes os e' :=
  putEach_eq_ok_iff

/-- Only an operand of the kind can be put. -/
theorem head_of_put {k : Kind} {e e' : Encoder} (h : put x k e = .ok e') :
    e.rest.head?.map (·.type) = some k.type := by
  obtain ⟨words, rest, -, hrest, -⟩ := putEach_cons_eq_ok_iff.mp h
  rw [hrest]
  rfl

theorem putRepeated_of_more {k : Kind} {e : Encoder} (h : e.rest.head?.map (·.type) = some k.type) :
    putRepeated x k e = put x k e >>= putRepeated x k := by
  rw [putRepeated, if_pos h]
  split
  · rename_i hput
    rw [hput]
    rfl
  · rename_i hput
    exact (congrArg (· >>= putRepeated x k) hput).symm

theorem putRepeated_of_end {k : Kind} {e : Encoder} (h : e.rest.head?.map (·.type) ≠ some k.type) :
    putRepeated x k e = .ok e := by
  rw [putRepeated, if_neg h]

theorem putRepeated_eq_ok_iff {k : Kind} {e e' : Encoder} (h : e.rest.head?.map (·.type) = some k.type) :
    putRepeated x k e = .ok e' ↔ ∃ m, put x k e = .ok m ∧ putRepeated x k m = .ok e' := by
  rw [putRepeated_of_more h, bind_eq_ok_iff]

/-! ## Whole layouts -/

theorem run_eq_bind (l : Layout) (e : Encoder) :
    run x l e = putFields x l.tail l.fields e >>= run x ⟨l.opcode, [], l.tail⟩ := rfl

theorem run_eq_ok_iff_putFields {l : Layout} {e e' : Encoder} : run x l e = .ok e' ↔
    ∃ m, putFields x l.tail l.fields e = .ok m ∧ run x ⟨l.opcode, [], l.tail⟩ m = .ok e' := by
  rw [run_eq_bind, bind_eq_ok_iff]

theorem run_bare_eq_ok_iff {opcode : UInt16} {e e' : Encoder} :
    run x ⟨opcode, [], none⟩ e = .ok e' ↔ e = e' ∧ e'.rest = [] := by
  obtain ⟨rest, words⟩ := e
  cases rest with
  | nil =>
    have heq : run x ⟨opcode, [], none⟩ ⟨[], words⟩ = .ok ⟨[], words⟩ := rfl
    rw [heq]
    refine ⟨?_, ?_⟩
    · intro h
      obtain rfl := Except.ok.inj h
      exact ⟨rfl, rfl⟩
    · intro h
      rw [h.1]
  | cons o rest =>
    refine ⟨fun h => ?_, fun h => ?_⟩
    · cases h
    · obtain ⟨h, hrest⟩ := h
      rw [← h] at hrest
      cases hrest

theorem run_tail (opcode : UInt16) (k : Kind) (e : Encoder) :
    run x ⟨opcode, [], some k⟩ e = putRepeated x k e >>= run x ⟨opcode, [], none⟩ := rfl

theorem run_tail_eq_ok_iff {opcode : UInt16} {k : Kind} {e e' : Encoder} :
    run x ⟨opcode, [], some k⟩ e = .ok e' ↔ putRepeated x k e = .ok e' ∧ e'.rest = [] := by
  simp only [run_tail, bind_eq_ok_iff, run_bare_eq_ok_iff]
  refine ⟨?_, ?_⟩
  · intro h
    obtain ⟨m, h, rfl, hrest⟩ := h
    exact ⟨h, hrest⟩
  · intro h
    exact ⟨e', h.1, rfl, h.2⟩

/-- An optional field is left out at the end, unless a field behind it is required. -/
theorem putFields_of_left_out {tail : Option Kind} {f : Field} {fs : List Field} {e : Encoder}
    (hoptional : f.optional = true) (hrest : e.rest = []) (hfs : ∀ k, ⟨k, false⟩ ∉ fs) :
    putFields x tail (f :: fs) e = putFields x tail fs e := by
  have hfind : fs.find? (!·.optional) = none := by
    rw [List.find?_eq_none]
    intro g hg
    obtain ⟨k, optional⟩ := g
    cases optional with
    | false => exact absurd hg (hfs k)
    | true => simp
  rw [putFields, if_pos hoptional, hrest]
  simp only [List.head?_nil, hfind]

theorem putFields_of_left_out_eq_ok {tail : Option Kind} {f : Field} {fs : List Field} {e e' : Encoder}
    (hoptional : f.optional = true) (hrest : e.rest = []) (h : putFields x tail (f :: fs) e = .ok e') :
    putFields x tail fs e = .ok e' := by
  rw [putFields, if_pos hoptional, hrest] at h
  simp only [List.head?_nil] at h
  split at h
  · cases h
  · exact h

theorem putFields_of_given {tail : Option Kind} {f : Field} {fs : List Field} {e : Encoder}
    (h : f.optional = true → e.rest.head?.map (·.type) = some f.kind.type) :
    putFields x tail (f :: fs) e = put x f.kind e >>= putFields x tail fs := by
  rw [putFields]
  by_cases hoptional : f.optional = true
  · obtain ⟨o, hhead, htype⟩ := Option.map_eq_some_iff.mp (h hoptional)
    rw [if_pos hoptional, hhead]
    simp only
    rw [if_pos htype]
    cases put x f.kind e <;> rfl
  · rw [if_neg hoptional]
    cases put x f.kind e <;> rfl

/-- An optional field refuses an operand of another type, wherever in the layout it would belong. -/
theorem putFields_of_other (tail : Option Kind) {f : Field} (fs : List Field) {e : Encoder} {o : Operand}
    (hoptional : f.optional = true) (hhead : e.rest.head? = some o) (htype : o.type ≠ f.kind.type) :
    ∃ stop, putFields x tail (f :: fs) e = .error stop := by
  rw [putFields, if_pos hoptional, hhead]
  simp only
  rw [if_neg htype]
  split <;> exact ⟨_, rfl⟩

theorem run_cons_of_given {f : Field} {l : Layout} {e : Encoder}
    (h : f.optional = true → e.rest.head?.map (·.type) = some f.kind.type) :
    run x (l.cons f) e = put x f.kind e >>= run x l := by
  rw [run_eq_bind, Layout.fields_cons, Layout.tail_cons, putFields_of_given h, bind_assoc]
  rfl

theorem run_cons_of_left_out {f : Field} {l : Layout} {e : Encoder} (hoptional : f.optional = true)
    (hrest : e.rest = []) (hl : ∀ k, ⟨k, false⟩ ∉ l.fields) : run x (l.cons f) e = run x l e := by
  rw [run_eq_bind, Layout.fields_cons, Layout.tail_cons, putFields_of_left_out hoptional hrest hl]
  rfl

theorem putFields_cons_eq_ok_iff {tail : Option Kind} {f : Field} {fs : List Field} {e e' : Encoder}
    (h : ¬(f.optional = true ∧ e.rest = [])) : putFields x tail (f :: fs) e = .ok e' ↔
      ∃ m, put x f.kind e = .ok m ∧ putFields x tail fs m = .ok e' := by
  by_cases hgiven : f.optional = true → e.rest.head?.map (·.type) = some f.kind.type
  · rw [putFields_of_given hgiven, bind_eq_ok_iff]
  · obtain ⟨hoptional, hhead⟩ : f.optional = true ∧ e.rest.head?.map (·.type) ≠ some f.kind.type := by
      simpa using hgiven
    refine ⟨?_, ?_⟩
    · intro hfields
      cases hrest : e.rest with
      | nil => exact absurd ⟨hoptional, hrest⟩ h
      | cons o rest =>
        rw [hrest] at hhead
        have htype : o.type ≠ f.kind.type := fun htype => hhead (congrArg some htype)
        obtain ⟨stop, hstop⟩ := putFields_of_other (x := x) tail fs hoptional (congrArg List.head? hrest) htype
        rw [hstop] at hfields
        cases hfields
    · intro h
      obtain ⟨m, hput, _⟩ := h
      exact absurd (head_of_put hput) hhead

/-- an encoder goes by the operands left -/
def walk (x : Expansion) : Walk x Encoder EncodeStop where
  one := put x
  many := putRepeated x
  run := run x
  Passes := Writes
  More k e := e.rest.head?.map (·.type) = some k.type
  Done e := e.rest = []
  size e := e.rest.length
  passes_nil_iff := writes_nil_iff
  passes_append_iff := writes_append_iff
  no_words_of_done hrest h := by rw [h.eq_nil hrest]; rfl
  one_eq_ok_iff := put_eq_ok_iff
  one_lt := put_lt
  more_of_one := head_of_put
  not_more_of_done hrest := by simp [hrest]
  many_of_more := putRepeated_eq_ok_iff
  many_of_not_more h := putRepeated_of_end h
  run_bare := run_bare_eq_ok_iff
  run_tail := run_tail_eq_ok_iff
  run_left_out := by
    intro f l e e' hoptional hrest hempty
    rw [run_eq_ok_iff_putFields, run_eq_ok_iff_putFields] at *
    refine ⟨?_, ?_⟩
    · intro h
      obtain ⟨m, hm, h⟩ := h
      exact ⟨m, putFields_of_left_out_eq_ok hoptional hrest hm, h⟩
    · intro h
      obtain ⟨m, hm, h⟩ := h
      have hfs := admits_nil_iff.mp (hempty ⟨m, hm, h⟩)
      exact ⟨m, (putFields_of_left_out hoptional hrest hfs).trans hm, h⟩
  run_cons := by
    intro f l e e' h
    simp only [run_eq_ok_iff_putFields (l := l), run_eq_ok_iff_putFields (l := l.cons f)]
    simp only [Layout.fields_cons, Layout.tail_cons, putFields_cons_eq_ok_iff h]
    refine ⟨?_, ?_⟩
    · intro h
      obtain ⟨a, ⟨m, hput, hfields⟩, hend⟩ := h
      exact ⟨m, hput, a, hfields, hend⟩
    · intro h
      obtain ⟨m, hput, a, hfields, hend⟩ := h
      exact ⟨a, ⟨m, hput, hfields⟩, hend⟩

theorem run_eq_ok_iff {l : Layout} {e e' : Encoder} :
    run x l e = .ok e' ↔ e'.rest = [] ∧ ∃ os, l.Admits x os ∧ e.Writes os e' :=
  (walk x).run_eq_ok_iff

/-- A required field is not filled when there are no operands. -/
theorem run_ne_ok_of_required {l : Layout} {e e' : Encoder} {k : Kind} (hrest : e.rest = [])
    (hk : ⟨k, false⟩ ∈ l.fields) : run x l e ≠ .ok e' := by
  intro hrun
  obtain ⟨-, os, hos, hwrites⟩ := run_eq_ok_iff.mp hrun
  obtain rfl := hwrites.eq_nil hrest
  exact admits_nil_iff.mp hos k hk

end Encoder

namespace Layout

theorem encodeOperands_eq_ok_iff {l : Layout} {operands : List Operand} {words : Array Word} :
    l.encodeOperands x operands = .ok words ↔ words = (operands.flatMap (·.words)).toArray ∧ l.Admits x operands := by
  unfold encodeOperands
  refine ⟨fun h => ?_, fun h => ?_⟩
  · split at h
    · rename_i e hrun
      obtain ⟨hend, os, hos, hrest, hwords⟩ := Encoder.run_eq_ok_iff.mp hrun
      obtain rfl := Except.ok.inj h
      rw [hend, List.append_nil] at hrest
      simp only at hrest
      rw [hrest]
      exact ⟨by simpa using hwords, hos⟩
    · cases h
  · obtain ⟨hwords, hos⟩ := h
    have hwrites : Encoder.Writes ⟨operands, #[]⟩ operands ⟨[], words⟩ := ⟨by simp, by simp [hwords]⟩
    rw [Encoder.run_eq_ok_iff.mpr ⟨rfl, operands, hos, hwrites⟩]

/-- Admitted operands are encoded, as far as the header word can count their words. -/
theorem encode_of_admits {l : Layout} {operands : List Operand} (h : l.Admits x operands) :
    l.encode x operands =
      let total := (operands.flatMap (·.words)).length + 1
      if total < 65536 then .ok (headerWord total l.opcode :: operands.flatMap (·.words)).toArray
      else .error (.wordCountOverflow total) := by
  have hwords := encodeOperands_eq_ok_iff.mpr ⟨rfl, h⟩
  unfold encode
  rw [hwords]
  simp

theorem admits_of_encode {l : Layout} {operands : List Operand} {words : Array Word}
    (h : l.encode x operands = .ok words) : l.Admits x operands := by
  unfold encode at h
  split at h
  · cases h
  · rename_i hwords
    exact (encodeOperands_eq_ok_iff.mp hwords).2

end Layout

end Spirv
