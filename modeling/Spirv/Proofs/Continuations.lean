/-
What more words could do for words that are not decoded. A decoder that runs out of words can always go on: an operand that
was begun is completed with zeros, and everything behind it takes its form with the fewest words. A decoder that has words
left cannot be helped, because it stood in front of a word all the way through. No optional field was left out on the way,
so with more words it goes the same way and has only more of them left.

- `Kind.exists_completion`: an operand that was begun can be completed.
- `Decoder.takeEach_error`, `Decoder.takeRepeated_error`: groups that were begun can be completed.
- `Decoder.takeEach_feed`: what was taken is taken from more words too.
- `Decoder.run_error`: a run over a layout is either cut short or has a surplus.

Main result:
- `decode_error_truthful`: the error says which of the two it is.
-/
import Spirv.Proofs.FewestWords

namespace Spirv

/-- what an error says that more words might cure -/
def DecodeError.AsksForWords : DecodeError → Prop
  | .insufficientWords _ | .unterminatedString => True
  | .excessWords _ => False

variable {x : Expansion}

/-! ## Operands that were begun -/

/-- Words that are no operand yet become one that asks for nothing, with some zeros behind them. -/
theorem Kind.exists_completion (hx : x.Idle) {k : Kind} {words : List Word} {e : DecodeError}
    (h : k.takeWords words = .error e) :
    e.AsksForWords ∧ ∃ more, more ≠ [] ∧ k.shape.Fits (words ++ more) ∧ k.follow x (words ++ more) = [] := by
  unfold takeWords at h
  split at h
  · rename_i hempty
    obtain rfl := Except.error.inj h
    obtain rfl := List.isEmpty_iff.mp hempty
    exact ⟨trivial, _, ne_nil_of_fits k.fits_zeros, k.fits_zeros, hx.follow_zeros k⟩
  · rename_i hne
    have hpos : 0 < words.length := List.length_pos_iff.mpr (by simpa using hne)
    cases hshape : k.shape with
    | fixed n =>
      simp only [hshape] at h
      split at h
      · cases h
      · rename_i htake
        obtain rfl := Except.error.inj h
        rw [List.length_take] at htake
        have hfits : (words ++ List.replicate (n - words.length) 0).length = n := by
          rw [List.length_append, List.length_replicate]
          omega
        refine ⟨trivial, List.replicate (n - words.length) 0, ?_, hfits, ?_⟩
        · rw [ne_eq, List.replicate_eq_nil_iff]
          omega
        · -- a mask is complete with its first word
          apply follow_of_plain
          rintro m rfl
          obtain rfl : 1 = n := Shape.fixed.inj hshape
          omega
    | terminated =>
      simp only [hshape] at h
      split at h
      · rename_i hdrop
        obtain rfl := Except.error.inj h
        have hall : words.takeWhile (!·.hasZeroByte) = words := by
          have happend := List.takeWhile_append_dropWhile (p := (!·.hasZeroByte)) (l := words)
          rwa [hdrop, List.append_nil] at happend
        have hinit : ∀ w ∈ words, w.hasZeroByte = false := by
          intro w hw
          rw [← hall] at hw
          simpa using List.all_eq_true.mp List.all_takeWhile w hw
        refine ⟨trivial, [0], List.cons_ne_nil 0 [], ⟨words, 0, rfl, by decide, hinit⟩, ?_⟩
        apply follow_of_plain
        rintro m rfl
        cases hshape
      · cases h

namespace Decoder

/-- the decoder with more words behind those it has -/
def feed (d : Decoder) (more : List Word) : Decoder := ⟨d.rest ++ more, d.operands⟩

theorem Reads.feed {d d' : Decoder} {operands : List Operand} (h : d.Reads operands d') (more : List Word) :
    (d.feed more).Reads operands (d'.feed more) := by
  refine ⟨?_, h.operands⟩
  rw [Decoder.feed, Decoder.feed, h.rest, List.append_assoc]

theorem takeEach_feed {ks : List Kind} {d d' : Decoder} (h : takeEach x ks d = .ok d') (more : List Word) :
    takeEach x ks (d.feed more) = .ok (d'.feed more) := by
  obtain ⟨operands, hos, hreads⟩ := takeEach_eq_ok_iff.mp h
  exact takeEach_eq_ok_iff.mpr ⟨operands, hos, hreads.feed more⟩

/-- the words of a decoder are the first words of operands with this property, and some are missing -/
def CutShort (d : Decoder) (P : List Operand → Prop) : Prop :=
  ∃ more operands, more ≠ [] ∧ P operands ∧ operands.flatMap (·.words) = d.rest ++ more

/-- What stands behind the operands that were read is cut short, and so is all of it. -/
theorem CutShort.of_reads {d d' : Decoder} {p : List Operand} {P Q : List Operand → Prop} (hp : d.Reads p d')
    (hPQ : ∀ q, Q q → P (p ++ q)) (h : d'.CutShort Q) : d.CutShort P := by
  obtain ⟨more, q, hmore, hq, hwords⟩ := h
  refine ⟨more, p ++ q, hmore, hPQ q hq, ?_⟩
  rw [List.flatMap_append, hwords, hp.rest, List.append_assoc]

/-- What is cut short can be completed with operands behind it. -/
theorem CutShort.append {d : Decoder} {P Q : List Operand → Prop} (h : d.CutShort P) (q : List Operand)
    (hPQ : ∀ p, P p → Q (p ++ q)) : d.CutShort Q := by
  obtain ⟨more, p, hmore, hp, hwords⟩ := h
  refine ⟨more ++ q.flatMap (·.words), p ++ q, by simp [hmore], hPQ p hp, ?_⟩
  rw [List.flatMap_append, hwords, List.append_assoc]

theorem takeEach_error (hx : x.Idle) {ks : List Kind} {d : Decoder} {stop : DecodeStop}
    (h : takeEach x ks d = .error stop) : stop.error.AsksForWords ∧ d.CutShort (Groups x ks) := by
  fun_induction takeEach x ks d with
  | case1 d => cases h
  | case2 k ks d e hwords =>
    obtain rfl := Except.error.inj h
    obtain ⟨hasks, more, hmore, hfits, hfollow⟩ := Kind.exists_completion hx hwords
    have hone : d.CutShort (Groups x [k]) := by
      refine ⟨more, [⟨k.type, d.rest ++ more⟩], hmore, ?_, by simp⟩
      exact groups_cons_iff.mpr ⟨_, _, rfl, hfits, by rw [hfollow]; exact .nil⟩
    exact ⟨hasks, hone.append _ fun p hp => hp.append (groups_zeros hx ks)⟩
  | case3 k ks d words rest hwords _ ih =>
    obtain ⟨hfits, hrest⟩ := Kind.takeWords_eq_ok_iff.mp hwords
    obtain ⟨hasks, hcut⟩ := ih h
    refine ⟨hasks, hcut.of_reads (reads_cons_iff.mpr ⟨rest, hrest, reads_nil_iff.mpr rfl⟩) ?_⟩
    intro operands hos
    exact groups_cons_iff.mpr ⟨words, operands, rfl, hfits, hos⟩

theorem takeRepeated_error (hx : x.Idle) {k : Kind} {d : Decoder} {stop : DecodeStop}
    (h : takeRepeated x k d = .error stop) :
    stop.error.AsksForWords ∧ d.CutShort fun operands => ∃ n, Groups x (List.replicate n k) operands := by
  fun_induction takeRepeated x k d with
  | case1 => cases h
  | case2 d _ stop' htake =>
    obtain rfl := Except.error.inj h
    obtain ⟨hasks, more, operands, hmore, hos, hwords⟩ := takeEach_error hx htake
    exact ⟨hasks, more, operands, hmore, ⟨1, hos⟩, hwords⟩
  | case3 d _ d' htake _ ih =>
    obtain ⟨p, hp, hreads⟩ := take_eq_ok_iff.mp htake
    obtain ⟨hasks, hcut⟩ := ih h
    refine ⟨hasks, hcut.of_reads hreads ?_⟩
    intro operands hos
    obtain ⟨n, hos⟩ := hos
    exact ⟨n + 1, hp.append hos⟩

/-! ## Runs -/

/-- A repeated tail takes all words, or stops the run. -/
theorem takeRepeated_error_of_run {opcode : UInt16} {k : Kind} {d : Decoder} {stop : DecodeStop}
    (h : run x ⟨opcode, [], some k⟩ d = .error stop) : takeRepeated x k d = .error stop := by
  cases hmany : takeRepeated x k d with
  | ok d' =>
    obtain ⟨hend, -⟩ := (walk x).many_eq_ok_iff.mp hmany
    have hrest : d'.rest = [] := Decidable.not_not.mp hend
    rw [run_tail_eq_ok_iff.mpr ⟨hmany, hrest⟩] at h
    cases h
  | error stop' =>
    rw [run_tail, hmany] at h
    exact h

/-- these words are left behind all that the layout takes, and any more words would be left too -/
structure Surplus (x : Expansion) (l : Layout) (d : Decoder) (leftover : Nat) : Prop where
  more_words : d.rest ≠ []
  left : ∀ more, ∃ stop, run x l (d.feed more) = .error stop ∧ stop.error = .excessWords (leftover + more.length)

theorem surplus_bare {opcode : UInt16} {d : Decoder} (h : d.rest ≠ []) :
    Surplus x ⟨opcode, [], none⟩ d d.rest.length := by
  refine ⟨h, ?_⟩
  intro more
  have hmore : (d.feed more).rest ≠ [] := by simp [feed, h]
  refine ⟨_, run_bare_of_more hmore, ?_⟩
  rw [feed, List.length_append]

/-- A field in front is taken from the same words as before. -/
theorem Surplus.cons {f : Field} {l : Layout} {d d' : Decoder} {leftover : Nat} (h : Surplus x l d' leftover)
    (htake : take x f.kind d = .ok d') : Surplus x (l.cons f) d leftover := by
  have hrest : d.rest ≠ [] := List.length_pos_iff.mp (Nat.zero_lt_of_lt (take_lt htake))
  refine ⟨hrest, ?_⟩
  intro more
  have hfeed : take x f.kind (d.feed more) = .ok (d'.feed more) := takeEach_feed htake more
  have hmore : (d.feed more).rest ≠ [] := by simp [feed, hrest]
  obtain ⟨stop, hrun, hleft⟩ := h.left more
  refine ⟨stop, ?_, hleft⟩
  rw [run_cons_of_given fun hleftOut => hmore hleftOut.2, hfeed]
  exact hrun

/-- A run that stops is cut short, and says so, or has a surplus, and says how much it is. -/
theorem run_error (hx : x.Idle) {l : Layout} {d : Decoder} {stop : DecodeStop} (h : run x l d = .error stop) :
    (stop.error.AsksForWords ∧ d.CutShort (l.Admits x)) ∨
      ∃ leftover, stop.error = .excessWords leftover ∧ Surplus x l d leftover := by
  induction l using Layout.cons_induction generalizing d with
  | empty opcode tail =>
    cases tail with
    | none =>
      have hrest : d.rest ≠ [] := by
        intro hrest
        rw [run_bare_eq_ok_iff.mpr ⟨rfl, hrest⟩] at h
        cases h
      rw [run_bare_of_more hrest] at h
      obtain rfl := Except.error.inj h
      exact .inr ⟨_, rfl, surplus_bare hrest⟩
    | some k =>
      obtain ⟨hasks, more, operands, hmore, hos, hwords⟩ := takeRepeated_error hx (takeRepeated_error_of_run h)
      exact .inl ⟨hasks, more, operands, hmore, admits_tail_iff.mpr hos, hwords⟩
  | cons f l ih =>
    have hgroup {p q : List Operand} (hp : Groups x [f.kind] p) (hq : l.Admits x q) : (l.cons f).Admits x (p ++ q) :=
      admits_cons_iff.mpr (.inr ⟨p, q, rfl, hp, hq⟩)
    by_cases hleftOut : f.optional = true ∧ d.rest = []
    · obtain ⟨hoptional, hrest⟩ := hleftOut
      rw [run_cons_of_left_out hoptional hrest] at h
      rcases ih h with ⟨hasks, more, operands, hmore, hos, hwords⟩ | ⟨leftover, -, hsurplus⟩
      · -- a word more and the field is there, so it has to be completed too
        rw [hrest, List.nil_append] at hwords
        refine .inl ⟨hasks, f.kind.zeros.words ++ more, f.kind.zeros :: operands, ?_, ?_, ?_⟩
        · simp [hmore]
        · exact hgroup (groups_zeros hx [f.kind]) hos
        · rw [List.flatMap_cons, hwords, hrest, List.nil_append]
      · exact absurd hrest hsurplus.more_words
    · rw [run_cons_of_given hleftOut] at h
      cases htake : take x f.kind d with
      | error stop' =>
        rw [htake] at h
        obtain rfl := Except.error.inj h
        obtain ⟨hasks, hcut⟩ := takeEach_error hx htake
        obtain ⟨q, hq, -⟩ := Layout.exists_admits_least hx l
        exact .inl ⟨hasks, hcut.append q fun p hp => hgroup hp hq⟩
      | ok d' =>
        rw [htake] at h
        obtain ⟨p, hp, hreads⟩ := take_eq_ok_iff.mp htake
        rcases ih h with ⟨hasks, hcut⟩ | ⟨leftover, herror, hsurplus⟩
        · exact .inl ⟨hasks, hcut.of_reads hreads fun q hq => hgroup hp hq⟩
        · exact .inr ⟨leftover, herror, hsurplus.cons htake⟩

end Decoder

/-! ## Main result -/

theorem Layout.decode_eq_error_iff {l : Layout} {words : List Word} {e : DecodeError} :
    l.decode x words = .error e ↔ ∃ stop, Decoder.run x l ⟨words, #[]⟩ = .error stop ∧ stop.error = e := by
  unfold decode
  cases Decoder.run x l ⟨words, #[]⟩ <;> simp

/-- **Decoding errors are truthful**, for any layout that types can have (`Layout.ofTypes_eq_ok_iff`). The error is that
words are missing or a text does not end just when there are words that could be put behind the others, so that all of
them are decoded. Otherwise it counts the words that are left, and any words put behind them would be left too. -/
theorem decode_error_truthful (g : Grammar) {l : Layout} {words : List Word} {e : DecodeError}
    (h : l.decode g.expand words = .error e) :
    ((∃ k, e = .insufficientWords k) ∨ e = .unterminatedString ↔
      ∃ more operands, more ≠ [] ∧ l.decode g.expand (words ++ more) = .ok operands) ∧
    (¬((∃ k, e = .insufficientWords k) ∨ e = .unterminatedString) →
      ∃ leftover, e = .excessWords leftover ∧
        ∀ more, l.decode g.expand (words ++ more) = .error (.excessWords (leftover + more.length))) := by
  have hasks : (∃ k, e = .insufficientWords k) ∨ e = .unterminatedString ↔ e.AsksForWords := by
    cases e <;> simp [DecodeError.AsksForWords]
  obtain ⟨stop, hrun, rfl⟩ := Layout.decode_eq_error_iff.mp h
  rw [hasks]
  rcases Decoder.run_error g.idle_expand hrun with ⟨hcurable, more, operands, hmore, hos, hwords⟩ |
    ⟨leftover, herror, hsurplus⟩
  · refine ⟨iff_of_true hcurable ?_, fun hnot => absurd hcurable hnot⟩
    exact ⟨more, operands, hmore, Layout.decode_eq_ok_iff.mpr ⟨hwords.symm, hos⟩⟩
  · have hfail (more : List Word) : l.decode g.expand (words ++ more) = .error (.excessWords (leftover + more.length)) :=
      Layout.decode_eq_error_iff.mpr (hsurplus.left more)
    refine ⟨iff_of_false (by simp [herror, DecodeError.AsksForWords]) ?_, fun _ => ⟨leftover, herror, hfail⟩⟩
    intro hcured
    obtain ⟨more, operands, -, hdecode⟩ := hcured
    rw [hfail] at hdecode
    cases hdecode

/-- The mask asks for a number and a scope, of which only the number is there. -/
theorem decode_error_truthful_sample :
    Sample.layout.decode Grammar.core.expand [7, 0, 0xb, 16] = .error (.insufficientWords (.id .scope)) ∧
    ∃ more operands, more ≠ [] ∧
      Sample.layout.decode Grammar.core.expand ([7, 0, 0xb, 16] ++ more) = .ok operands := by
  have hdecode : Sample.layout.decode Grammar.core.expand [7, 0, 0xb, 16] = .error (.insufficientWords (.id .scope)) := by
    with_unfolding_all rfl
  exact ⟨hdecode, (decode_error_truthful Grammar.core hdecode).1.mp (.inl ⟨_, rfl⟩)⟩

end Spirv
