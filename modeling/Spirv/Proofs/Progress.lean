/-
What a step of the decoder moves. Taking one operand and those that it asks for takes some words, and hands them on as
operands: none is dropped, none is used twice, and each operand has at least one. So there are no more operands than words, and
the repetitions at the end of a layout cannot go on for longer than there are words. `Decoder.Rounds` is the loop of these
repetitions with its rounds counted, also those that come to no good end.

- `Groups.length_le`: operands of groups are at most as many as their words.
- `Decoder.exists_rounds`: the loop ends, with the result that the decoder has.

Main result:
- `Decoder.take_progress`: one step, the loop, and a whole instruction.
-/
import Spirv.Proofs.Decoding

namespace Spirv

variable {x : Expansion}

theorem Groups.length_le {ks : List Kind} {os : List Operand} (h : Groups x ks os) :
    os.length ≤ (os.flatMap (·.words)).length := by
  induction h with
  | nil => exact Nat.le_refl _
  | plain _ hfits _ ih =>
    rw [List.flatMap_cons, List.length_append, List.length_cons, Nat.add_comm]
    exact Nat.add_le_add (List.length_pos_iff.mpr (Kind.ne_nil_of_fits hfits)) ih
  | mask _ _ ihasked ihrest =>
    rw [List.flatMap_cons, List.flatMap_append, List.length_append, List.length_append, List.length_cons,
      List.length_append, List.length_singleton]
    omega

namespace Decoder

/-- These words go from the front of what is left to these operands, the first of which has this kind. -/
structure Moves (k : Kind) (words : List Word) (os : List Operand) (d d' : Decoder) : Prop where
  rest : d.rest = words ++ d'.rest
  operands : d'.operands = d.operands ++ os
  words_ne_nil : words ≠ []
  first : os.head?.map (·.type) = some k.type
  words_eq : os.flatMap (·.words) = words
  length_le : os.length ≤ words.length

theorem exists_moves {k : Kind} {d d' : Decoder} (h : take x k d = .ok d') : ∃ words os, Moves k words os d d' := by
  obtain ⟨os, hos, hrest, hdone⟩ := take_eq_ok_iff.mp h
  obtain ⟨words, others, rfl, hfits, -⟩ := groups_cons_iff.mp hos
  refine ⟨_, _, hrest, hdone, ?_, rfl, rfl, hos.length_le⟩
  rw [List.flatMap_cons]
  exact List.append_ne_nil_of_left_ne_nil (Kind.ne_nil_of_fits hfits) _

/-- the loop over the words that are left, in so many rounds; the last of them may fail -/
inductive Rounds (x : Expansion) (k : Kind) : Decoder → Nat → Except DecodeStop Decoder → Prop where
  | done {d} (hrest : d.rest = []) : Rounds x k d 0 (.ok d)
  | failed {d stop} (hrest : d.rest ≠ []) (h : take x k d = .error stop) : Rounds x k d 1 (.error stop)
  | next {d d' n r} (hrest : d.rest ≠ []) (h : take x k d = .ok d') (hnext : Rounds x k d' n r) :
      Rounds x k d (n + 1) r

/-- Each round takes a word, so there are no more rounds than words. -/
theorem exists_rounds (x : Expansion) (k : Kind) (d : Decoder) :
    ∃ n ≤ d.rest.length, Rounds x k d n (takeRepeated x k d) := by
  induction hlength : d.rest.length using Nat.strongRecOn generalizing d with
  | ind length ih =>
    subst hlength
    by_cases hrest : d.rest = []
    · rw [takeRepeated_of_end hrest]
      exact ⟨0, Nat.zero_le _, .done hrest⟩
    · rw [takeRepeated_of_more hrest]
      cases htake : take x k d with
      | error stop => exact ⟨1, List.length_pos_iff.mpr hrest, .failed hrest htake⟩
      | ok d' =>
        obtain ⟨n, hn, hrounds⟩ := ih _ (take_lt htake) d' rfl
        exact ⟨n + 1, Nat.lt_of_le_of_lt hn (take_lt htake), .next hrest htake hrounds⟩

/-- **Decoding makes progress.** A step that succeeds takes words off the front and appends operands that consist of them, the
first of the kind asked for. The loop over a repeated kind ends after at most as many rounds as there are words, whether it
succeeds or not. No instruction has more operands than words. -/
theorem take_progress (x : Expansion) :
    (∀ k d d', take x k d = .ok d' → ∃ words os, Moves k words os d d') ∧
    (∀ k d, ∃ n ≤ d.rest.length, Rounds x k d n (takeRepeated x k d)) ∧
    ∀ l words operands, Layout.decode x l words = .ok operands → operands.length ≤ words.length := by
  refine ⟨fun k d d' => exists_moves, exists_rounds x, ?_⟩
  intro l words operands h
  obtain ⟨rfl, kinds, -, hgroups⟩ := Layout.decode_eq_ok_iff.mp h
  exact hgroups.length_le

/-- a mask with the bits 0, 1 and 3, of which bit 1 asks for a number and bit 3 for a scope -/
theorem take_progress_sample :
    let d : Decoder := ⟨[0xb, 16, 4, 9], #[]⟩
    let d' : Decoder := ⟨[9], #[⟨Kind.type (.mask .memoryAccess), [0xb]⟩, ⟨Kind.type (.literal .integer), [16]⟩,
      ⟨Kind.type (.id .scope), [4]⟩]⟩
    take Grammar.core.expand (.mask .memoryAccess) d = .ok d' ∧ ∃ words os, Moves (.mask .memoryAccess) words os d d' := by
  intro d d'
  have h : take Grammar.core.expand (.mask .memoryAccess) d = .ok d' := by with_unfolding_all rfl
  exact ⟨h, (take_progress Grammar.core.expand).1 _ d d' h⟩

end Decoder

end Spirv
