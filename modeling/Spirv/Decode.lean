/-
Decoding: the operands that a layout reads from the words of one instruction. The decoder goes through the layout with
the words still ahead of it. A required field takes one operand; an optional field takes one if any word is left; the
repeated tail takes operands until no word is left. A mask is followed by one operand for each kind that its set bits ask
for, before anything else. Every operand takes at least one word (`takeWords_lt`), which is why decoding ends.
-/
import Spirv.Layout

namespace Spirv

/-- what the set bits of a mask word ask for -/
abbrev Expansion := MaskKind → Word → List Kind

inductive DecodeError where
  /-- the words ran out before an operand of this kind was complete -/
  | insufficientWords (expected : Kind)
  /-- words are left behind the last operand -/
  | excessWords (leftover : Nat)
  | unterminatedString
deriving DecidableEq, Repr

def DecodeError.message : DecodeError → String
  | .insufficientWords expected => "ran out of words while decoding " ++ expected.name ++ " operand"
  | .excessWords leftover => leftover.repr ++ " word(s) left over after the last operand"
  | .unterminatedString => "missing \\0 terminator in LiteralString"

namespace Kind

/-- splits off the words of one operand -/
def takeWords (k : Kind) (words : List Word) : Except DecodeError (List Word × List Word) :=
  if words.isEmpty then .error (.insufficientWords k)
  else
    match k.shape with
    | .fixed n =>
      let taken := words.take n
      if taken.length = n then .ok (taken, words.drop n) else .error (.insufficientWords k)
    | .terminated =>
      match words.dropWhile (!·.hasZeroByte) with
      | [] => .error .unterminatedString
      | last :: rest => .ok (words.takeWhile (!·.hasZeroByte) ++ [last], rest)

/-- the kinds that follow an operand of kind `k` with these words -/
def follow (x : Expansion) (k : Kind) (words : List Word) : List Kind :=
  match k, words with
  | .mask m, w :: _ => x m w
  | _, _ => []

theorem shape_fixed_pos {k : Kind} {n : Nat} (h : k.shape = .fixed n) : 0 < n := by
  cases k <;> simp [shape] at h <;> omega

/-- An operand's words and the rest make up the words it was taken from, and there is at least one. -/
theorem takeWords_append {k : Kind} {words taken rest : List Word} (h : k.takeWords words = .ok (taken, rest)) :
    words = taken ++ rest ∧ taken ≠ [] := by
  unfold takeWords at h
  split at h
  · simp at h
  · split at h
    · rename_i n hshape
      have hn := shape_fixed_pos hshape
      simp only at h
      split at h
      · rename_i hlen
        simp only [Except.ok.injEq, Prod.mk.injEq] at h
        obtain ⟨rfl, rfl⟩ := h
        refine ⟨(List.take_append_drop n words).symm, fun h => ?_⟩
        rw [h] at hlen
        simp at hlen
        omega
      · simp at h
    · split at h
      · simp at h
      · rename_i hdrop
        simp only [Except.ok.injEq, Prod.mk.injEq] at h
        obtain ⟨rfl, rfl⟩ := h
        refine ⟨?_, by simp⟩
        rw [List.append_assoc, List.singleton_append, ← hdrop, List.takeWhile_append_dropWhile]

theorem takeWords_lt {k : Kind} {words taken rest : List Word} (h : k.takeWords words = .ok (taken, rest)) :
    rest.length < words.length := by
  obtain ⟨rfl, hne⟩ := takeWords_append h
  have := List.length_pos_iff.mpr hne
  simp only [List.length_append]
  omega

end Kind

/-- a decoder on its way through the words of an instruction -/
structure Decoder where
  /-- the words not yet decoded -/
  rest : List Word
  /-- the operands decoded so far -/
  operands : Array Operand
deriving DecidableEq, Repr

/-- why decoding stopped, and what was decoded until then -/
structure DecodeStop where
  error : DecodeError
  decoder : Decoder
deriving DecidableEq, Repr

namespace Decoder

/-- takes one operand of each kind; what an operand implies comes before the kinds behind it -/
def takeEach (x : Expansion) : List Kind → Decoder → Except DecodeStop Decoder
  | [], d => .ok d
  | k :: ks, d =>
    match h : k.takeWords d.rest with
    | .error e => .error ⟨e, d⟩
    | .ok (words, rest) =>
      have := Kind.takeWords_lt h
      takeEach x (k.follow x words ++ ks) ⟨rest, d.operands.push ⟨k.type, words⟩⟩
termination_by _ d => d.rest.length

/-- takes one operand of the kind, and those that it implies -/
def take (x : Expansion) (k : Kind) (d : Decoder) : Except DecodeStop Decoder := takeEach x [k] d

theorem takeEach_le {x : Expansion} {ks : List Kind} {d d' : Decoder} (h : takeEach x ks d = .ok d') :
    d'.rest.length ≤ d.rest.length := by
  fun_induction takeEach x ks d with
  | case1 d => obtain rfl := Except.ok.inj h; exact Nat.le_refl _
  | case2 => simp at h
  | case3 k ks d words rest _ hlt ih =>
    have := ih h
    simp only at this
    omega

theorem take_lt {x : Expansion} {k : Kind} {d d' : Decoder} (h : take x k d = .ok d') :
    d'.rest.length < d.rest.length := by
  unfold take takeEach at h
  split at h
  · simp at h
  · rename_i hw
    have h₁ := takeEach_le h
    have h₂ := Kind.takeWords_lt hw
    simp only at h₁
    omega

/-- goes through the fields; an optional one is passed over when no word is left -/
def takeFields (x : Expansion) : List Field → Decoder → Except DecodeStop Decoder
  | [], d => .ok d
  | f :: fs, d =>
    if f.optional && d.rest.isEmpty then takeFields x fs d
    else
      match take x f.kind d with
      | .error stop => .error stop
      | .ok d => takeFields x fs d

/-- takes operands of the kind until no word is left -/
def takeRepeated (x : Expansion) (k : Kind) (d : Decoder) : Except DecodeStop Decoder :=
  if d.rest.isEmpty then .ok d
  else
    match h : take x k d with
    | .error stop => .error stop
    | .ok d' =>
      have := take_lt h
      takeRepeated x k d'
termination_by d.rest.length

/-- goes through the whole layout, up to the last word -/
def run (x : Expansion) (l : Layout) (d : Decoder) : Except DecodeStop Decoder := do
  let d ← takeFields x l.fields d
  let d ← match l.tail with
    | none => pure d
    | some k => takeRepeated x k d
  if d.rest.isEmpty then return d else throw ⟨.excessWords d.rest.length, d⟩

end Decoder

/-- the operands in the words of one instruction, its header word left out -/
def Layout.decode (x : Expansion) (l : Layout) (words : List Word) : Except DecodeError (List Operand) :=
  match Decoder.run x l ⟨words, #[]⟩ with
  | .ok d => .ok d.operands.toList
  | .error stop => .error stop.error

end Spirv
