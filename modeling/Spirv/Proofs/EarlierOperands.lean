/-
What later words can change. Whether an optional operand is there and how often the tail is repeated go by the words that
are left, so two instructions that begin with the same words may have different operands. But an operand whose words are
all among the words they share is the same in both: where it ends is seen from its own words, and its kind from the
layout and the operands in front of it. Later words only decide how far the layout is filled.

- `getElem?_completeWithin`: the operands that end within the first words are those that have no more words up to their end.
- `Fills.comparable`: of two ways to fill a layout one begins with the other.
- `Kind.eq_of_fits_append`: where an operand ends.
- `Groups.same_or_cut`: operands of the same kinds on words that begin alike.

Main result:
- `earlier_operands_unchanged`: the operands that end within the shared words.
-/
import Spirv.Proofs.Decoding

namespace Spirv

variable {x : Expansion}

/-! ## Operands that end within the first words -/

/-- the operands whose words are all among the first `n` words -/
def completeWithin : Nat → List Operand → List Operand
  | _, [] => []
  | n, o :: os => if o.words.length ≤ n then o :: completeWithin (n - o.words.length) os else []

theorem completeWithin_cons_of_le {n : Nat} {o : Operand} (h : o.words.length ≤ n) (os : List Operand) :
    completeWithin n (o :: os) = o :: completeWithin (n - o.words.length) os := if_pos h

theorem completeWithin_cons_of_lt {n : Nat} {o : Operand} (h : n < o.words.length) (os : List Operand) :
    completeWithin n (o :: os) = [] := if_neg (Nat.not_le_of_lt h)

/-- the operand at a place, which has no more than `n` words together with those in front of it -/
def EndsWithin (n : Nat) (os : List Operand) (i : Nat) (o : Operand) : Prop :=
  os[i]? = some o ∧ ((os.take (i + 1)).flatMap (·.words)).length ≤ n

/-- Among these operands are just those that end within the first `n` words, each in its place. -/
theorem getElem?_completeWithin {n i : Nat} {os : List Operand} {o : Operand} :
    (completeWithin n os)[i]? = some o ↔ EndsWithin n os i o := by
  unfold EndsWithin
  induction os generalizing n i with
  | nil => simp [completeWithin]
  | cons o' os ih =>
    rw [List.take_succ_cons, List.flatMap_cons, List.length_append]
    by_cases hle : o'.words.length ≤ n
    · rw [completeWithin_cons_of_le hle]
      cases i with
      | zero => simp [hle]
      | succ i =>
        rw [List.getElem?_cons_succ, List.getElem?_cons_succ, ih]
        refine and_congr_right fun _ => ?_
        omega
    · rw [completeWithin_cons_of_lt (by omega)]
      refine iff_of_false (by simp) ?_
      rintro ⟨-, hlength⟩
      omega

theorem completeWithin_append_of_le {n : Nat} {p q : List Operand} (h : (p.flatMap (·.words)).length ≤ n) :
    completeWithin n (p ++ q) = p ++ completeWithin (n - (p.flatMap (·.words)).length) q := by
  induction p generalizing n with
  | nil => rfl
  | cons o p ih =>
    rw [List.flatMap_cons, List.length_append] at h ⊢
    rw [List.cons_append, completeWithin_cons_of_le (by omega), ih (by omega), Nat.sub_sub, List.cons_append]

theorem completeWithin_append_of_lt {n : Nat} {p q : List Operand} (h : n < (p.flatMap (·.words)).length) :
    completeWithin n (p ++ q) = completeWithin n p := by
  induction p generalizing n with
  | nil => exact absurd h (Nat.not_lt_zero n)
  | cons o p ih =>
    rw [List.flatMap_cons, List.length_append] at h
    rw [List.cons_append]
    by_cases hle : o.words.length ≤ n
    · rw [completeWithin_cons_of_le hle, completeWithin_cons_of_le hle, ih (by omega)]
    · rw [completeWithin_cons_of_lt (by omega), completeWithin_cons_of_lt (by omega)]

theorem completeWithin_of_le {n : Nat} {p : List Operand} (h : (p.flatMap (·.words)).length ≤ n) :
    completeWithin n p = p := by
  have happend := completeWithin_append_of_le (q := []) h
  rwa [List.append_nil, completeWithin, List.append_nil] at happend

theorem completeWithin_zero {os : List Operand} (h : ∀ o ∈ os, o.words ≠ []) : completeWithin 0 os = [] := by
  cases os with
  | nil => rfl
  | cons o os => exact completeWithin_cons_of_lt (List.length_pos_iff.mpr (h o List.mem_cons_self)) os

/-! ## Where operands end -/

/-- The words of an operand are no beginning of other words for it. -/
theorem Kind.eq_of_fits_append {k : Kind} {u v r s : List Word} (hu : k.shape.Fits u) (hv : k.shape.Fits v)
    (h : u ++ r = v ++ s) : u = v := by
  have htaken := takeWords_of_fits hu r
  rw [h, takeWords_of_fits hv s] at htaken
  exact (Prod.mk.inj (Except.ok.inj htaken)).1.symm

theorem Groups.words_ne_nil {ks : List Kind} {os : List Operand} (h : Groups x ks os) : ∀ o ∈ os, o.words ≠ [] := by
  induction h with
  | nil => nofun
  | plain _ hfits _ ih => exact List.forall_mem_cons.mpr ⟨Kind.ne_nil_of_fits hfits, ih⟩
  | mask _ _ ihasked ihrest =>
    refine List.forall_mem_cons.mpr ⟨List.cons_ne_nil _ _, ?_⟩
    exact List.forall_mem_append.mpr ⟨ihasked, ihrest⟩

/-- An operand that ends within the shared words ends in the same place on the other side. -/
theorem Kind.eq_of_length_le {k : Kind} {u v a b c r s : List Word} (hu : k.shape.Fits u) (hv : k.shape.Fits v)
    (hp : u ++ r = a ++ b) (hq : v ++ s = a ++ c) (hle : u.length ≤ a.length) : u = v := by
  have hbegins : u <+: a := List.prefix_of_prefix_length_le ⟨r, hp⟩ (List.prefix_append a b) hle
  obtain ⟨a', rfl⟩ := hbegins
  rw [List.append_assoc] at hq
  exact eq_of_fits_append hu hv hq.symm

/-- Operands of the same kinds, on words that begin with the same words: all of them end within these words and are the
same, or on both sides they go beyond these words, and those that do not are the same. -/
theorem Groups.same_or_cut {ks : List Kind} {p q : List Operand} {a b c r s : List Word} (hp : Groups x ks p)
    (hq : Groups x ks q) (hpwords : p.flatMap (·.words) ++ r = a ++ b) (hqwords : q.flatMap (·.words) ++ s = a ++ c) :
    (p = q ∧ (p.flatMap (·.words)).length ≤ a.length) ∨
      (a.length < (p.flatMap (·.words)).length ∧ a.length < (q.flatMap (·.words)).length ∧
        completeWithin a.length p = completeWithin a.length q) := by
  induction p generalizing ks q a with
  | nil =>
    obtain ⟨rfl, -⟩ := hp.eq_nil rfl
    obtain rfl := groups_nil_iff.mp hq
    exact .inl ⟨rfl, Nat.zero_le _⟩
  | cons o p ih =>
    cases ks with
    | nil => cases hp
    | cons k ks =>
      obtain ⟨u, p', heq, hu, hp⟩ := groups_cons_iff.mp hp
      obtain ⟨rfl, rfl⟩ := List.cons.inj heq
      obtain ⟨v, q, rfl, hv, hq⟩ := groups_cons_iff.mp hq
      simp only [List.flatMap_cons, List.append_assoc, List.length_append] at hpwords hqwords ⊢
      by_cases hle : u.length ≤ a.length
      · obtain rfl := Kind.eq_of_length_le hu hv hpwords hqwords hle
        obtain ⟨a, rfl⟩ := List.prefix_of_prefix_length_le ⟨_, hpwords⟩ (List.prefix_append a b) hle
        rw [List.append_assoc, List.append_cancel_left_eq] at hpwords hqwords
        rw [completeWithin_cons_of_le hle, completeWithin_cons_of_le hle, List.length_append, Nat.add_sub_cancel_left]
        rcases ih hp hq hpwords hqwords with ⟨rfl, hlen⟩ | ⟨hlen, hlen', hsame⟩
        · exact .inl ⟨rfl, by omega⟩
        · exact .inr ⟨by omega, by omega, by rw [hsame]⟩
      · have hlt : ¬v.length ≤ a.length := by
          intro hle'
          rw [Kind.eq_of_length_le hv hu hqwords hpwords hle'] at hle'
          exact hle hle'
        refine .inr ⟨by omega, by omega, ?_⟩
        rw [completeWithin_cons_of_lt (Nat.lt_of_not_le hle), completeWithin_cons_of_lt (Nat.lt_of_not_le hlt)]

/-! ## Two ways to fill a layout -/

/-- Of two ways to fill a layout one begins with the other. -/
theorem Fills.comparable {types : List OperandType} {ks js : List Kind} (hks : Fills types ks)
    (hjs : Fills types js) : ks <+: js ∨ js <+: ks := by
  have hcons (k : Kind) {ks js : List Kind} (h : ks <+: js ∨ js <+: ks) : k :: ks <+: k :: js ∨ k :: js <+: k :: ks :=
    h.imp (List.cons_prefix_cons.mpr ⟨rfl, ·⟩) (List.cons_prefix_cons.mpr ⟨rfl, ·⟩)
  induction hks generalizing js with
  | nil =>
    cases hjs
    exact .inl (List.prefix_refl [])
  | required _ ih =>
    cases hjs with
    | required hjs => exact hcons _ (ih hjs)
  | present _ ih =>
    cases hjs with
    | present hjs => exact hcons _ (ih hjs)
    | omitted => exact .inr List.nil_prefix
  | omitted => exact .inl List.nil_prefix
  | @repeated k n =>
    cases hjs with
    | repeated m =>
      refine (Nat.le_total n m).imp (fun h => ?_) (fun h => ?_)
      · exact ⟨List.replicate (m - n) k, by rw [List.replicate_append_replicate, Nat.add_sub_cancel' h]⟩
      · exact ⟨List.replicate (n - m) k, by rw [List.replicate_append_replicate, Nat.add_sub_cancel' h]⟩

/-- If there is nothing to come on one side, what the other side has more of goes beyond the shared words. -/
theorem Groups.completeWithin_eq {ks js : List Kind} {p q : List Operand} {a b c : List Word} (hp : Groups x ks p)
    (hq : Groups x js q) (hbegins : ks <+: js) (hpwords : p.flatMap (·.words) = a ++ b)
    (hqwords : q.flatMap (·.words) = a ++ c) : completeWithin a.length p = completeWithin a.length q := by
  obtain ⟨more, rfl⟩ := hbegins
  obtain ⟨q, q', rfl, hq, hq'⟩ := hq.split
  rw [List.flatMap_append] at hqwords
  rw [← List.append_nil (p.flatMap _)] at hpwords
  rcases hp.same_or_cut hq hpwords hqwords with ⟨rfl, hle⟩ | ⟨hlt, hlt', hsame⟩
  · -- the shared words are those of the operands on the one side, and no operand is without words
    have hlength : (p.flatMap (·.words)).length = a.length := by
      have := congrArg List.length hpwords
      rw [List.append_nil, List.length_append] at this
      omega
    rw [completeWithin_of_le hle, completeWithin_append_of_le hle, hlength, Nat.sub_self,
      completeWithin_zero hq'.words_ne_nil, List.append_nil]
  · rw [completeWithin_append_of_lt hlt', hsame]

/-! ## Main result -/

theorem Layout.completeWithin_eq {l : Layout} {a b c : List Word} {p q : List Operand}
    (hp : l.decode x (a ++ b) = .ok p) (hq : l.decode x (a ++ c) = .ok q) :
    completeWithin a.length p = completeWithin a.length q := by
  obtain ⟨hpwords, ks, hks, hp⟩ := decode_eq_ok_iff.mp hp
  obtain ⟨hqwords, js, hjs, hq⟩ := decode_eq_ok_iff.mp hq
  rcases hks.comparable hjs with hbegins | hbegins
  · exact hp.completeWithin_eq hq hbegins hpwords.symm hqwords.symm
  · exact (hq.completeWithin_eq hp hbegins hqwords.symm hpwords.symm).symm

/-- **Later words do not change earlier operands.** If words `a` can be decoded with some words behind them, and with
others too, then the operands that end within `a` are the same: as many, in the same order, with the same types and
words. They are just those that have no more words than `a` up to their end, and on both sides they have the same
places. -/
theorem earlier_operands_unchanged {l : Layout} {a b c : List Word} {p q : List Operand}
    (hp : l.decode x (a ++ b) = .ok p) (hq : l.decode x (a ++ c) = .ok q) :
    completeWithin a.length p = completeWithin a.length q ∧
    ∀ i o, ((completeWithin a.length p)[i]? = some o ↔ EndsWithin a.length p i o) ∧
      (EndsWithin a.length p i o ↔ EndsWithin a.length q i o) := by
  have hsame := Layout.completeWithin_eq hp hq
  refine ⟨hsame, fun i o => ⟨getElem?_completeWithin, ?_⟩⟩
  rw [← getElem?_completeWithin, ← getElem?_completeWithin, hsame]

namespace Sample

/-- the sample instruction up to the number that its mask asks for -/
def earlierWords : List Word := [7, 0x64636261, 0, 0xb, 16]

/-- the scope that the mask asks for comes behind them, and nothing else -/
def shortOperands : List Operand := operands.take 4 ++ [⟨Kind.type (.id .scope), [5]⟩]

end Sample

/-- A number, a text, the mask and another number are the same, whatever the scope is and whether or not pairs follow. The
other number ends with the fifth word on both sides. -/
theorem earlier_operands_unchanged_sample :
    Layout.ofTypes 9 Sample.types = .ok Sample.layout ∧
    Sample.layout.decode Grammar.core.expand (Sample.earlierWords ++ [5]) = .ok Sample.shortOperands ∧
    Sample.layout.decode Grammar.core.expand (Sample.earlierWords ++ [4, 1, 2]) = .ok Sample.operands ∧
    completeWithin 5 Sample.shortOperands = completeWithin 5 Sample.operands ∧
    completeWithin 5 Sample.operands = Sample.operands.take 4 ∧
    EndsWithin 5 Sample.operands 3 ⟨Kind.type (.literal .integer), [16]⟩ := by
  have hshort : Sample.layout.decode Grammar.core.expand (Sample.earlierWords ++ [5]) = .ok Sample.shortOperands := by
    with_unfolding_all rfl
  have hlong : Sample.layout.decode Grammar.core.expand (Sample.earlierWords ++ [4, 1, 2]) = .ok Sample.operands := by
    with_unfolding_all rfl
  obtain ⟨hsame, hends⟩ := earlier_operands_unchanged hshort hlong
  exact ⟨rfl, hshort, hlong, hsame, rfl, (hends 3 _).2.mp ⟨rfl, by decide⟩⟩

end Spirv
