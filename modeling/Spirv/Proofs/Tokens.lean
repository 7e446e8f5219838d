/-
Where a piece of text ends. A piece that a mark does not occur in ends where the mark comes next, or the text ends, so the
pieces of a row can be told apart by the marks between them. Quoted text ends at the first quote that is not escaped, and
each escape can be told from what follows it; a row of words ends at its bracket.

- `append_inj_of_stopsAt`: one piece, and what follows it.
- `intercalate_inj`: the pieces of a row.
- `Text.escape_append_inj`: one character between quotes, by the three forms that it can have (`Text.Escapes`).

Main results:
- `Text.quoted_append_inj`, `Text.hexWords_append_inj`: quoted text, and rows of words, whatever follows them.
-/
import Spirv.Proofs.Numerals

namespace Spirv

/-! ## Pieces -/

/-- The text is empty, or the mark stands at its front. -/
def StopsAt (c : Char) (s : List Char) : Prop := ∀ d ∈ s.head?, d = c

theorem stopsAt_nil (c : Char) : StopsAt c [] := by simp [StopsAt]

theorem stopsAt_cons (c : Char) (s : List Char) : StopsAt c (c :: s) := by simp [StopsAt]

/-- A piece without the mark is all that stands before the mark. -/
theorem append_inj_of_stopsAt {c : Char} {a b s t : List Char} (ha : c ∉ a) (hb : c ∉ b) (hs : StopsAt c s)
    (ht : StopsAt c t) (h : a ++ s = b ++ t) : a = b ∧ s = t := by
  induction a generalizing b with
  | nil =>
    cases b with
    | nil => exact ⟨rfl, h⟩
    | cons e b =>
      have he : e = c := hs e (by rw [show s = e :: b ++ t from h]; rfl)
      exact absurd (List.mem_cons.mpr (.inl he.symm)) hb
  | cons d a ih =>
    cases b with
    | nil =>
      have hd : d = c := ht d (by rw [show t = d :: a ++ s from h.symm]; rfl)
      exact absurd (List.mem_cons.mpr (.inl hd.symm)) ha
    | cons e b =>
      obtain ⟨rfl, hrest⟩ := List.cons.inj h
      obtain ⟨rfl, hst⟩ := ih (List.not_mem_of_not_mem_cons ha) (List.not_mem_of_not_mem_cons hb) hrest
      exact ⟨rfl, hst⟩

theorem stopsAt_flatMap {α : Type} (c : Char) (f : α → List Char) (l : List α) :
    StopsAt c (l.flatMap fun a => c :: f a) := by
  cases l with
  | nil => exact stopsAt_nil c
  | cons a l => exact stopsAt_cons c _

theorem intercalate_cons (sep x : List Char) (p : List (List Char)) :
    sep.intercalate (x :: p) = x ++ p.flatMap (sep ++ ·) := by
  induction p generalizing x with
  | nil => simp
  | cons y p ih => rw [List.intercalate_cons_cons, ih, List.flatMap_cons, List.append_assoc, List.append_assoc]

theorem not_mem_intercalate {d : Char} {sep : List Char} {p : List (List Char)} (hsep : d ∉ sep) (hp : ∀ x ∈ p, d ∉ x) :
    d ∉ sep.intercalate p := by
  cases p with
  | nil => simp
  | cons x p =>
    rw [List.forall_mem_cons] at hp
    rw [intercalate_cons, List.mem_append, List.mem_flatMap]
    rintro (hx | ⟨y, hy, hmem⟩)
    · exact hp.1 hx
    · rcases List.mem_append.mp hmem with hmem | hmem
      · exact hsep hmem
      · exact hp.2 y hy hmem

section Rows

variable {c : Char} {sep : List Char} {p q : List (List Char)}

theorem flatMap_cons_inj (hp : ∀ x ∈ p, c ∉ x) (hq : ∀ x ∈ q, c ∉ x)
    (h : (p.flatMap fun x => c :: (sep ++ x)) = q.flatMap fun x => c :: (sep ++ x)) : p = q := by
  induction p generalizing q with
  | nil =>
    cases q with
    | nil => rfl
    | cons y q => cases h
  | cons x p ih =>
    cases q with
    | nil => cases h
    | cons y q =>
      rw [List.forall_mem_cons] at hp hq
      rw [List.flatMap_cons, List.flatMap_cons, List.cons_append, List.cons_append, List.append_assoc,
        List.append_assoc] at h
      have hrow := List.append_cancel_left (List.cons.inj h).2
      obtain ⟨rfl, hrest⟩ := append_inj_of_stopsAt hp.1 hq.1 (stopsAt_flatMap c _ p) (stopsAt_flatMap c _ q) hrow
      rw [ih hp.2 hq.2 hrest]

/-- A row shows its pieces, if none is empty and the first character between them is in none. -/
theorem intercalate_inj (hp : ∀ x ∈ p, x ≠ [] ∧ c ∉ x) (hq : ∀ x ∈ q, x ≠ [] ∧ c ∉ x)
    (h : (c :: sep).intercalate p = (c :: sep).intercalate q) : p = q := by
  have hne {x : List Char} (p : List (List Char)) (hx : x ≠ []) : (c :: sep).intercalate (x :: p) ≠ [] := by
    rw [intercalate_cons]
    exact List.append_ne_nil_of_left_ne_nil hx _
  cases p with
  | nil =>
    cases q with
    | nil => rfl
    | cons y q => exact absurd h.symm (hne q (hq y List.mem_cons_self).1)
  | cons x p =>
    cases q with
    | nil => exact absurd h (hne p (hp x List.mem_cons_self).1)
    | cons y q =>
      rw [List.forall_mem_cons] at hp hq
      rw [intercalate_cons, intercalate_cons] at h
      obtain ⟨rfl, hrest⟩ :=
        append_inj_of_stopsAt hp.1.2 hq.1.2 (stopsAt_flatMap c _ p) (stopsAt_flatMap c _ q) h
      rw [flatMap_cons_inj (fun x hx => (hp.2 x hx).2) (fun y hy => (hq.2 y hy).2) hrest]

end Rows

namespace Text

/-! ## Quoted text -/

/-- the letters of the short escapes, and what they stand for -/
def shortEscapes : List (Char × Char) :=
  [('0', '\x00'), ('t', '\t'), ('r', '\r'), ('n', '\n'), ('"', '"'), ('\\', '\\')]

/-- All that a character can be written as between quotes. -/
inductive Escapes : Char → List Char → Prop where
  | itself {c} (hslash : c ≠ '\\') (hquote : c ≠ '"') : Escapes c [c]
  | short {c letter} (h : (letter, c) ∈ shortEscapes) : Escapes c ['\\', letter]
  | code {c} : Escapes c (codePoint c)

theorem escapes_escape (c : Char) : Escapes c (escape c) := by
  unfold escape
  -- the characters with a short escape come first, one by one
  iterate 6
    split
    · rename_i h
      subst h
      exact .short (by decide)
  rename_i hquote hslash
  split
  · exact .itself hslash hquote
  split
  · exact .code
  · exact .itself hslash hquote

theorem codePoint_append_inj {c d : Char} {s t : List Char} (h : codePoint c ++ s = codePoint d ++ t) :
    c = d ∧ s = t := by
  have hdigits (c : Char) : '\x7d' ∉ Nat.toDigits 16 c.toNat := by
    intro hmem
    have halphanum : '\x7d'.isAlphanum := Numeral.isAlphanum_of_mem_toDigits (by decide) (by decide) hmem
    exact absurd halphanum (by decide)
  have hlt (c : Char) : c.toNat < 2 ^ 32 := c.val.toNat_lt
  simp only [codePoint, List.append_assoc, List.cons_append, List.nil_append, List.cons.injEq, true_and] at h
  obtain ⟨hnumber, hrest⟩ :=
    append_inj_of_stopsAt (hdigits c) (hdigits d) (stopsAt_cons _ s) (stopsAt_cons _ t) h
  have hnat := Numeral.toDigits_inj (by decide) (by decide) (hlt c) (hlt d) hnumber
  exact ⟨Char.toNat_inj.mp hnat, (List.cons.inj hrest).2⟩

/-- The escape of a character can be told from what follows it. -/
theorem escape_append_inj {c d : Char} {s t : List Char} (h : escape c ++ s = escape d ++ t) : c = d ∧ s = t := by
  have hletter : ∀ p ∈ shortEscapes, p.1 ≠ 'u' ∧ ∀ q ∈ shortEscapes, p.1 = q.1 → p.2 = q.2 := by decide
  have hc := escapes_escape c
  have hd := escapes_escape d
  generalize escape c = a at hc h
  generalize escape d = b at hd h
  cases hc with
  | itself hslash =>
    cases hd with
    | itself => exact List.cons.inj h
    | short => exact absurd (List.cons.inj h).1 hslash
    | code => exact absurd (List.cons.inj h).1 hslash
  | short hc =>
    obtain ⟨hu, hinj⟩ := hletter _ hc
    cases hd with
    | itself hslash => exact absurd (List.cons.inj h).1.symm hslash
    | short hd =>
      obtain ⟨hsame, rfl⟩ := List.cons.inj (List.cons.inj h).2
      exact ⟨hinj _ hd hsame, rfl⟩
    | code => exact absurd (List.cons.inj (List.cons.inj h).2).1 hu
  | code =>
    cases hd with
    | itself hslash => exact absurd (List.cons.inj h).1.symm hslash
    | short hd => exact absurd (List.cons.inj (List.cons.inj h).2).1.symm (hletter _ hd).1
    | code => exact codePoint_append_inj h

/-- No escape begins with the quote that ends the text. -/
theorem escape_ne_quote (c : Char) (s t : List Char) : escape c ++ s ≠ '"' :: t := by
  have hc := escapes_escape c
  generalize escape c = a at hc
  intro h
  cases hc with
  | itself _ hquote => exact hquote (List.cons.inj h).1
  | short => cases h
  | code => cases h

theorem flatMap_escape_append_inj {a b : List Char} {s t : List Char}
    (h : a.flatMap escape ++ '"' :: s = b.flatMap escape ++ '"' :: t) : a = b ∧ s = t := by
  induction a generalizing b with
  | nil =>
    cases b with
    | nil => exact ⟨rfl, (List.cons.inj h).2⟩
    | cons d b =>
      rw [List.flatMap_cons, List.append_assoc] at h
      exact absurd h.symm (escape_ne_quote d _ s)
  | cons c a ih =>
    rw [List.flatMap_cons, List.append_assoc] at h
    cases b with
    | nil => exact absurd h (escape_ne_quote c _ t)
    | cons d b =>
      rw [List.flatMap_cons, List.append_assoc] at h
      obtain ⟨rfl, hrest⟩ := escape_append_inj h
      obtain ⟨rfl, hst⟩ := ih hrest
      exact ⟨rfl, hst⟩

theorem toList_quoted (s : String) : (quoted s).toList = '"' :: s.toList.flatMap escape ++ ['"'] :=
  String.toList_ofList

/-- **Quoted text shows what is quoted**, and where it ends, whatever follows it. -/
theorem quoted_append_inj {u v : String} {s t : List Char} (h : (quoted u).toList ++ s = (quoted v).toList ++ t) :
    u = v ∧ s = t := by
  rw [toList_quoted, toList_quoted, List.append_assoc, List.append_assoc, List.singleton_append,
    List.singleton_append] at h
  obtain ⟨huv, hst⟩ := flatMap_escape_append_inj (List.cons.inj h).2
  exact ⟨String.toList_inj.mp huv, hst⟩

/-! ## Rows of words -/

theorem toList_hexWords (ws : List Word) : (hexWords ws).toList =
    '[' :: [',', ' '].intercalate (ws.map fun w => (hexWord w).toList) ++ [']'] := by
  simp only [hexWords, String.toList_append, String.toList_intercalate, List.map_map]
  rfl

/-- **A row of words shows the words**, and where it ends, whatever follows it. -/
theorem hexWords_append_inj {us vs : List Word} {s t : List Char}
    (h : (hexWords us).toList ++ s = (hexWords vs).toList ++ t) : us = vs ∧ s = t := by
  have hpieces {c : Char} (hc : ¬c.isAlphanum) (ws : List Word) :
      ∀ x ∈ ws.map fun w => (hexWord w).toList, x ≠ [] ∧ c ∉ x := by
    rw [List.forall_mem_map]
    intro w _
    exact ⟨toList_hexWord_ne_nil w, fun hmem => hc (isAlphanum_of_mem_hexWord hmem)⟩
  have hbracket (ws : List Word) : ']' ∉ [',', ' '].intercalate (ws.map fun w => (hexWord w).toList) :=
    not_mem_intercalate (by decide) fun x hx => (hpieces (by decide) ws x hx).2
  rw [toList_hexWords, toList_hexWords, List.append_assoc, List.append_assoc, List.singleton_append,
    List.singleton_append] at h
  obtain ⟨hrow, hrest⟩ := append_inj_of_stopsAt (hbracket us) (hbracket vs) (stopsAt_cons _ s) (stopsAt_cons _ t)
    (List.cons.inj h).2
  have hwords := intercalate_inj (hpieces (by decide) us) (hpieces (by decide) vs) hrow
  exact ⟨(List.map_inj_right fun v w h => hexWord_inj.mp (String.toList_inj.mp h)).mp hwords, (List.cons.inj hrest).2⟩

end Text

end Spirv
