/-
Layouts of fixed width, in which every operand takes a fixed number of words and none is a mask. Here decoding goes by the
number of words alone, and that number says which operands there are: those of some fields with no required one behind them,
or those of all fields and some repetitions of the tail.

- `exists_groups_iff`: any words of the right number are the words of groups of fixed width.
- `Decoder.run_abreast`: two decoders that have as many words left and have read operands of the same types and sizes stay so
  through a layout (`Decoder.Abreast`), or stop with the same error.
- `Layout.FixedWidth.exists_decode_iff`, `Layout.FixedWidth.decode_repeated`: which numbers of words are decoded, and into
  how many repetitions.

Main result:
- `outcome_by_word_count`: when words of a given number are decoded, into how many repetitions, and that two lists of as many
  words have the same outcome.
-/
import Spirv.Proofs.FewestWords

namespace Spirv

variable {x : Expansion}

/-! ## Fixed width -/

namespace Kind

/-- operands of this kind take a fixed number of words, and ask for no others -/
structure FixedWidth (k : Kind) : Prop where
  shape : k.shape = .fixed k.minWords
  plain : ∀ m, k ≠ .mask m

theorem FixedWidth.of_shape {k : Kind} (hshape : ∃ n, k.shape = .fixed n) (hk : k.cls ≠ .mask) : k.FixedWidth := by
  obtain ⟨n, hn⟩ := hshape
  refine ⟨by rw [minWords, hn], ?_⟩
  rintro m rfl
  exact hk rfl

theorem FixedWidth.fits_iff {k : Kind} (hk : k.FixedWidth) {words : List Word} :
    k.shape.Fits words ↔ words.length = k.minWords := by
  rw [hk.shape]
  rfl

theorem FixedWidth.takeWords_eq {k : Kind} (hk : k.FixedWidth) (words : List Word) :
    k.takeWords words = if words.length < k.minWords then .error (.insufficientWords k)
      else .ok (words.take k.minWords, words.drop k.minWords) := by
  have hpos := k.minWords_pos
  unfold takeWords
  by_cases hlt : words.length < k.minWords
  · rw [if_pos hlt, hk.shape]
    have htake : ¬(words.take k.minWords).length = k.minWords := by
      rw [List.length_take]
      omega
    simp only [if_neg htake, ite_self]
  · have hne : ¬words.isEmpty = true := by
      rw [List.isEmpty_iff_length_eq_zero]
      omega
    have htake : (words.take k.minWords).length = k.minWords := by
      rw [List.length_take]
      omega
    rw [if_neg hlt, if_neg hne, hk.shape]
    exact if_pos htake

end Kind

/-! ## Groups of fixed width -/

/-- type and number of words -/
def Operand.outline (o : Operand) : OperandType × Nat := (o.type, o.words.length)

theorem Groups.map_outline {ks : List Kind} {operands : List Operand} (h : Groups x ks operands)
    (hks : ∀ k ∈ ks, k.FixedWidth) : operands.map Operand.outline = ks.map fun k => (k.type, k.minWords) := by
  induction h with
  | nil => rfl
  | plain _ hfits _ ih =>
    obtain ⟨hk, hks⟩ := List.forall_mem_cons.mp hks
    rw [List.map_cons, List.map_cons, ih hks, Operand.outline, hk.fits_iff.mp hfits]
  | @mask m => exact absurd rfl ((hks _ List.mem_cons_self).plain m)

/-- Any words of the right number are the words of groups. -/
theorem exists_groups_iff {ks : List Kind} (hks : ∀ k ∈ ks, k.FixedWidth) {words : List Word} :
    (∃ operands, words = operands.flatMap (·.words) ∧ Groups x ks operands) ↔
      words.length = (ks.map Kind.minWords).sum := by
  induction ks generalizing words with
  | nil =>
    constructor
    · rintro ⟨operands, rfl, hos⟩
      obtain rfl := groups_nil_iff.mp hos
      rfl
    · intro hlength
      exact ⟨[], List.length_eq_zero_iff.mp hlength, .nil⟩
  | cons k ks ih =>
    obtain ⟨hk, hks⟩ := List.forall_mem_cons.mp hks
    rw [List.map_cons, List.sum_cons]
    constructor
    · rintro ⟨operands, rfl, hos⟩
      obtain ⟨words, rest, rfl, hfits, hos⟩ := groups_cons_iff.mp hos
      rw [Kind.follow_of_plain x hk.plain] at hos
      rw [List.flatMap_cons, List.length_append, hk.fits_iff.mp hfits, (ih hks).mp ⟨rest, rfl, hos⟩]
    · intro hlength
      have htake : (words.take k.minWords).length = k.minWords := by
        rw [List.length_take]
        omega
      have hdrop : (words.drop k.minWords).length = (ks.map Kind.minWords).sum := by
        rw [List.length_drop]
        omega
      obtain ⟨rest, hrest, hos⟩ := (ih hks).mpr hdrop
      refine ⟨⟨k.type, words.take k.minWords⟩ :: rest, ?_, ?_⟩
      · rw [List.flatMap_cons, ← hrest, List.take_append_drop]
      · refine groups_cons_iff.mpr ⟨_, rest, rfl, hk.fits_iff.mpr htake, ?_⟩
        rw [Kind.follow_of_plain x hk.plain]
        exact hos

/-! ## Two decoders -/

namespace Decoder

/-- two decoders with as many words left, and with operands of the same types and sizes -/
structure Abreast (d d' : Decoder) : Prop where
  rest : d.rest.length = d'.rest.length
  operands : d.operands.toList.map Operand.outline = d'.operands.toList.map Operand.outline

/-- two results that are abreast, or the same error -/
inductive EndAbreast : Except DecodeStop Decoder → Except DecodeStop Decoder → Prop where
  | ok {d d'} (h : d.Abreast d') : EndAbreast (.ok d) (.ok d')
  | error {stop stop'} (h : stop.error = stop'.error) : EndAbreast (.error stop) (.error stop')

theorem EndAbreast.bind {r r' : Except DecodeStop Decoder} {f : Decoder → Except DecodeStop Decoder}
    (h : EndAbreast r r') (hf : ∀ d d', r = .ok d → d.Abreast d' → EndAbreast (f d) (f d')) :
    EndAbreast (r >>= f) (r' >>= f) := by
  cases h with
  | ok h => exact hf _ _ rfl h
  | error h => exact .error h

theorem Abreast.rest_eq_nil_iff {d d' : Decoder} (h : d.Abreast d') : d.rest = [] ↔ d'.rest = [] := by
  rw [← List.length_eq_zero_iff, h.rest, List.length_eq_zero_iff]

theorem take_of_fixedWidth {k : Kind} (hk : k.FixedWidth) (d : Decoder) :
    take x k d = if d.rest.length < k.minWords then .error ⟨.insufficientWords k, d⟩
      else .ok ⟨d.rest.drop k.minWords, d.operands.push ⟨k.type, d.rest.take k.minWords⟩⟩ := by
  rw [take, takeEach]
  split
  · rename_i e hwords
    rw [hk.takeWords_eq] at hwords
    split at hwords
    · rename_i hlt
      rw [if_pos hlt, ← Except.error.inj hwords]
    · cases hwords
  · rename_i words rest hwords
    rw [hk.takeWords_eq] at hwords
    split at hwords
    · cases hwords
    · rename_i hle
      obtain ⟨rfl, rfl⟩ := Prod.mk.inj (Except.ok.inj hwords)
      rw [Kind.follow_of_plain x hk.plain, List.nil_append, takeEach, if_neg hle]

theorem take_abreast {k : Kind} (hk : k.FixedWidth) {d d' : Decoder} (h : d.Abreast d') :
    EndAbreast (take x k d) (take x k d') := by
  rw [take_of_fixedWidth hk, take_of_fixedWidth hk, h.rest]
  by_cases hlt : d'.rest.length < k.minWords
  · rw [if_pos hlt, if_pos hlt]
    exact .error rfl
  · rw [if_neg hlt, if_neg hlt]
    refine .ok ⟨?_, ?_⟩
    · rw [List.length_drop, List.length_drop, h.rest]
    · simp [Operand.outline, h.rest, h.operands]

theorem takeRepeated_abreast {k : Kind} (hk : k.FixedWidth) {d d' : Decoder} (h : d.Abreast d') :
    EndAbreast (takeRepeated x k d) (takeRepeated x k d') := by
  -- each repetition takes as many words from both, so the induction is on how many the first has left
  induction hn : d.rest.length using Nat.strongRecOn generalizing d d' with
  | ind n ih =>
    by_cases hrest : d.rest = []
    · rw [takeRepeated_of_end hrest, takeRepeated_of_end (h.rest_eq_nil_iff.mp hrest)]
      exact .ok h
    · rw [takeRepeated_of_more hrest, takeRepeated_of_more fun hrest' => hrest (h.rest_eq_nil_iff.mpr hrest')]
      apply (take_abreast hk h).bind
      intro m m' htake hm
      exact ih _ (hn ▸ take_lt htake) hm rfl

end Decoder

/-- all operands of the layout are of fixed width -/
structure Layout.FixedWidth (l : Layout) : Prop where
  fields : ∀ f ∈ l.fields, f.kind.FixedWidth
  tail : ∀ k, l.tail = some k → k.FixedWidth

namespace Decoder

theorem run_bare_abreast {opcode : UInt16} {d d' : Decoder} (h : d.Abreast d') :
    EndAbreast (run x ⟨opcode, [], none⟩ d) (run x ⟨opcode, [], none⟩ d') := by
  by_cases hrest : d.rest = []
  · rw [run_bare_of_end hrest, run_bare_of_end (h.rest_eq_nil_iff.mp hrest)]
    exact .ok h
  · rw [run_bare_of_more hrest, run_bare_of_more fun hrest' => hrest (h.rest_eq_nil_iff.mpr hrest')]
    exact .error (congrArg DecodeError.excessWords h.rest)

/-- Decoders that are abreast stay abreast through a layout of fixed width, or stop with the same error. -/
theorem run_abreast {l : Layout} (hl : l.FixedWidth) {d d' : Decoder} (h : d.Abreast d') :
    EndAbreast (run x l d) (run x l d') := by
  induction l using Layout.cons_induction generalizing d d' with
  | empty opcode tail =>
    cases tail with
    | none => exact run_bare_abreast h
    | some k =>
      rw [run_tail, run_tail]
      exact (takeRepeated_abreast (hl.tail k rfl) h).bind fun _ _ _ => run_bare_abreast
  | cons f l ih =>
    obtain ⟨hf, hfields⟩ := List.forall_mem_cons.mp hl.fields
    have hrest {d d' : Decoder} (h : d.Abreast d') : EndAbreast (run x l d) (run x l d') := ih ⟨hfields, hl.tail⟩ h
    by_cases hleftOut : f.optional = true ∧ d.rest = []
    · obtain ⟨hoptional, hend⟩ := hleftOut
      rw [run_cons_of_left_out hoptional hend, run_cons_of_left_out hoptional (h.rest_eq_nil_iff.mp hend)]
      exact hrest h
    · have hleftOut' : ¬(f.optional = true ∧ d'.rest = []) := by rwa [← h.rest_eq_nil_iff]
      rw [run_cons_of_given hleftOut, run_cons_of_given hleftOut']
      exact (take_abreast hf h).bind fun _ _ _ => hrest

end Decoder

/-! ## Main result -/

namespace Layout

theorem FixedWidth.of_types {l : Layout}
    (h : ∀ t ∈ l.types, (∃ n, t.shape = some (.fixed n)) ∧ t.cls ≠ some .mask) : l.FixedWidth := by
  have hslot {s : Slot} (hs : s ∈ l.slots) : s.kind.FixedWidth := by
    obtain ⟨⟨n, hshape⟩, hcls⟩ := h _ (List.mem_map_of_mem hs)
    exact .of_shape ⟨n, Option.some.inj hshape⟩ fun hmask => hcls (congrArg some hmask)
  constructor
  · intro f hf
    exact hslot (s := f.slot) (List.mem_append_left _ (List.mem_map_of_mem hf))
  · intro k hk
    exact hslot (s := ⟨.repeated, k⟩) (List.mem_append_right _ (by simp [hk]))

/-- the number of words of these fields, when all are given and of fixed width -/
def fieldWords (fs : List Field) : Nat := ((fs.map (·.kind)).map Kind.minWords).sum

theorem fieldWords_append_replicate {l : Layout} {k : Kind} {n : Nat} :
    ((l.fields.map (·.kind) ++ List.replicate n k).map Kind.minWords).sum = fieldWords l.fields + n * k.minWords := by
  rw [List.map_append, List.sum_append, List.map_replicate, List.sum_replicate_nat, fieldWords]

theorem FixedWidth.of_mem_fields {l : Layout} (hl : l.FixedWidth) {k : Kind} (hk : k ∈ l.fields.map (·.kind)) :
    k.FixedWidth := by
  obtain ⟨f, hf, rfl⟩ := List.mem_map.mp hk
  exact hl.fields f hf

theorem FixedWidth.of_mem_repeated {l : Layout} (hl : l.FixedWidth) {k j : Kind} {n : Nat} (htail : l.tail = some k)
    (hj : j ∈ l.fields.map (·.kind) ++ List.replicate n k) : j.FixedWidth := by
  rcases List.mem_append.mp hj with hj | hj
  · exact hl.of_mem_fields hj
  · obtain rfl := List.eq_of_mem_replicate hj
    exact hl.tail j htail

theorem FixedWidth.exists_decode_iff {l : Layout} (hl : l.FixedWidth) {words : List Word} :
    (∃ operands, l.decode x words = .ok operands) ↔
      (∃ given later, l.fields = given ++ later ∧ (∀ f ∈ later, f.optional = true) ∧
        words.length = fieldWords given) ∨
      ∃ k n, l.tail = some k ∧ words.length = fieldWords l.fields + n * k.minWords := by
  have hgiven {given later : List Field} (h : l.fields = given ++ later) :
      ∀ k ∈ given.map (·.kind), k.FixedWidth := by
    intro k hk
    apply hl.of_mem_fields
    rw [h, List.map_append]
    exact List.mem_append_left _ hk
  simp only [decode_eq_ok_iff, admits_iff]
  constructor
  · rintro ⟨operands, hwords, ⟨given, later, hfields, hlater, hos⟩ | ⟨k, n, htail, hos⟩⟩
    · exact .inl ⟨given, later, hfields, hlater, (exists_groups_iff (hgiven hfields)).mp ⟨operands, hwords, hos⟩⟩
    · refine .inr ⟨k, n, htail, ?_⟩
      rw [← fieldWords_append_replicate]
      exact (exists_groups_iff fun _ => hl.of_mem_repeated htail).mp ⟨operands, hwords, hos⟩
  · rintro (⟨given, later, hfields, hlater, hlength⟩ | ⟨k, n, htail, hlength⟩)
    · obtain ⟨operands, hwords, hos⟩ := (exists_groups_iff (x := x) (hgiven hfields)).mpr hlength
      exact ⟨operands, hwords, .inl ⟨given, later, hfields, hlater, hos⟩⟩
    · rw [← fieldWords_append_replicate] at hlength
      obtain ⟨operands, hwords, hos⟩ :=
        (exists_groups_iff (x := x) fun _ => hl.of_mem_repeated htail).mpr hlength
      exact ⟨operands, hwords, .inr ⟨k, n, htail, hos⟩⟩

/-- Words for all fields and for `n` repetitions of the tail are read as that many repetitions. -/
theorem FixedWidth.decode_repeated {l : Layout} (hl : l.FixedWidth) {k : Kind} {n : Nat} {words : List Word}
    (htail : l.tail = some k) (hlength : words.length = fieldWords l.fields + n * k.minWords) :
    ∃ operands, l.decode x words = .ok operands ∧
      operands.map Operand.outline = (l.fields.map (·.kind) ++ List.replicate n k).map fun k => (k.type, k.minWords) := by
  have hks : ∀ j ∈ l.fields.map (·.kind) ++ List.replicate n k, j.FixedWidth := fun _ => hl.of_mem_repeated htail
  rw [← fieldWords_append_replicate] at hlength
  obtain ⟨operands, hwords, hos⟩ := (exists_groups_iff (x := x) hks).mpr hlength
  exact ⟨operands, decode_eq_ok_iff.mpr ⟨hwords, admits_iff.mpr (.inr ⟨k, n, htail, hos⟩)⟩, hos.map_outline hks⟩

theorem FixedWidth.decode_abreast {l : Layout} (hl : l.FixedWidth) {words words' : List Word}
    (h : words'.length = words.length) :
    (∃ operands operands', l.decode x words = .ok operands ∧ l.decode x words' = .ok operands' ∧
      operands.map Operand.outline = operands'.map Operand.outline) ∨
    ∃ e, l.decode x words = .error e ∧ l.decode x words' = .error e := by
  have hstart : Decoder.Abreast ⟨words, #[]⟩ ⟨words', #[]⟩ := ⟨h.symm, rfl⟩
  have hend := Decoder.run_abreast (x := x) hl hstart
  unfold decode
  generalize Decoder.run x l ⟨words, #[]⟩ = r at hend ⊢
  generalize Decoder.run x l ⟨words', #[]⟩ = r' at hend ⊢
  cases hend with
  | ok hd => exact .inl ⟨_, _, rfl, rfl, hd.operands⟩
  | @error stop _ herror => exact .inr ⟨stop.error, rfl, congrArg Except.error herror.symm⟩

end Layout

/-- **Without texts and masks the number of words decides.** Words are decoded when they are as many as some fields have,
with no required field behind those, or as many as all fields and some repetitions of the tail have. In the second case
there are that many repetitions. Words of one number become operands of the same types and sizes, or fail alike. -/
theorem outcome_by_word_count {opcode : UInt16} {types : List OperandType} {l : Layout}
    (hl : Layout.ofTypes opcode types = .ok l)
    (hfixed : ∀ t ∈ types, (∃ n, t.shape = some (.fixed n)) ∧ t.cls ≠ some .mask) (words : List Word) :
    ((∃ operands, l.decode x words = .ok operands) ↔
      (∃ given later, l.fields = given ++ later ∧ (∀ f ∈ later, f.optional = true) ∧
        words.length = Layout.fieldWords given) ∨
      ∃ k n, l.tail = some k ∧ words.length = Layout.fieldWords l.fields + n * k.minWords) ∧
    (∀ k n, l.tail = some k → words.length = Layout.fieldWords l.fields + n * k.minWords →
      ∃ operands, l.decode x words = .ok operands ∧ operands.map Operand.outline =
        (l.fields.map (·.kind) ++ List.replicate n k).map fun k => (k.type, k.minWords)) ∧
    ∀ words', words'.length = words.length →
      (∃ operands operands', l.decode x words = .ok operands ∧ l.decode x words' = .ok operands' ∧
        operands.map Operand.outline = operands'.map Operand.outline) ∨
      ∃ e, l.decode x words = .error e ∧ l.decode x words' = .error e := by
  obtain ⟨-, rfl⟩ := Layout.ofTypes_eq_ok_iff.mp hl
  have hwidth : l.FixedWidth := .of_types hfixed
  exact ⟨hwidth.exists_decode_iff, fun _ _ => hwidth.decode_repeated, fun _ => hwidth.decode_abreast⟩

namespace Sample

/-- an optional number, and pairs of which the first is required -/
def pairTypes : List OperandType :=
  [.operand ⟨.optional, .literal .integer⟩, .operand ⟨.required, .pair .idId⟩, .operand ⟨.repeated, .pair .idId⟩]

def pairLayout : Layout := ⟨9, [⟨.literal .integer, true⟩, ⟨.pair .idId, false⟩], some (.pair .idId)⟩

end Sample

/-- Seven words are a number and three pairs. -/
theorem outcome_by_word_count_sample :
    Layout.ofTypes 9 Sample.pairTypes = .ok Sample.pairLayout ∧
    (∀ t ∈ Sample.pairTypes, (∃ n, t.shape = some (.fixed n)) ∧ t.cls ≠ some .mask) ∧
    ∃ operands, Sample.pairLayout.decode Grammar.core.expand [5, 1, 2, 3, 4, 6, 7] = .ok operands ∧
      operands.map Operand.outline =
        [(Kind.type (.literal .integer), 1), (Kind.type (.pair .idId), 2), (Kind.type (.pair .idId), 2),
          (Kind.type (.pair .idId), 2)] := by
  have hl : Layout.ofTypes 9 Sample.pairTypes = .ok Sample.pairLayout := rfl
  have hfixed : ∀ t ∈ Sample.pairTypes, (∃ n, t.shape = some (.fixed n)) ∧ t.cls ≠ some .mask := by
    simp only [Sample.pairTypes, List.forall_mem_cons]
    exact ⟨⟨⟨1, rfl⟩, by decide⟩, ⟨⟨2, rfl⟩, by decide⟩, ⟨⟨2, rfl⟩, by decide⟩, nofun⟩
  exact ⟨hl, hfixed, (outcome_by_word_count hl hfixed [5, 1, 2, 3, 4, 6, 7]).2.1 (.pair .idId) 2 rfl rfl⟩

end Spirv
