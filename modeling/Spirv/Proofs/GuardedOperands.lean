/-
One instruction without traps: the guarded decoder and encoder come to what the running ones come to. Both go through the
same data in the same way, so each part of a guarded computation is that part of the running one as an outcome
(`Outcome.ofResult`), and an outcome of this form is no trap. What keeps a partial step from its trap is said where the
step is met: a scan stays within the bits of a word, a kind has a shape, an operand that was taken or accepted has words,
and every operand leaves less to do.

- `Scan.drain_ofBitScan`, `setBits_eq`: no position of a set bit, and no shift, is more than a byte or a word has room for.
- `asked_type`: a mask that has words is looked up without a trap.
- `repeatWhile_eq_ofResult`: a repetition whose step leaves less to do.
- `takeAll_places`, `decode_types`: decoding.
- `putAll_places`, `encode_types`: encoding; what stands behind a place is cut out of all places at every optional one.
-/
import Spirv.Proofs.Decoding
import Spirv.Proofs.Guarded
import Spirv.Proofs.Encoding
import Spirv.Proofs.SetBits

namespace Spirv

namespace Guarded

open Outcome

variable {g : Grammar}

/-! ## Partial steps that can be made -/

theorem splitAt_of_le {α : Type} {l : List α} {n : Nat} (h : n ≤ l.length) :
    splitAt l n = .done (l.take n, l.drop n) := if_pos h

theorem part_of_le {α : Type} {l : List α} {start stop : Nat} (h : start ≤ stop) (hstop : stop ≤ l.length) :
    part l start stop = .done ((l.take stop).drop start) := if_pos ⟨h, hstop⟩

theorem addBytes_ofNat {a b : Nat} (h : a + b < 256) : addBytes (.ofNat a) (.ofNat b) = .done (.ofNat (a + b)) := by
  have hsum : (UInt8.ofNat a).toNat + (UInt8.ofNat b).toNat < 256 := by
    simp only [UInt8.toNat_ofNat']
    omega
  rw [addBytes, if_pos hsum, UInt8.ofNat_add]

theorem shiftOut_eq (w : Word) (places : Nat) : shiftOut w places = .done (w.shiftOut places) := by
  rw [shiftOut, Word.shiftOut]
  by_cases h : places < 32
  · rw [if_pos h, if_pos h, shiftRight, if_pos h]
  · rw [if_neg h, if_neg h]

section Repetition

variable {σ ε : Type} {more : σ → Bool} {size : σ → Nat} {step : σ → Outcome σ} {once total : σ → Except ε σ}

/-- A repetition comes to the same as a total one, if its step does and leaves less to do every time. -/
theorem repeatWhile_eq_ofResult (hstep : ∀ s, step s = ofResult (once s))
    (hlt : ∀ {s t}, once s = .ok t → size t < size s) (hmore : ∀ {s}, more s = true → total s = once s >>= total)
    (hend : ∀ {s}, more s = false → total s = .ok s) (s : σ) :
    repeatWhile more size step s = ofResult (total s) := by
  induction hn : size s using Nat.strongRecOn generalizing s with
  | ind n ih =>
    rw [repeatWhile]
    cases hm : more s with
    | false => rw [hend hm]; rfl
    | true =>
      rw [if_pos rfl, hstep, hmore hm]
      cases honce : once s with
      | error e => rfl
      | ok t =>
        have ht : size t < size s := hlt honce
        simp only [ofResult, done_bind, if_pos ht]
        exact ih (size t) (hn ▸ ht) t rfl

end Repetition

/-! ## Masks -/

namespace Scan

/-- the same scan, with the number of passed bits in a byte -/
def ofBitScan (s : BitScan) : Scan := ⟨s.rest, .ofNat s.passed⟩

variable {s : BitScan}

theorem next?_of_zero (hrest : s.rest = 0) : (ofBitScan s).next? = .done none := if_pos hrest

theorem next?_of_ne_zero (h : s.Within) (hrest : s.rest ≠ 0) :
    (ofBitScan s).next? = .done (some (.ofNat s.lowest.val, ofBitScan s.behind)) := by
  have hlt : s.passed + s.rest.trailingZeros < 32 := h.add_trailingZeros_lt hrest
  have hindex := addBytes_ofNat (a := s.passed) (b := s.rest.trailingZeros) (by omega)
  have hwidth := addBytes_ofNat (a := s.rest.trailingZeros) (b := 1) (by omega)
  have hpassed := addBytes_ofNat (a := s.passed) (b := s.rest.trailingZeros + 1) (by omega)
  have htoNat : (UInt8.ofNat (s.rest.trailingZeros + 1)).toNat = s.rest.trailingZeros + 1 := by
    rw [UInt8.toNat_ofNat']
    omega
  rw [next?, if_neg (show (ofBitScan s).rest ≠ 0 from hrest), h.val_lowest hrest]
  simp only [ofBitScan, hindex, done_bind]
  rw [show (1 : UInt8) = .ofNat 1 from rfl, hwidth, done_bind, htoNat, shiftOut_eq, done_bind, hpassed]
  rfl

theorem drain_ofBitScan (h : s.Within) : (ofBitScan s).drain = .done (s.drain.map fun i => .ofNat i.val) := by
  induction hn : s.rest.toNat using Nat.strongRecOn generalizing s with
  | ind n ih =>
    rw [drain]
    by_cases hrest : s.rest = 0
    · rw [next?_of_zero hrest, BitScan.drain_of_zero hrest]
      rfl
    · have hlt : s.behind.rest.toNat < s.rest.toNat := BitScan.behind_lt hrest
      rw [next?_of_ne_zero h hrest, BitScan.drain_of_ne_zero hrest]
      simp only [done_bind]
      rw [if_pos (show (ofBitScan s.behind).rest.toNat < (ofBitScan s).rest.toNat from hlt),
        ih _ (hn ▸ hlt) (h.behind hrest) rfl, List.map_cons]
      rfl

end Scan

theorem setBits_eq (w : Word) : setBits w = .done (w.setBits.map fun i => .ofNat i.val) :=
  Scan.drain_ofBitScan (BitScan.within_start w)

theorem bit?_ofNat (t : MaskTable Kind) (i : BitIndex) : bit? t (.ofNat i.val) = t.bit? i := by
  have hval : (UInt8.ofNat i.val).toNat = i.val := by
    rw [UInt8.toNat_ofNat']
    omega
  have hlt : (UInt8.ofNat i.val).toNat < 32 := by
    rw [hval]
    exact i.isLt
  rw [bit?, dif_pos hlt]
  exact congrArg t.bit? (Fin.ext hval)

/-- What an operand of a kind asks for are the kinds that follow it. -/
theorem asked_type {k : Kind} {words : List Word} (hwords : words ≠ []) :
    asked g k.type words = .done ((k.follow g.expand words).map Kind.type) := by
  obtain ⟨w, words, rfl⟩ := List.exists_cons_of_ne_nil hwords
  cases k with
  | mask m =>
    have htable : g.maskTable? (Kind.mask m).type = g.masks.get? m := rfl
    have hmask : (Kind.mask m).type.isConcreteMask = true := rfl
    rw [asked, if_pos hmask, htable, Kind.follow, Grammar.expand]
    cases g.masks.get? m with
    | none => rfl
    | some table =>
      have hbits : (w.setBits.map fun i => UInt8.ofNat i.val).filterMap (bit? table) =
          w.setBits.filterMap table.bit? := by
        rw [List.filterMap_map]
        exact congrArg (List.filterMap · w.setBits) (funext fun i => bit?_ofNat table i)
      simp only [element, List.getElem?_cons_zero, done_bind, setBits_eq, hbits]
      rfl
  | _ => rfl

/-! ## Decoding -/

theorem fits_take_of_findIdx? {words : List Word} {i : Nat} (h : words.findIdx? (·.hasZeroByte) = some i) :
    i < words.length ∧ Shape.terminated.Fits (words.take (i + 1)) := by
  obtain ⟨hlt, hlast, hinit⟩ := List.findIdx?_eq_some_iff_getElem.mp h
  refine ⟨hlt, words.take i, words[i], List.take_succ_eq_append_getElem hlt, hlast, ?_⟩
  intro w hw
  obtain ⟨j, hj, rfl⟩ := List.mem_take_iff_getElem.mp hw
  simpa using hinit j (by omega)

theorem findIdx?_of_fits {taken : List Word} (h : Shape.terminated.Fits taken) (rest : List Word) :
    (taken ++ rest).findIdx? (·.hasZeroByte) = some (taken.length - 1) := by
  obtain ⟨init, last, rfl, hlast, hinit⟩ := h
  rw [List.append_assoc, List.findIdx?_append, List.findIdx?_eq_none_iff.mpr hinit]
  simp [List.findIdx?_cons, hlast]

theorem takeWords_type (k : Kind) (words : List Word) : takeWords k.type words = ofResult (k.takeWords words) := by
  have hshapeOf : shapeOf k.type = .done k.shape := rfl
  rw [takeWords]
  by_cases hempty : words.isEmpty
  · rw [if_pos hempty, Kind.takeWords, if_pos hempty]
    rfl
  rw [if_neg hempty, hshapeOf, done_bind]
  cases hshape : k.shape with
  | fixed n =>
    simp only [done_bind]
    by_cases hlt : words.length < n
    · rw [if_pos hlt, ofResult_eq_refused]
      intro p htake
      obtain ⟨hfits, happend⟩ := Kind.takeWords_eq_ok_iff.mp htake
      rw [hshape] at hfits
      rw [happend, List.length_append, show p.1.length = n from hfits] at hlt
      omega
    · have hle : n ≤ words.length := Nat.le_of_not_lt hlt
      have hfits : k.shape.Fits (words.take n) := by
        rw [hshape]
        exact List.length_take_of_le hle
      rw [if_neg hlt, splitAt_of_le hle,
        Kind.takeWords_eq_ok_iff.mpr ⟨hfits, (List.take_append_drop n words).symm⟩]
      rfl
  | terminated =>
    simp only
    cases hfind : words.findIdx? (·.hasZeroByte) with
    | none =>
      rw [ofResult_eq_refused]
      · rfl
      · intro p htake
        obtain ⟨hfits, happend⟩ := Kind.takeWords_eq_ok_iff.mp htake
        rw [hshape] at hfits
        rw [happend, findIdx?_of_fits hfits] at hfind
        cases hfind
    | some i =>
      obtain ⟨hlt, hfits⟩ := fits_take_of_findIdx? hfind
      rw [← hshape] at hfits
      simp only [done_bind]
      rw [if_neg (by omega), splitAt_of_le hlt,
        Kind.takeWords_eq_ok_iff.mpr ⟨hfits, (List.take_append_drop (i + 1) words).symm⟩]
      rfl

theorem takeEach_map_type (ks : List Kind) (d : Decoder) :
    takeEach g (ks.map Kind.type) d = ofResult (Decoder.takeEach g.expand ks d) := by
  fun_induction Decoder.takeEach g.expand ks d with
  | case1 d => rw [List.map_nil, takeEach]; rfl
  | case2 d k ks e htake =>
    rw [List.map_cons, takeEach, takeWords_type, htake]
    rfl
  | case3 d k ks words rest htake hlt ih =>
    have hwords : words ≠ [] := (Kind.takeWords_append htake).2
    rw [List.map_cons, takeEach, takeWords_type, htake]
    simp only [ofResult, done_bind, asked_type hwords]
    rw [if_pos hlt, ← List.map_append, ih]
    rfl

theorem places_cons (s : Slot) (types : List OperandType) :
    places (.operand s :: types) = (s.presence, s.kind.type) :: places types := rfl

theorem takeEach_type (k : Kind) (d : Decoder) : takeEach g [k.type] d = ofResult (Decoder.take g.expand k d) :=
  takeEach_map_type [k] d

theorem takeAll_nil (opcode : UInt16) (d : Decoder) :
    takeAll g [] d = ofResult (Decoder.run g.expand ⟨opcode, [], none⟩ d) := by
  rw [takeAll, Decoder.run_bare]
  split <;> rfl

theorem takeAll_repeated (opcode : UInt16) (k : Kind) (d : Decoder) :
    takeAll g [(.repeated, k.type)] d = ofResult (Decoder.run g.expand ⟨opcode, [], some k⟩ d) := by
  have hrepeat : repeatWhile (!·.rest.isEmpty) (·.rest.length) (takeEach g [k.type]) d =
      ofResult (Decoder.takeRepeated g.expand k d) := by
    apply repeatWhile_eq_ofResult (takeEach_type k) Decoder.take_lt
    · intro d hmore
      exact Decoder.takeRepeated_of_more (by simpa using hmore)
    · intro d hmore
      exact Decoder.takeRepeated_of_end (by simpa using hmore)
  rw [takeAll, hrepeat, Decoder.run_tail, ofResult_bind]
  exact congrArg _ (funext (takeAll_nil opcode))

theorem takeAll_places (l : Layout) (d : Decoder) :
    takeAll g (places l.types) d = ofResult (Decoder.run g.expand l d) := by
  induction l using Layout.cons_induction generalizing d with
  | empty opcode tail =>
    cases tail with
    | none => exact takeAll_nil opcode d
    | some k => exact takeAll_repeated opcode k d
  | cons f l ih =>
    obtain ⟨k, optional⟩ := f
    have htake : (takeEach g [k.type] d >>= takeAll g (places l.types)) =
        ofResult (Decoder.take g.expand k d >>= Decoder.run g.expand l) := by
      rw [takeEach_type, ofResult_bind]
      exact congrArg _ (funext ih)
    rw [Layout.types_cons, places_cons]
    cases optional with
    | false =>
      rw [Decoder.run_cons_of_given (by simp)]
      exact htake
    | true =>
      simp only [Field.slot, if_true]
      rw [takeAll]
      by_cases hrest : d.rest = []
      · rw [if_pos (by simpa using hrest), Decoder.run_cons_of_left_out rfl hrest]
        exact ih d
      · rw [if_neg (by simpa using hrest), Decoder.run_cons_of_given (fun h => hrest h.2)]
        exact htake

theorem decode_types (l : Layout) (words : List Word) : decode g l.types words = ofResult (l.decode g.expand words) := by
  rw [decode, takeAll_places, Layout.decode]
  cases Decoder.run g.expand l ⟨words, #[]⟩ <;> rfl

/-! ## Encoding -/

theorem wordsOf_of_fits {k : Kind} {words : List Word} (h : k.shape.Fits words) :
    wordsOf ⟨k.type, words⟩ = .done words := by
  have hshapeOf : shapeOf k.type = .done k.shape := rfl
  rw [wordsOf, hshapeOf, done_bind]
  cases hshape : k.shape with
  | fixed n =>
    rw [hshape] at h
    exact if_pos h
  | terminated =>
    have hpos : 0 < words.length := List.length_pos_iff.mpr (Kind.ne_nil_of_fits h)
    rw [hshape] at h
    have hfind := findIdx?_of_fits h []
    rw [List.append_nil] at hfind
    simp only [hfind]
    exact if_pos (by omega)

theorem wordsOf_of_not_fits {k : Kind} {words : List Word} (h : ¬k.shape.Fits words) :
    wordsOf ⟨k.type, words⟩ = .refused := by
  have hshapeOf : shapeOf k.type = .done k.shape := rfl
  rw [wordsOf, hshapeOf, done_bind]
  cases hshape : k.shape with
  | fixed n =>
    rw [hshape] at h
    exact if_neg h
  | terminated =>
    rw [hshape] at h
    simp only
    cases hfind : words.findIdx? (·.hasZeroByte) with
    | none => rfl
    | some i =>
      have hlast : i + 1 ≠ words.length := by
        intro hlast
        have hfits := (fits_take_of_findIdx? hfind).2
        rw [hlast, List.take_length] at hfits
        exact h hfits
      exact if_neg hlast

theorem putEach_of_nil {t : OperandType} {ts : List OperandType} {e : Encoder} (hrest : e.rest = []) :
    putEach g (t :: ts) e = .refused := by
  rw [putEach]
  split
  · rfl
  · rename_i hrest'
    rw [hrest] at hrest'
    cases hrest'

theorem putEach_of_cons {t : OperandType} {ts : List OperandType} {e : Encoder} {o : Operand} {rest : List Operand}
    (hrest : e.rest = o :: rest) : putEach g (t :: ts) e =
      (if o.type ≠ t then .refused
      else do
        let words ← wordsOf o
        let types ← asked g t o.words
        putEach g (types ++ ts) ⟨rest, e.words ++ words⟩) := by
  rw [putEach]
  split
  · rename_i hrest'
    rw [hrest] at hrest'
    cases hrest'
  · rename_i hrest'
    rw [hrest] at hrest'
    obtain ⟨rfl, rfl⟩ := List.cons.inj hrest'
    rfl

theorem putEach_map_type (ds : List Demand) (e : Encoder) :
    putEach g (ds.map (·.kind.type)) e = ofResult (Encoder.putEach g.expand ds e) := by
  fun_induction Encoder.putEach g.expand ds e with
  | case1 e => rw [List.map_nil, putEach]; rfl
  | case2 d ds e hrest =>
    rw [List.map_cons, putEach_of_nil hrest]
    rfl
  | case3 d ds e o rest hrest htype =>
    rw [List.map_cons, putEach_of_cons hrest, if_pos htype]
    rfl
  | case4 d ds e o rest hrest htype fault hfault =>
    obtain ⟨type, words⟩ := o
    obtain rfl : type = d.kind.type := by simpa using htype
    have hfits : ¬d.kind.shape.Fits words := by
      rw [← Kind.wordsFault?_eq_none_iff]
      simp [hfault]
    rw [List.map_cons, putEach_of_cons hrest, if_neg htype, wordsOf_of_not_fits hfits]
    rfl
  | case5 d ds e o rest hrest htype hfault hlt ih =>
    obtain ⟨type, words⟩ := o
    obtain rfl : type = d.kind.type := by simpa using htype
    have hfits : d.kind.shape.Fits words := Kind.wordsFault?_eq_none_iff.mp hfault
    have hfollow : (Demand.follow g.expand d.kind words).map (·.kind.type) =
        (d.kind.follow g.expand words).map Kind.type := by
      rw [← Demand.map_kind_follow, List.map_map]
      rfl
    rw [List.map_append, hfollow] at ih
    rw [List.map_cons, putEach_of_cons hrest, if_neg htype, wordsOf_of_fits hfits, done_bind,
      asked_type (Kind.ne_nil_of_fits hfits), done_bind]
    exact ih

theorem putEach_type (k : Kind) (e : Encoder) : putEach g [k.type] e = ofResult (Encoder.put g.expand k e) :=
  putEach_map_type [.plain k] e

theorem putAll_of_left_out {all ps later : List (Presence × OperandType)} {i : Nat} {t : OperandType} {e : Encoder}
    (hlater : part all (i + 1) all.length = .done later) (hrest : e.rest = []) :
    putAll g all i ((.optional, t) :: ps) e =
      if later.any (·.1 = .required) then .refused else putAll g all (i + 1) ps e := by
  rw [putAll, hrest]
  simp only [List.head?_nil, hlater, done_bind]

theorem putAll_of_optional {all ps later : List (Presence × OperandType)} {i : Nat} {t : OperandType} {e : Encoder}
    {o : Operand} (hlater : part all (i + 1) all.length = .done later) (hhead : e.rest.head? = some o) :
    putAll g all i ((.optional, t) :: ps) e =
      if o.type = t then putEach g [t] e >>= putAll g all (i + 1) ps else .refused := by
  rw [putAll, hhead]
  simp only [hlater, done_bind]

/-- Whether anything further behind is required is known from the places as it is from the fields. -/
theorem any_required_places_iff {l : Layout} :
    (places l.types).any (·.1 = .required) = true ↔ ∃ k, ⟨k, false⟩ ∈ l.fields := by
  induction l using Layout.cons_induction with
  | empty opcode tail =>
    cases tail with
    | none => simp [places, Layout.types, Layout.slots]
    | some k =>
      have hplaces : places (Layout.types ⟨opcode, [], some k⟩) = [(.repeated, k.type)] := rfl
      simp [hplaces]
  | cons f l ih =>
    obtain ⟨j, optional⟩ := f
    rw [Layout.types_cons, places_cons, List.any_cons, Bool.or_eq_true, ih, Layout.fields_cons]
    cases optional <;> simp [Field.slot]

theorem putAll_nil (all : List (Presence × OperandType)) (i : Nat) (opcode : UInt16) (e : Encoder) :
    putAll g all i [] e = ofResult (Encoder.run g.expand ⟨opcode, [], none⟩ e) := by
  obtain ⟨rest, words⟩ := e
  cases rest <;> rfl

theorem putAll_repeated (all : List (Presence × OperandType)) (i : Nat) (opcode : UInt16) (k : Kind) (e : Encoder) :
    putAll g all i [(.repeated, k.type)] e = ofResult (Encoder.run g.expand ⟨opcode, [], some k⟩ e) := by
  have hrun : Encoder.run g.expand ⟨opcode, [], some k⟩ e =
      Encoder.putRepeated g.expand k e >>= Encoder.run g.expand ⟨opcode, [], none⟩ := rfl
  have hrepeat : repeatWhile (·.rest.head?.map (·.type) = some k.type) (·.rest.length) (putEach g [k.type]) e =
      ofResult (Encoder.putRepeated g.expand k e) := by
    apply repeatWhile_eq_ofResult (putEach_type k) Encoder.put_lt
    · intro e hmore
      exact Encoder.putRepeated_of_more (by simpa using hmore)
    · intro e hmore
      exact Encoder.putRepeated_of_end (by simpa using hmore)
  rw [putAll, hrepeat, hrun, ofResult_bind]
  exact congrArg _ (funext (putAll_nil all (i + 1) opcode))

/-- The places in front, whatever they are, move the place at which an encoder is, and nothing else. -/
theorem putAll_places (front : List (Presence × OperandType)) (l : Layout) (e : Encoder) :
    putAll g (front ++ places l.types) front.length (places l.types) e = ofResult (Encoder.run g.expand l e) := by
  induction l using Layout.cons_induction generalizing front e with
  | empty opcode tail =>
    cases tail with
    | none => exact putAll_nil _ _ opcode e
    | some k => exact putAll_repeated _ _ opcode k e
  | cons f l ih =>
    obtain ⟨k, optional⟩ := f
    -- one place further on, that of this field stands in front too
    generalize hall : front ++ places (Layout.types (.cons ⟨k, optional⟩ l)) = all
    rw [Layout.types_cons, places_cons, List.append_cons] at hall
    have hbehind (e : Encoder) : putAll g all (front.length + 1) (places l.types) e =
        ofResult (Encoder.run g.expand l e) := by
      rw [← ih, ← hall, List.length_append]
      rfl
    have hlater : part all (front.length + 1) all.length = .done (places l.types) := by
      rw [← hall, part_of_le (by simp) (Nat.le_refl _), List.take_length]
      simp
    have hput : (putEach g [k.type] e >>= putAll g all (front.length + 1) (places l.types)) =
        ofResult (Encoder.put g.expand k e >>= Encoder.run g.expand l) := by
      rw [putEach_type, ofResult_bind]
      exact congrArg _ (funext hbehind)
    cases optional with
    | false =>
      rw [Encoder.run_cons_of_given (by simp)]
      exact hput
    | true =>
      rw [Layout.types_cons, places_cons]
      simp only [Field.slot, if_true]
      cases hrest : e.rest with
      | nil =>
        rw [putAll_of_left_out hlater hrest]
        by_cases hl : ∃ j, ⟨j, false⟩ ∈ l.fields
        · obtain ⟨j, hj⟩ := hl
          rw [if_pos (any_required_places_iff.mpr ⟨j, hj⟩), ofResult_eq_refused]
          exact fun e' => Encoder.run_ne_ok_of_required hrest (List.mem_cons_of_mem _ hj)
        · rw [if_neg (mt any_required_places_iff.mp hl),
            Encoder.run_cons_of_left_out rfl hrest (fun j hj => hl ⟨j, hj⟩)]
          exact hbehind e
      | cons o rest =>
        have hhead : e.rest.head? = some o := congrArg List.head? hrest
        rw [putAll_of_optional hlater hhead]
        by_cases htype : o.type = k.type
        · rw [if_pos htype, hput, Encoder.run_cons_of_given (fun _ => by simp [hhead, htype])]
        · obtain ⟨stop, hstop⟩ := Encoder.putFields_of_other (x := g.expand) (f := ⟨k, true⟩) l.tail l.fields rfl
            hhead htype
          rw [if_neg htype, Encoder.run_eq_bind, Layout.fields_cons, Layout.tail_cons, hstop]
          rfl

theorem putAll_of_admits {l : Layout} {operands : List Operand} (h : l.Admits g.expand operands) (words : Array Word) :
    putAll g (places l.types) 0 (places l.types) ⟨operands, words⟩ =
      .done ⟨[], words ++ operands.flatMap (·.words)⟩ := by
  have hwrites : Encoder.Writes ⟨operands, words⟩ operands ⟨[], words ++ operands.flatMap (·.words)⟩ :=
    ⟨by simp, rfl⟩
  have hrun := Encoder.run_eq_ok_iff.mpr ⟨rfl, operands, h, hwrites⟩
  exact (putAll_places [] l _).trans (congrArg ofResult hrun)

theorem putAll_of_not_admits {l : Layout} {operands : List Operand} (h : ¬l.Admits g.expand operands)
    (words : Array Word) : putAll g (places l.types) 0 (places l.types) ⟨operands, words⟩ = .refused := by
  have hno (e' : Encoder) : Encoder.run g.expand l ⟨operands, words⟩ ≠ .ok e' := by
    intro hrun
    obtain ⟨hend, os, hos, hwrites⟩ := Encoder.run_eq_ok_iff.mp hrun
    obtain rfl : operands = os := by simpa [hend] using hwrites.rest
    exact h hos
  exact (putAll_places [] l _).trans (ofResult_eq_refused hno)

theorem encode_types (l : Layout) (operands : List Operand) :
    encode g l.opcode l.types operands = ofResult (l.encode g.expand operands) := by
  rw [encode]
  by_cases h : l.Admits g.expand operands
  · rw [putAll_of_admits h, Layout.encode_of_admits h, done_bind]
    generalize operands.flatMap (·.words) = words
    have hsize : ((#[0] : Array Word) ++ words).size = words.length + 1 := by simp
    simp only [hsize]
    split
    · rw [setFirst, dif_pos (by simp)]
      simp [ofResult]
    · rfl
  · have hno : ∀ words, l.encode g.expand operands ≠ .ok words := fun words hwords => h (Layout.admits_of_encode hwords)
    rw [putAll_of_not_admits h, ofResult_eq_refused hno]
    rfl

end Guarded

end Spirv
