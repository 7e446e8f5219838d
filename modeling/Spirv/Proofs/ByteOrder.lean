/-
The byte order in which a module is stored makes no difference to what is read from it. The same module in the other
order has the bytes of each word turned around (`swapGroups`); both are opened or refused for the same reason, and when
they are opened every answer of the one reader is the answer of the other. The one thing that shows the order is a wrong
magic number, which is reported as it was found.

Opening a module asks three things of its bytes, and none of them depends on the order: that they are whole words, that
there are at least five, and that the first is the magic number from one end or from the other.

- `take_four_eq_iff`: what it takes of the first four bytes to be the magic number from one end or from the other.
- `ofBytes_of_unaligned`, `ofBytes_of_short`, `ofBytes_of_foreign`, `exists_ofBytes`: what comes of a module by the three
  questions, and so `exists_ofBytes_iff`.
- `Stored.swapGroups`: bytes and their turned groups hold the same words.
- `Tracks.withOrder`: a reader does not look at the order once it is open.
- `readAlike_swapGroups`: two readings in a grammar whose magic number shows the order.

Main result:
- `reading_ignores_byte_order`: two readings of one module, stored in either order.
-/
import Spirv.Proofs.ModuleReading

namespace Spirv

/-! ## Groups of four bytes -/

theorem length_swapGroups (bs : List UInt8) : (swapGroups bs).length = bs.length := by
  fun_induction swapGroups bs with
  | case1 b₀ b₁ b₂ b₃ rest ih => simp only [List.length_cons, ih]
  | case2 => rfl

namespace Word

theorem length_flatMap_bytes (words : List Word) : (words.flatMap bytes).length = 4 * words.length := by
  induction words with
  | nil => rfl
  | cons w words ih =>
    rw [List.flatMap_cons, List.length_append, length_bytes, ih, List.length_cons]
    omega

/-- Bytes are the bytes of words when they come in whole groups of four. -/
theorem exists_flatMap_bytes {bs : List UInt8} (h : bs.length % 4 = 0) :
    ∃ words : List Word, bs = words.flatMap bytes := by
  fun_induction swapGroups bs with
  | case1 b₀ b₁ b₂ b₃ rest ih =>
    simp only [List.length_cons] at h
    obtain ⟨words, rfl⟩ := ih (by omega)
    exact ⟨ofBytes b₀ b₁ b₂ b₃ :: words, by rw [List.flatMap_cons, bytes_ofBytes]; rfl⟩
  | case2 bs hshort =>
    rcases bs with _ | ⟨b₀, _ | ⟨b₁, _ | ⟨b₂, _ | ⟨b₃, rest⟩⟩⟩⟩
    · exact ⟨[], rfl⟩
    · simp at h
    · simp at h
    · simp at h
    · exact absurd rfl (hshort b₀ b₁ b₂ b₃ rest)

end Word

/-! ## The outcome of opening a module -/

/-- The first word is the magic number from one end or from the other. -/
theorem take_four_eq_iff {bytes : List UInt8} {first magic : Word} (h : bytes.take 4 = first.bytes) :
    bytes.take 4 = magic.bytes ∨ bytes.take 4 = magic.bytes.reverse ↔ first = magic ∨ first.swapBytes = magic := by
  rw [h, Word.bytes_inj]
  refine or_congr_right ?_
  calc first.bytes = magic.bytes.reverse ↔ first.bytes.reverse = magic.bytes := List.reverse_eq_iff.symm
    _ ↔ first.swapBytes.bytes = magic.bytes := by rw [Word.bytes_swapBytes]
    _ ↔ first.swapBytes = magic := Word.bytes_inj

namespace ModuleReader

variable {g : Grammar} {bytes : List UInt8} {first : Word}

theorem ofBytes_of_unaligned (h : bytes.length % 4 ≠ 0) : ofBytes g bytes = .error .notWordAligned := by
  have hnone : Word.ofByteList? bytes = none := by
    rw [Option.eq_none_iff_forall_ne_some]
    intro words hwords
    rw [Word.ofByteList?_eq_some_iff.mp hwords, Word.length_flatMap_bytes] at h
    omega
  rw [ofBytes, hnone]

theorem ofBytes_of_short (haligned : bytes.length % 4 = 0) (hshort : bytes.length < 20) :
    ofBytes g bytes = .error .truncatedHeader := by
  obtain ⟨words, rfl⟩ := Word.exists_flatMap_bytes haligned
  rw [Word.length_flatMap_bytes] at hshort
  have hnone : Header.ofWords? words.toArray = none := by
    refine dif_neg ?_
    rw [Header.size, List.size_toArray]
    omega
  have hwords : Word.ofByteList? (words.flatMap Word.bytes) = some words.toArray := Word.ofByteList?_eq_some_iff.mpr rfl
  rw [ofBytes, hwords]
  simp only [hnone]

/-- Bytes that are long enough hold a header, and its magic number is what their first four are. -/
theorem exists_header (haligned : bytes.length % 4 = 0) (hlong : 20 ≤ bytes.length) :
    ∃ words stored, Word.ofByteList? bytes = some words ∧ Header.size ≤ words.size ∧
      Header.ofWords? words = some stored ∧ bytes.take 4 = stored.magic.bytes := by
  obtain ⟨words, rfl⟩ := Word.exists_flatMap_bytes haligned
  rw [Word.length_flatMap_bytes] at hlong
  have hsize : Header.size ≤ words.toArray.size := by
    rw [Header.size, List.size_toArray]
    omega
  obtain ⟨stored, hstored⟩ := Header.exists_ofWords? hsize
  obtain ⟨rest, hrest⟩ := List.head?_eq_some_iff.mp (Header.head?_of_ofWords? hstored)
  refine ⟨words.toArray, stored, Word.ofByteList?_eq_some_iff.mpr rfl, hsize, hstored, ?_⟩
  obtain rfl : words = stored.magic :: rest := hrest
  exact take_four_flatMap_bytes stored.magic rest

theorem exists_first (haligned : bytes.length % 4 = 0) (hlong : 20 ≤ bytes.length) :
    ∃ first : Word, bytes.take 4 = first.bytes := by
  obtain ⟨_, stored, -, -, -, htake⟩ := exists_header haligned hlong
  exact ⟨stored.magic, htake⟩

theorem ofBytes_of_foreign (haligned : bytes.length % 4 = 0) (hlong : 20 ≤ bytes.length)
    (hfirst : bytes.take 4 = first.bytes) (h : ¬(first = g.magic ∨ first.swapBytes = g.magic)) :
    ofBytes g bytes = .error (.badMagic first) := by
  obtain ⟨hnative, hswapped⟩ := not_or.mp h
  obtain ⟨words, stored, hwords, -, hstored, htake⟩ := exists_header haligned hlong
  obtain rfl : first = stored.magic := Word.bytes_inj.mp (hfirst.symm.trans htake)
  have hnone : ByteOrder.ofFirst? g.magic stored.magic = none := by
    rw [ByteOrder.ofFirst?, if_neg hnative, if_neg hswapped]
  rw [ofBytes, hwords]
  simp only [hstored, hnone]

theorem exists_ofBytes (haligned : bytes.length % 4 = 0) (hlong : 20 ≤ bytes.length)
    (hfirst : bytes.take 4 = first.bytes) (h : first = g.magic ∨ first.swapBytes = g.magic) :
    ∃ r, ofBytes g bytes = .ok r := by
  obtain ⟨words, stored, hwords, hsize, hstored, htake⟩ := exists_header haligned hlong
  obtain rfl : first = stored.magic := Word.bytes_inj.mp (hfirst.symm.trans htake)
  obtain ⟨order, horder⟩ : ∃ order, ByteOrder.ofFirst? g.magic stored.magic = some order := by
    by_cases hnative : stored.magic = g.magic
    · exact ⟨.native, if_pos hnative⟩
    · have hswapped : stored.magic.swapBytes = g.magic := h.resolve_left hnative
      exact ⟨.swapped, by rw [ByteOrder.ofFirst?, if_neg hnative, if_pos hswapped]⟩
  have hnormalize : (order.normalize words).size = words.size := by
    cases order with
    | native => rfl
    | swapped => exact Array.size_map
  obtain ⟨header, hheader⟩ := Header.exists_ofWords? (hnormalize ▸ hsize)
  refine ⟨⟨order, header, order.normalize words, Header.size⟩, ?_⟩
  rw [ofBytes, hwords]
  simp only [hstored, horder, hheader]

theorem not_exists_of_error {e : ModuleError} (h : ofBytes g bytes = .error e) : ¬∃ r, ofBytes g bytes = .ok r := by
  rintro ⟨r, hr⟩
  rw [h] at hr
  cases hr

/-- A module is opened when its bytes are whole words, five at least, and the first is the magic number in either order. -/
theorem exists_ofBytes_iff : (∃ r, ofBytes g bytes = .ok r) ↔ bytes.length % 4 = 0 ∧ 20 ≤ bytes.length ∧
    (bytes.take 4 = g.magic.bytes ∨ bytes.take 4 = g.magic.bytes.reverse) := by
  by_cases haligned : bytes.length % 4 = 0
  · by_cases hlong : 20 ≤ bytes.length
    · obtain ⟨first, hfirst⟩ := exists_first haligned hlong
      rw [take_four_eq_iff hfirst]
      by_cases h : first = g.magic ∨ first.swapBytes = g.magic
      · exact iff_of_true (exists_ofBytes haligned hlong hfirst h) ⟨haligned, hlong, h⟩
      · exact iff_of_false (not_exists_of_error (ofBytes_of_foreign haligned hlong hfirst h)) fun h' => h h'.2.2
    · exact iff_of_false (not_exists_of_error (ofBytes_of_short haligned (Nat.lt_of_not_le hlong))) fun h => hlong h.2.1
  · exact iff_of_false (not_exists_of_error (ofBytes_of_unaligned haligned)) fun h => haligned h.1

end ModuleReader

/-! ## Two readings -/

/-- Bytes hold the same words when their groups are turned around, unless the magic number reads the same both ways. -/
theorem Stored.swapGroups {magic : Word} {bytes : List UInt8} {words : List Word} (hmagic : magic.swapBytes ≠ magic)
    (h : Stored magic bytes words) : Stored magic (swapGroups bytes) words := by
  obtain ⟨hhead, hbytes⟩ := h
  obtain ⟨rest, rfl⟩ := List.head?_eq_some_iff.mp hhead
  refine ⟨hhead, ?_⟩
  by_cases hnative : bytes.take 4 = magic.bytes
  · rw [if_pos hnative] at hbytes
    have hother : (Spirv.swapGroups bytes).take 4 ≠ magic.bytes := by
      rw [← hbytes, swapGroups_flatMap_bytes, List.map_cons, take_four_flatMap_bytes]
      exact fun heq => hmagic (Word.bytes_inj.mp heq)
    rw [if_neg hother, swapGroups_swapGroups, hbytes]
  · rw [if_neg hnative] at hbytes
    have hother : (Spirv.swapGroups bytes).take 4 = magic.bytes := by
      rw [← hbytes]
      exact take_four_flatMap_bytes magic rest
    rw [if_pos hother, hbytes]

theorem take_four_swapGroups {bytes : List UInt8} {first : Word} (h : bytes.take 4 = first.bytes) :
    (swapGroups bytes).take 4 = first.swapBytes.bytes := by
  have hbytes : bytes = first.bytes ++ bytes.drop 4 := by rw [← h, List.take_append_drop]
  rw [hbytes, Word.bytes_swapBytes]
  rfl

namespace ModuleReader

variable {g : Grammar} {r : ModuleReader} {s : InstructionStream}

/-- the same reader, as if its module had been stored in this order -/
def withOrder (r : ModuleReader) (order : ByteOrder) : ModuleReader := { r with order := order }

theorem Tracks.withOrder (h : Tracks r s) (order : ByteOrder) : Tracks (r.withOrder order) s := ⟨h.rest, h.position⟩

/-- What comes of opening a module and of opening the same module in the other byte order. -/
inductive ReadAlike (g : Grammar) : Except ModuleError ModuleReader → Except ModuleError ModuleReader → Prop where
  | notWordAligned : ReadAlike g (.error .notWordAligned) (.error .notWordAligned)
  | truncatedHeader : ReadAlike g (.error .truncatedHeader) (.error .truncatedHeader)
  | badMagic (found : Word) : ReadAlike g (.error (.badMagic found)) (.error (.badMagic found.swapBytes))
  | opened {r s : ModuleReader} (header : r.header = s.header) (answer? : ∀ n, r.answer? g n = s.answer? g n)
      (items : r.items g = s.items g) : ReadAlike g (.ok r) (.ok s)

theorem readAlike_withOrder {bytes : List UInt8} (h : ofBytes g bytes = .ok r) (order : ByteOrder) :
    ReadAlike g (.ok r) (.ok (r.withOrder order)) := by
  have htracks := tracks_of_ofBytes h
  refine .opened rfl ?_ ?_
  · intro n
    rw [htracks.answer?_eq, (htracks.withOrder order).answer?_eq]
  · rw [← Array.toList_inj, htracks.items_eq_outcomes, (htracks.withOrder order).items_eq_outcomes]

theorem ofBytes_swapGroups_of_ok {bytes : List UInt8} (hmagic : g.magic.swapBytes ≠ g.magic)
    (h : ofBytes g bytes = .ok r) : ∃ order, ofBytes g (swapGroups bytes) = .ok (r.withOrder order) := by
  obtain ⟨hholds, hheader, hposition, -⟩ := ofBytes_eq_ok_iff.mp h
  refine ⟨if (swapGroups bytes).take 4 = g.magic.bytes then .native else .swapped, ?_⟩
  exact ofBytes_eq_ok_iff.mpr ⟨hholds.swapGroups hmagic, hheader, hposition, rfl⟩

theorem readAlike_swapGroups (hmagic : g.magic.swapBytes ≠ g.magic) (bytes : List UInt8) :
    ReadAlike g (ofBytes g bytes) (ofBytes g (swapGroups bytes)) := by
  have hlength : (swapGroups bytes).length = bytes.length := length_swapGroups bytes
  by_cases haligned : bytes.length % 4 = 0
  · by_cases hlong : 20 ≤ bytes.length
    · obtain ⟨first, hfirst⟩ := exists_first haligned hlong
      by_cases hshown : first = g.magic ∨ first.swapBytes = g.magic
      · obtain ⟨r, hr⟩ := exists_ofBytes haligned hlong hfirst hshown
        obtain ⟨order, hs⟩ := ofBytes_swapGroups_of_ok hmagic hr
        rw [hr, hs]
        exact readAlike_withOrder hr order
      · have hshown' : ¬(first.swapBytes = g.magic ∨ first.swapBytes.swapBytes = g.magic) := by
          rw [Word.swapBytes_swapBytes, or_comm]
          exact hshown
        rw [ofBytes_of_foreign haligned hlong hfirst hshown,
          ofBytes_of_foreign (hlength ▸ haligned) (hlength ▸ hlong) (take_four_swapGroups hfirst) hshown']
        exact .badMagic first
    · have hshort : bytes.length < 20 := Nat.lt_of_not_le hlong
      rw [ofBytes_of_short haligned hshort, ofBytes_of_short (hlength ▸ haligned) (hlength ▸ hshort)]
      exact .truncatedHeader
  · rw [ofBytes_of_unaligned haligned, ofBytes_of_unaligned (hlength ▸ haligned)]
    exact .notWordAligned

/-! ## Main result -/

/-- the magic number cannot be taken for its own swap -/
theorem swapBytes_core_magic_ne : Grammar.core.magic.swapBytes ≠ Grammar.core.magic := by decide

/-- **Reading does not depend on the byte order.** A module and the same module with the bytes of each word turned
around are both refused for the same reason, a wrong magic number being reported as it is found, or both opened, with
the same header and with the same items, failures and their places included. They are opened when the bytes are whole
words, five at least, and the first is the magic number in one order or in the other. -/
theorem reading_ignores_byte_order (bytes : List UInt8) :
    let g := Grammar.core
    ReadAlike g (ofBytes g bytes) (ofBytes g (swapGroups bytes)) ∧
      ((∃ r, ofBytes g bytes = .ok r) ↔ bytes.length % 4 = 0 ∧ 20 ≤ bytes.length ∧
        (bytes.take 4 = g.magic.bytes ∨ bytes.take 4 = g.magic.bytes.reverse)) :=
  ⟨readAlike_swapGroups swapBytes_core_magic_ne bytes, exists_ofBytes_iff⟩

end ModuleReader

end Spirv
