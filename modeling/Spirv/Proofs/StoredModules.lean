/-
Modules as bytes. The words of a module are stored in one of two byte orders, and the magic number in front shows which:
bytes that start with its own bytes are taken as they are, and all others are turned around in groups of four
(`swapGroups`). `Stored` says which words a row of bytes holds, without a reader.

- `Word.ofByteList?_eq_some_iff`: a row of bytes is taken for the words whose bytes it is.
- `Header.ofWords?_eq_some_iff`: the header is what the words start with.
- `swapGroups_flatMap_bytes`: turning the groups around turns each word around.

Main result:
- `ModuleReader.ofBytes_eq_ok_iff`: a module is opened when its bytes hold words that start with a header, the magic
  number first; the reader then has these words, and stands behind the header.
-/
import Spirv.Module.Reader

namespace Spirv

namespace Word

theorem bytes_inj {v w : Word} : bytes v = bytes w ↔ v = w := by
  refine ⟨?_, ?_⟩
  · intro h
    simp only [bytes, List.cons.injEq, and_true] at h
    obtain ⟨h₀, h₁, h₂, h₃⟩ := h
    rw [← ofBytes_bytes v, ← ofBytes_bytes w, h₀, h₁, h₂, h₃]
  · intro h
    rw [h]

theorem swapBytes_swapBytes (w : Word) : swapBytes (swapBytes w) = w := by
  rw [← bytes_inj, bytes_swapBytes, bytes_swapBytes, List.reverse_reverse]

theorem flatMap_bytes_eq_nil_iff {words : List Word} : words.flatMap bytes = [] ↔ words = [] := by
  cases words with
  | nil => exact iff_of_true rfl rfl
  | cons w words => exact iff_of_false (by simp [bytes]) (List.cons_ne_nil w words)

/-- Taking words off a row of bytes, behind those that were taken before. -/
theorem ofByteList?_go_eq_some_iff {done : Array Word} {bs : List UInt8} {words : Array Word} :
    ofByteList?.go done bs = some words ↔ ∃ more, words.toList = done.toList ++ more ∧ bs = more.flatMap bytes := by
  fun_induction ofByteList?.go done bs with
  | case1 done =>
    refine ⟨?_, ?_⟩
    · intro h
      obtain rfl := Option.some.inj h
      exact ⟨[], by simp, rfl⟩
    · intro h
      obtain ⟨more, hwords, hnil⟩ := h
      obtain rfl := flatMap_bytes_eq_nil_iff.mp hnil.symm
      rw [List.append_nil, Array.toList_inj] at hwords
      rw [hwords]
  | case2 done b₀ b₁ b₂ b₃ rest ih =>
    rw [ih, Array.toList_push]
    refine ⟨?_, ?_⟩
    · intro h
      obtain ⟨more, hwords, rfl⟩ := h
      refine ⟨ofBytes b₀ b₁ b₂ b₃ :: more, ?_, ?_⟩
      · rw [hwords, List.append_assoc, List.singleton_append]
      · rw [List.flatMap_cons, bytes_ofBytes]
        rfl
    · intro h
      obtain ⟨more, hwords, hbytes⟩ := h
      cases more with
      | nil => cases hbytes
      | cons w more =>
        have happend : [b₀, b₁, b₂, b₃] ++ rest = bytes w ++ more.flatMap bytes := hbytes
        obtain ⟨hw, hrest⟩ := List.append_inj happend rfl
        rw [← bytes_ofBytes, bytes_inj] at hw
        refine ⟨more, ?_, hrest⟩
        rw [hwords, hw, List.append_assoc, List.singleton_append]
  | case3 done bs hnil hlong =>
    refine ⟨fun h => ?_, fun h => ?_⟩
    · cases h
    · obtain ⟨more, -, hbytes⟩ := h
      cases more with
      | nil => exact absurd hbytes hnil
      | cons w more => exact absurd hbytes (hlong _ _ _ _ _)

theorem ofByteList?_eq_some_iff {bs : List UInt8} {words : Array Word} :
    ofByteList? bs = some words ↔ bs = words.toList.flatMap bytes := by
  rw [ofByteList?, ofByteList?_go_eq_some_iff]
  simp

end Word

/-- the bytes of each group of four in the opposite order; a shorter group at the end is kept -/
def swapGroups : List UInt8 → List UInt8
  | b₀ :: b₁ :: b₂ :: b₃ :: rest => b₃ :: b₂ :: b₁ :: b₀ :: swapGroups rest
  | short => short

theorem swapGroups_swapGroups (bs : List UInt8) : swapGroups (swapGroups bs) = bs := by
  fun_induction swapGroups bs with
  | case1 b₀ b₁ b₂ b₃ rest ih => rw [swapGroups, ih]
  | case2 bs h => rw [swapGroups]; exact h

theorem swapGroups_flatMap_bytes (words : List Word) :
    swapGroups (words.flatMap Word.bytes) = (words.map Word.swapBytes).flatMap Word.bytes := by
  induction words with
  | nil => rfl
  | cons w words ih =>
    rw [List.map_cons, List.flatMap_cons, List.flatMap_cons, Word.bytes_swapBytes, ← ih]
    rfl

/-- `bytes` hold `words`, the magic number first: in the order in which they are if they start with its bytes, and
else in the opposite order -/
def Stored (magic : Word) (bytes : List UInt8) (words : List Word) : Prop :=
  words.head? = some magic ∧ words.flatMap Word.bytes = if bytes.take 4 = magic.bytes then bytes else swapGroups bytes

/-! ## The header and the byte order -/

theorem Header.ofWords?_eq_some_iff {words : Array Word} {h : Header} :
    ofWords? words = some h ↔ ∃ rest, words.toList = h.toList ++ rest := by
  obtain ⟨words⟩ := words
  obtain ⟨magic, version, generator, bound, schema⟩ := h
  match words with
  | [] | [_] | [_, _] | [_, _, _] | [_, _, _, _] => simp [ofWords?, Header.size, toList]
  | w₀ :: w₁ :: w₂ :: w₃ :: w₄ :: rest =>
    have hheader : ofWords? ⟨w₀ :: w₁ :: w₂ :: w₃ :: w₄ :: rest⟩ = some ⟨w₀, w₁, w₂, w₃, w₄⟩ := rfl
    rw [hheader]
    simp [toList]

theorem Header.head?_of_ofWords? {words : Array Word} {h : Header} (hwords : ofWords? words = some h) :
    words.toList.head? = some h.magic := by
  obtain ⟨rest, hrest⟩ := ofWords?_eq_some_iff.mp hwords
  rw [hrest]
  rfl

theorem Header.exists_ofWords? {words : Array Word} (h : size ≤ words.size) : ∃ header, ofWords? words = some header :=
  ⟨_, dif_pos h⟩

theorem ByteOrder.ofFirst?_eq_some_iff {magic first : Word} {order : ByteOrder} :
    ofFirst? magic first = some order ↔
      first = magic ∧ order = .native ∨ first ≠ magic ∧ first.swapBytes = magic ∧ order = .swapped := by
  unfold ofFirst?
  by_cases hnative : first = magic
  · simp [hnative, eq_comm]
  · by_cases hswapped : first.swapBytes = magic
    · simp [hnative, hswapped, eq_comm]
    · simp [hnative, hswapped]

theorem take_four_flatMap_bytes (first : Word) (rest : List Word) :
    ((first :: rest).flatMap Word.bytes).take 4 = first.bytes := by
  rw [List.flatMap_cons]
  exact List.take_left' first.length_bytes

/-- What opening a module does to words in the order that their first one shows. -/
theorem ByteOrder.stored_normalize {magic first : Word} {order : ByteOrder} {words : Array Word}
    (hfirst : words.toList.head? = some first) (h : ofFirst? magic first = some order) :
    Stored magic (words.toList.flatMap Word.bytes) (order.normalize words).toList ∧
      order = if (words.toList.flatMap Word.bytes).take 4 = magic.bytes then .native else .swapped := by
  obtain ⟨rest, hwords⟩ := List.head?_eq_some_iff.mp hfirst
  have htake : (words.toList.flatMap Word.bytes).take 4 = first.bytes := by
    rw [hwords]
    exact take_four_flatMap_bytes first rest
  rcases ofFirst?_eq_some_iff.mp h with ⟨rfl, rfl⟩ | ⟨hne, hswap, rfl⟩
  · refine ⟨⟨hfirst, ?_⟩, ?_⟩
    · rw [if_pos htake]
      rfl
    · rw [if_pos htake]
  · have hne' : (words.toList.flatMap Word.bytes).take 4 ≠ magic.bytes := by
      rw [htake]
      exact fun h => hne (Word.bytes_inj.mp h)
    have hnormalize : (ByteOrder.swapped.normalize words).toList = words.toList.map Word.swapBytes :=
      Array.toList_map
    refine ⟨⟨?_, ?_⟩, ?_⟩
    · rw [hnormalize, List.head?_map, hfirst, Option.map_some, hswap]
    · rw [if_neg hne', hnormalize, swapGroups_flatMap_bytes]
    · rw [if_neg hne']

/-- The words as they are stored, and the order in which they are. -/
theorem Stored.exists_normalize {magic : Word} {bytes : List UInt8} {words : Array Word}
    (h : Stored magic bytes words.toList) :
    ∃ stored first order, bytes = stored.toList.flatMap Word.bytes ∧ stored.toList.head? = some first ∧
      stored.size = words.size ∧ ByteOrder.ofFirst? magic first = some order ∧ order.normalize stored = words := by
  obtain ⟨hhead, hbytes⟩ := h
  obtain ⟨rest, hwords⟩ := List.head?_eq_some_iff.mp hhead
  by_cases hnative : bytes.take 4 = magic.bytes
  · rw [if_pos hnative] at hbytes
    exact ⟨words, magic, .native, hbytes.symm, hhead, rfl, ByteOrder.ofFirst?_eq_some_iff.mpr (.inl ⟨rfl, rfl⟩), rfl⟩
  · rw [if_neg hnative] at hbytes
    have hstored : bytes = (words.toList.map Word.swapBytes).flatMap Word.bytes := by
      calc bytes = swapGroups (swapGroups bytes) := (swapGroups_swapGroups bytes).symm
        _ = swapGroups (words.toList.flatMap Word.bytes) := by rw [hbytes]
        _ = (words.toList.map Word.swapBytes).flatMap Word.bytes := swapGroups_flatMap_bytes words.toList
    -- a magic number that reads the same both ways would have shown the native order
    have hne : magic.swapBytes ≠ magic := by
      intro hsame
      rw [hstored, hwords, List.map_cons, take_four_flatMap_bytes, hsame] at hnative
      exact hnative rfl
    refine ⟨words.map Word.swapBytes, magic.swapBytes, .swapped, ?_, ?_, Array.size_map, ?_, ?_⟩
    · rw [Array.toList_map]
      exact hstored
    · rw [Array.toList_map, List.head?_map, hhead, Option.map_some]
    · exact ByteOrder.ofFirst?_eq_some_iff.mpr (.inr ⟨hne, magic.swapBytes_swapBytes, rfl⟩)
    · have hcomp : Word.swapBytes ∘ Word.swapBytes = id := funext Word.swapBytes_swapBytes
      rw [ByteOrder.normalize, Array.map_map, hcomp, Array.map_id]

/-! ## Main result -/

/-- **Opening a module.** It succeeds when the bytes hold words that start with a header, and the magic number is the
first of them. -/
theorem ModuleReader.ofBytes_eq_ok_iff {g : Grammar} {bytes : List UInt8} {r : ModuleReader} :
    ofBytes g bytes = .ok r ↔ Stored g.magic bytes r.words.toList ∧
      (∃ rest, r.words.toList = r.header.toList ++ rest) ∧ r.position = Header.size ∧
      r.order = if bytes.take 4 = g.magic.bytes then .native else .swapped := by
  refine ⟨?_, ?_⟩
  · intro h
    unfold ofBytes at h
    split at h
    · cases h
    · rename_i stored hbytes
      split at h
      · cases h
      · rename_i storedHeader hstored
        split at h
        · cases h
        · rename_i order horder
          simp only at h
          split at h
          · cases h
          · rename_i header hheader
            obtain rfl := Except.ok.inj h
            obtain rfl := Word.ofByteList?_eq_some_iff.mp hbytes
            obtain ⟨hholds, horder'⟩ := ByteOrder.stored_normalize (Header.head?_of_ofWords? hstored) horder
            exact ⟨hholds, Header.ofWords?_eq_some_iff.mp hheader, rfl, horder'⟩
  · intro h
    obtain ⟨order, header, words, position⟩ := r
    obtain ⟨hholds, hheader, hposition, horder⟩ := h
    simp only at hholds hheader hposition horder
    obtain ⟨stored, first, order', hbytes, hfirst, hsize, hshown, hnormalize⟩ := hholds.exists_normalize
    obtain ⟨-, horder'⟩ := ByteOrder.stored_normalize hfirst hshown
    rw [← hbytes, ← horder] at horder'
    subst horder'
    have hlong : Header.size ≤ stored.size := by
      obtain ⟨rest, hwords⟩ := hheader
      rw [hsize, ← Array.length_toList, hwords, List.length_append]
      exact Nat.le_add_right _ _
    obtain ⟨storedHeader, hstored⟩ := Header.exists_ofWords? hlong
    have hmagic : storedHeader.magic = first :=
      Option.some.inj ((Header.head?_of_ofWords? hstored).symm.trans hfirst)
    rw [ofBytes, Word.ofByteList?_eq_some_iff.mpr hbytes]
    simp only [hstored, hmagic, hshown, hnormalize, Header.ofWords?_eq_some_iff.mpr hheader, hposition]

end Spirv
