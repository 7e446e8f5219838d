/-
Words and their bytes. A binary module is a row of 32-bit words; on disk each word is four bytes, and the byte order is
the writer's choice. Here a word is taken apart with its least significant byte first, and `swapBytes` goes to the other
order. Text inside a module is a row of bytes packed into words in the same way and ended by a zero byte.
-/

namespace Spirv

abbrev Word := UInt32

namespace Word

/-- the word with these bytes, least significant first -/
def ofBytes (b₀ b₁ b₂ b₃ : UInt8) : Word :=
  .ofNat (b₀.toNat + 256 * (b₁.toNat + 256 * (b₂.toNat + 256 * b₃.toNat)))

/-- byte `i` of a word, counted from the least significant -/
def byte (w : Word) (i : Nat) : UInt8 := .ofNat (w.toNat / Nat.pow 256 i)

/-- the four bytes of a word, least significant first -/
def bytes (w : Word) : List UInt8 := [byte w 0, byte w 1, byte w 2, byte w 3]

@[simp] theorem length_bytes (w : Word) : (bytes w).length = 4 := rfl

/-- the same bytes in the opposite order -/
def swapBytes (w : Word) : Word :=
  ofBytes (byte w 3) (byte w 2) (byte w 1) (byte w 0)

/-- a packed text ends in the first word of which this holds -/
def hasZeroByte (w : Word) : Bool := (bytes w).any (· == 0)

/-- the words of a row of bytes; nothing when the last word would be incomplete -/
def ofByteList? (bs : List UInt8) : Option (Array Word) := go #[] bs
where
  go (done : Array Word) : List UInt8 → Option (Array Word)
    | [] => some done
    | b₀ :: b₁ :: b₂ :: b₃ :: rest => go (done.push (ofBytes b₀ b₁ b₂ b₃)) rest
    | _ => none

/-- packs bytes and the zero byte that ends them; the last word is filled up with zero bytes -/
def packTerminated : List UInt8 → List Word
  | [] => [ofBytes 0 0 0 0]
  | [b₀] => [ofBytes b₀ 0 0 0]
  | [b₀, b₁] => [ofBytes b₀ b₁ 0 0]
  | [b₀, b₁, b₂] => [ofBytes b₀ b₁ b₂ 0]
  | b₀ :: b₁ :: b₂ :: b₃ :: rest => ofBytes b₀ b₁ b₂ b₃ :: packTerminated rest

/-- the bytes of packed words before the first zero byte -/
def unpackTerminated (ws : List Word) : List UInt8 :=
  (ws.flatMap bytes).takeWhile (· != 0)

/-- the digits of the word's number in base 256 -/
theorem toNat_ofBytes (b₀ b₁ b₂ b₃ : UInt8) : (ofBytes b₀ b₁ b₂ b₃).toNat =
    b₀.toNat + 256 * (b₁.toNat + 256 * (b₂.toNat + 256 * b₃.toNat)) := by
  have := b₀.toNat_lt; have := b₁.toNat_lt; have := b₂.toNat_lt; have := b₃.toNat_lt
  simp only [ofBytes, UInt32.toNat_ofNat']
  omega

theorem bytes_ofBytes (b₀ b₁ b₂ b₃ : UInt8) : bytes (ofBytes b₀ b₁ b₂ b₃) = [b₀, b₁, b₂, b₃] := by
  have := b₀.toNat_lt; have := b₁.toNat_lt; have := b₂.toNat_lt; have := b₃.toNat_lt
  simp only [bytes, byte, Nat.pow_eq, toNat_ofBytes, List.cons.injEq, and_true, ← UInt8.toNat_inj, UInt8.toNat_ofNat']
  refine ⟨?_, ?_, ?_, ?_⟩ <;> omega

theorem ofBytes_bytes (w : Word) : ofBytes (byte w 0) (byte w 1) (byte w 2) (byte w 3) = w := by
  have := w.toNat_lt
  rw [← UInt32.toNat_inj, toNat_ofBytes]
  simp only [byte, Nat.pow_eq, UInt8.toNat_ofNat']
  omega

theorem bytes_swapBytes (w : Word) : bytes (swapBytes w) = (bytes w).reverse :=
  bytes_ofBytes ..

end Word

end Spirv
