/-
The five words at the start of a module. The first is the magic number, which also shows the byte order of a stored
module: if only its swapped form is the expected one, all words are swapped.
-/
import Spirv.Word

namespace Spirv

structure Header where
  magic : Word
  version : Word
  generator : Word
  /-- all IDs of the module are below it -/
  bound : Word
  schema : Word
deriving DecidableEq, Repr

namespace Header

def size : Nat := 5

def toList (h : Header) : List Word := [h.magic, h.version, h.generator, h.bound, h.schema]

/-- the header at the start of the words; nothing when there are fewer than five -/
def ofWords? (words : Array Word) : Option Header :=
  if h : size ≤ words.size then
    have h : 5 ≤ words.size := h
    some ⟨words[0], words[1], words[2], words[3], words[4]⟩
  else none

end Header

inductive ByteOrder where
  | native | swapped
deriving DecidableEq, Repr

/-- the byte order in which a first word shows the magic number -/
def ByteOrder.ofFirst? (magic first : Word) : Option ByteOrder :=
  if first = magic then some .native
  else if first.swapBytes = magic then some .swapped
  else none

/-- words that were stored in this order, in native order -/
def ByteOrder.normalize (order : ByteOrder) (words : Array Word) : Array Word :=
  match order with
  | .native => words
  | .swapped => words.map Word.swapBytes

end Spirv
