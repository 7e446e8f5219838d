/-
The bits of a mask and what they ask for. A mask table has room for one definition per bit of a word: a name, and the
parameters that follow the mask word when the bit is set. `implied` gathers the parameters of a word's set bits, lowest
bit first; bits without a definition are allowed and ask for nothing.
-/
import Spirv.Bits

namespace Spirv

structure BitDef (α : Type) where
  name : String
  params : List α
deriving DecidableEq, Repr

structure MaskTable (α : Type) where
  /-- what the word without set bits is called -/
  emptyName : String
  bits : Vector (Option (BitDef α)) 32
deriving DecidableEq, Repr

namespace MaskTable

variable {α : Type}

/-- the table in which no bit is defined -/
def empty (emptyName : String) : MaskTable α := ⟨emptyName, Vector.replicate 32 none⟩

instance : Inhabited (MaskTable α) := ⟨empty ""⟩

def bit? (t : MaskTable α) (i : BitIndex) : Option (BitDef α) := t.bits[i]

/-- defines a bit, in place of any definition it had -/
def define (t : MaskTable α) (i : BitIndex) (d : BitDef α) : MaskTable α :=
  { t with bits := t.bits.set i (some d) }

/-- defines a bit and hands back the definition that it had -/
def redefine (t : MaskTable α) (i : BitIndex) (d : BitDef α) : Option (BitDef α) × MaskTable α :=
  (t.bit? i, t.define i d)

/-- the parameters of the set bits of a word -/
def implied (t : MaskTable α) (w : Word) : List α :=
  (w.setBits.filterMap t.bit?).flatMap (·.params)

/-- the names of the set bits of a word -/
def named (t : MaskTable α) (w : Word) : List String :=
  (w.setBits.filterMap t.bit?).map (·.name)

/-- the set bits of a word that have no name, as a word -/
def unnamed (t : MaskTable α) (w : Word) : Word :=
  (w.setBits.filter fun i => (t.bit? i).isNone).foldl (fun u i => u ||| i.toMask) 0

/-- the defined bits, ascending -/
def defined (t : MaskTable α) : List (BitIndex × BitDef α) :=
  (List.finRange 32).filterMap fun i => (t.bit? i).map (i, ·)

/-- the table with these definitions, later ones replacing earlier ones of the same bit -/
def ofList (emptyName : String) (l : List (BitIndex × BitDef α)) : MaskTable α :=
  l.foldl (fun t e => t.define e.1 e.2) (empty emptyName)

@[simp] theorem bit?_empty (s : String) (i : BitIndex) : (empty s : MaskTable α).bit? i = none := by
  simp [bit?, empty]

theorem bit?_define (t : MaskTable α) (i j : BitIndex) (d : BitDef α) :
    (t.define i d).bit? j = if i = j then some d else t.bit? j := by
  simp [bit?, define, Vector.getElem_set, Fin.ext_iff]

theorem mem_defined_iff {t : MaskTable α} {i : BitIndex} {known : BitDef α} :
    (i, known) ∈ t.defined ↔ t.bit? i = some known := by
  rw [defined, List.mem_filterMap]
  constructor
  · rintro ⟨j, -, h⟩
    obtain ⟨d, hd, heq⟩ := Option.map_eq_some_iff.mp h
    obtain ⟨rfl, rfl⟩ := Prod.mk.inj heq
    exact hd
  · intro h
    exact ⟨i, List.mem_finRange i, by rw [h]; rfl⟩

/-- What a word asks for is a parameter of a bit. -/
theorem exists_param_of_mem_implied {t : MaskTable α} {w : Word} {a : α} (h : a ∈ t.implied w) :
    ∃ bit ∈ t.defined, a ∈ bit.2.params := by
  obtain ⟨known, hknown, hparam⟩ := List.mem_flatMap.mp h
  obtain ⟨i, -, hi⟩ := List.mem_filterMap.mp hknown
  exact ⟨(i, known), mem_defined_iff.mpr hi, hparam⟩

end MaskTable

end Spirv
