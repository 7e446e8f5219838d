/-
Writing modules. A push either appends the encoding of its instruction or refuses the instruction and leaves the writer
alone, and an instruction is refused only when it has no encoding. So after any pushes the words written are the header
and the encodings of the instructions that were accepted (`Session.Holds`), and these are words that a reader takes for
just these instructions. The other way round, what a reader takes from a module are the instructions that its words
encode, so that writing them again gives the words as far as they were read.

- `pushInstruction_of_encodesTo`, `pushInstruction_of_no_encoding`: all that a push can do.
- `Session.holds_run`: what any pushes preserve.
- `Session.run_of_encodeTo`: instructions that words encode are all accepted.
- `Session.Holds.read_back`: what a reader finds.

Main results:
- `read_back_accepted`: what a writer accepted is what a reader finds.
- `rewrite_preserves`: a module that is read and written again is the same, or the part of it that could be read.
-/
import Spirv.Module.Writer
import Spirv.Proofs.ModuleReading

namespace Spirv

namespace ModuleWriter

variable {g : Grammar} {i : Instruction} {is : List Instruction} {words : List Word} {h : Header}

/-! ## One push -/

theorem pushInstruction_of_encodesTo (hencode : i.EncodesTo g.expand g.table words) (m : ModuleWriter) :
    m.pushInstruction g i = (none, m.append words.toArray) := by
  obtain ⟨l, hl, hwords⟩ := hencode
  have hlayout : g.layout i.opcode = .ok l := hl
  rw [pushInstruction, hlayout]
  simp only [push, hwords]
  rfl

/-- A refused instruction leaves no trace. -/
theorem pushInstruction_of_no_encoding (hnone : ∀ words, ¬i.EncodesTo g.expand g.table words) (m : ModuleWriter) :
    ∃ fault, m.pushInstruction g i = (some fault, m) := by
  rw [pushInstruction]
  rcases hlayout : g.layout i.opcode with e | l
  · exact ⟨.layout e, rfl⟩
  · simp only [push]
    rcases hencode : l.encode g.expand i.operands with e | out
    · exact ⟨.encode e, rfl⟩
    · exact absurd ⟨l, hlayout, hencode⟩ (hnone out.toList)

theorem eq_of_pushInstruction_fault {m m' : ModuleWriter} {fault : PushError}
    (hpush : m.pushInstruction g i = (some fault, m')) : m' = m := by
  by_cases hencode : ∃ words, i.EncodesTo g.expand g.table words
  · obtain ⟨words, hencode⟩ := hencode
    rw [pushInstruction_of_encodesTo hencode] at hpush
    cases hpush
  · obtain ⟨fault', hfault⟩ := pushInstruction_of_no_encoding (not_exists.mp hencode) m
    rw [hfault] at hpush
    exact (Prod.mk.inj hpush).2.symm

/-! ## Any pushes -/

/-- a writer in use, and the instructions that it has accepted so far -/
structure Session where
  writer : ModuleWriter
  accepted : List Instruction

namespace Session

def start (h : Header) : Session := ⟨ofHeader h, []⟩

/-- one more push; an instruction is accepted when the push answers no fault -/
def push (g : Grammar) (s : Session) (i : Instruction) : Session :=
  match s.writer.pushInstruction g i with
  | (none, m) => ⟨m, s.accepted ++ [i]⟩
  | (some _, m) => ⟨m, s.accepted⟩

/-- pushes these instructions, one after the other, behind a header -/
def run (g : Grammar) (h : Header) (is : List Instruction) : Session := is.foldl (push g) (start h)

theorem push_of_encodesTo (hencode : i.EncodesTo g.expand g.table words) (s : Session) :
    s.push g i = ⟨s.writer.append words.toArray, s.accepted ++ [i]⟩ := by
  rw [push, pushInstruction_of_encodesTo hencode]

theorem push_of_no_encoding (hnone : ∀ words, ¬i.EncodesTo g.expand g.table words) (s : Session) : s.push g i = s := by
  obtain ⟨fault, hfault⟩ := pushInstruction_of_no_encoding hnone s.writer
  rw [push, hfault]

/-- The words written are the header and the encodings of the accepted instructions. -/
def Holds (g : Grammar) (h : Header) (s : Session) : Prop :=
  ∃ words, EncodeTo g.expand g.table s.accepted words ∧ s.writer.words.toList = h.toList ++ words

theorem holds_start (g : Grammar) (h : Header) : (start h).Holds g h := ⟨[], .nil, (List.append_nil _).symm⟩

theorem Holds.push {s : Session} (hs : s.Holds g h) (i : Instruction) : (s.push g i).Holds g h := by
  by_cases hencode : ∃ words, i.EncodesTo g.expand g.table words
  · obtain ⟨last, hlast⟩ := hencode
    obtain ⟨words, hwords, hwritten⟩ := hs
    rw [push_of_encodesTo hlast]
    refine ⟨words ++ last, hwords.concat hlast, ?_⟩
    rw [append, Array.toList_append, hwritten, List.append_assoc]
  · rw [push_of_no_encoding (not_exists.mp hencode)]
    exact hs

theorem holds_foldl {s : Session} (hs : s.Holds g h) (is : List Instruction) : (is.foldl (push g) s).Holds g h := by
  induction is generalizing s with
  | nil => exact hs
  | cons i is ih => exact ih (hs.push i)

theorem holds_run (g : Grammar) (h : Header) (is : List Instruction) : (run g h is).Holds g h :=
  holds_foldl (holds_start g h) is

theorem foldl_of_encodeTo (hencode : EncodeTo g.expand g.table is words) (s : Session) :
    is.foldl (push g) s = ⟨s.writer.append words.toArray, s.accepted ++ is⟩ := by
  induction hencode generalizing s with
  | nil => simp [append]
  | cons hfirst _ ih =>
    rw [List.foldl_cons, push_of_encodesTo hfirst, ih]
    simp [append]

theorem run_of_encodeTo (hencode : EncodeTo g.expand g.table is words) (h : Header) :
    run g h is = ⟨(ofHeader h).append words.toArray, is⟩ := foldl_of_encodeTo hencode (start h)

/-! ## Reading back -/

/-- A reader finds the header, and behind it the accepted instructions and nothing else. -/
theorem Holds.read_back {s : Session} (hs : s.Holds g h) (hmagic : h.magic = g.magic) :
    ∃ r, ModuleReader.ofBytes g s.writer.toBytes = .ok r ∧ r.header = h ∧ (r.items g).toList = s.accepted.map .ok := by
  obtain ⟨words, hwords, hwritten⟩ := hs
  have htake : s.writer.toBytes.take 4 = g.magic.bytes := by
    rw [toBytes, hwritten, ← hmagic]
    exact take_four_flatMap_bytes h.magic _
  have hholds : Stored g.magic s.writer.toBytes s.writer.words.toList := by
    refine ⟨?_, ?_⟩
    · rw [hwritten, ← hmagic]
      rfl
    · rw [if_pos htake]
      rfl
  have hopen : ModuleReader.ofBytes g s.writer.toBytes = .ok ⟨.native, h, s.writer.words, Header.size⟩ :=
    ModuleReader.ofBytes_eq_ok_iff.mpr ⟨hholds, ⟨words, hwritten⟩, rfl, (if_pos htake).symm⟩
  refine ⟨_, hopen, rfl, ?_⟩
  rw [(ModuleReader.tracks_of_ofBytes hopen).items_eq_outcomes, hwritten]
  exact InstructionStream.outcomes_of_encodeTo _ hwords 0

/-- **What a writer accepted is what a reader finds.** After any pushes behind a header with the magic number, the next
push leaves the writer as it is when it answers a fault. The bytes written so far can be opened, and hold the header and,
up to the end and without a failure, the accepted instructions. -/
theorem read_back_accepted (hmagic : h.magic = g.magic) (is : List Instruction) :
    let s := run g h is
    (∀ i fault m, s.writer.pushInstruction g i = (some fault, m) → m = s.writer) ∧
      ∃ r, ModuleReader.ofBytes g s.writer.toBytes = .ok r ∧ r.header = h ∧
        (r.items g).toList = s.accepted.map .ok :=
  ⟨fun _ _ _ => eq_of_pushInstruction_fault, (holds_run g h is).read_back hmagic⟩

/-- three pushes, of which the second is refused, as its opcode is unknown -/
theorem read_back_accepted_sample :
    let h : Header := ⟨0x07230203, 0x10600, 0, 8, 0⟩
    let store : Instruction := ⟨62, [⟨Kind.type (.id .reference), [1]⟩, ⟨Kind.type (.id .reference), [2]⟩]⟩
    let s := run Grammar.core h [⟨0, []⟩, ⟨0xfff0, []⟩, store]
    h.magic = Grammar.core.magic ∧ s.accepted = [⟨0, []⟩, store] ∧
      ∃ r, ModuleReader.ofBytes Grammar.core s.writer.toBytes = .ok r ∧ r.header = h ∧
        (r.items Grammar.core).toList = [.ok ⟨0, []⟩, .ok store] := by
  intro h store s
  have hmagic : h.magic = Grammar.core.magic := rfl
  have haccepted : s.accepted = [⟨0, []⟩, store] := by with_unfolding_all rfl
  obtain ⟨-, r, hopen, hheader, hitems⟩ := read_back_accepted hmagic [⟨0, []⟩, ⟨0xfff0, []⟩, store]
  refine ⟨hmagic, haccepted, r, hopen, hheader, hitems.trans ?_⟩
  exact congrArg (List.map Except.ok) haccepted

/-! ## Writing what was read -/

theorem filterMap_toOption_map_ok {ε α : Type} (l : List α) :
    (l.map (Except.ok : α → Except ε α)).filterMap Except.toOption = l := by
  rw [List.filterMap_map]
  exact List.filterMap_some

/-- **A module that is read and written again is preserved.** Every instruction that the reader gives is accepted. When
there is no failure the words written are those of the module, and the bytes are the ones that were read, or have the
bytes of each word in the opposite order if the module was stored so. After a failure they are the words in front of its
place. -/
theorem rewrite_preserves {bytes : List UInt8} {r : ModuleReader} (hopen : ModuleReader.ofBytes g bytes = .ok r) :
    let items := (r.items g).toList
    let is := items.filterMap Except.toOption
    let s := run g r.header is
    Stored g.magic bytes r.words.toList ∧ s.accepted = is ∧
      ((∀ e, .error e ∉ items) → s.writer.words = r.words ∧
        s.writer.toBytes = if bytes.take 4 = g.magic.bytes then bytes else swapGroups bytes) ∧
      ∀ e, .error e ∈ items → ∃ offset source, e = .malformed offset source ∧
        s.writer.words.toList = r.words.toList.take offset := by
  intro items is s
  obtain ⟨js, front, back, hwords, hencode, hend⟩ := ModuleReader.exists_encodeTo_items hopen
  have hholds : Stored g.magic bytes r.words.toList := (ModuleReader.ofBytes_eq_ok_iff.mp hopen).1
  have his : is = js := by
    rcases hend with ⟨-, hitems⟩ | ⟨e, hitems⟩
    · rw [← filterMap_toOption_map_ok js, ← hitems]
    · simp only [is, items, hitems, List.filterMap_append, filterMap_toOption_map_ok]
      exact List.append_nil js
  have hs : s = ⟨(ofHeader r.header).append front.toArray, is⟩ := run_of_encodeTo (his ▸ hencode) r.header
  have hwritten : s.writer.words.toList = r.header.toList ++ front := by
    rw [hs, append, Array.toList_append]
    rfl
  refine ⟨hholds, congrArg Session.accepted hs, ?_, ?_⟩
  · intro hok
    rcases hend with ⟨rfl, -⟩ | ⟨e, hitems⟩
    · have hsame : s.writer.words = r.words := by
        rw [← Array.toList_inj, hwritten, hwords, List.append_nil]
      refine ⟨hsame, ?_⟩
      rw [toBytes, hsame]
      exact hholds.2
    · exact absurd (by simp [items, hitems]) (hok (.malformed (Header.size + front.length) e))
  · intro e he
    rcases hend with ⟨-, hitems⟩ | ⟨f, hitems⟩
    · simp [items, hitems] at he
    · have hlast : e = .malformed (Header.size + front.length) f := by simpa [items, hitems] using he
      refine ⟨_, _, hlast, ?_⟩
      have hsize : Header.size + front.length = (r.header.toList ++ front).length := by
        rw [List.length_append]
        rfl
      rw [hwritten, hwords, ← List.append_assoc, hsize, List.take_left]

/-- a module with a failure behind two instructions, in the opposite byte order -/
theorem rewrite_preserves_sample :
    let items := (Sample.moduleReader.items Grammar.core).toList
    let s := run Grammar.core Sample.moduleReader.header (items.filterMap Except.toOption)
    ModuleReader.ofBytes Grammar.core Sample.moduleBytes = .ok Sample.moduleReader ∧
      .error (.malformed 9 (.layout (.unknownOpcode 0xfff0))) ∈ items ∧ s.accepted.length = 2 ∧
      s.writer.words.toList = Sample.moduleWords.take 9 := by
  intro items s
  have hitems : items = [.ok ⟨0, []⟩, .ok ⟨62, [⟨Kind.type (.id .reference), [1]⟩, ⟨Kind.type (.id .reference), [2]⟩]⟩,
      .error (.malformed 9 (.layout (.unknownOpcode 0xfff0)))] := by with_unfolding_all rfl
  have hmem : .error (.malformed 9 (.layout (.unknownOpcode 0xfff0))) ∈ items := by simp [hitems]
  obtain ⟨-, haccepted, -, hfailed⟩ := rewrite_preserves Sample.ofBytes_moduleBytes
  refine ⟨Sample.ofBytes_moduleBytes, hmem, ?_, ?_⟩
  · rw [haccepted]
    exact congrArg (fun l => (l.filterMap Except.toOption).length) hitems
  · obtain ⟨offset, source, heq, hwords⟩ := hfailed _ hmem
    obtain ⟨rfl, -⟩ := ModuleError.malformed.inj heq
    exact hwords

end Session

end ModuleWriter

end Spirv
