/-
Tables keyed by numbers. A table keeps its entries in strictly ascending key order, so one finite map has one table:
`Table.ext_get?` says that two tables which answer every look-up alike are equal, however they were filled.
-/

namespace Spirv

/-- keys that are ordered, and told apart, by a number -/
class Ranked (κ : Type) where
  rank : κ → Nat
  rank_inj : ∀ {a b : κ}, rank a = rank b → a = b

export Ranked (rank)

instance : Ranked UInt16 := ⟨UInt16.toNat, UInt16.toNat_inj.mp⟩

instance : Ranked UInt32 := ⟨UInt32.toNat, UInt32.toNat_inj.mp⟩

/-- a finite map, its entries in ascending key order -/
structure Table (κ α : Type) [Ranked κ] where
  entries : List (κ × α)
  ascending : entries.Pairwise (fun a b => rank a.1 < rank b.1) := by decide

namespace Table

variable {κ α β : Type} [Ranked κ]

instance [Repr κ] [Repr α] : Repr (Table κ α) := ⟨fun t n => reprPrec t.entries n⟩

def empty : Table κ α := ⟨[], .nil⟩

instance : Inhabited (Table κ α) := ⟨empty⟩

def size (t : Table κ α) : Nat := t.entries.length

def keys (t : Table κ α) : List κ := t.entries.map (·.1)

/-! ## Looking up -/

/-- the entry of a key in ascending entries; the search ends at the first larger key -/
def find (k : κ) : List (κ × α) → Option α
  | [] => none
  | (j, v) :: rest => if rank j < rank k then find k rest else if rank j = rank k then some v else none

def get? (t : Table κ α) (k : κ) : Option α := find k t.entries

theorem find_eq_some_iff {k : κ} {v : α} {l : List (κ × α)}
    (hl : l.Pairwise (fun a b => rank a.1 < rank b.1)) : find k l = some v ↔ (k, v) ∈ l := by
  induction l with
  | nil => simp [find]
  | cons e l ih =>
    obtain ⟨j, u⟩ := e
    obtain ⟨hj, hl⟩ := List.pairwise_cons.mp hl
    rw [find, List.mem_cons]
    by_cases hlt : rank j < rank k
    · rw [if_pos hlt, ih hl]
      refine ⟨Or.inr, ?_⟩
      rintro (heq | hmem)
      · obtain ⟨rfl, rfl⟩ := Prod.mk.inj heq
        omega
      · exact hmem
    · rw [if_neg hlt]
      by_cases heq : rank j = rank k
      · have := Ranked.rank_inj heq
        subst this
        rw [if_pos heq]
        constructor
        · rintro h
          exact Or.inl (by rw [Option.some.inj h])
        · rintro (h | hmem)
          · rw [(Prod.mk.inj h).2]
          · exact absurd (hj _ hmem) (by simp)
      · rw [if_neg heq]
        refine ⟨fun h => by simp at h, ?_⟩
        rintro (h | hmem)
        · exact absurd (congrArg rank (Prod.mk.inj h).1).symm heq
        · have := hj _ hmem
          simp only at this
          omega

theorem get?_eq_some_iff {t : Table κ α} {k : κ} {v : α} : t.get? k = some v ↔ (k, v) ∈ t.entries :=
  find_eq_some_iff t.ascending

theorem entries_eq_of_mem_iff {l m : List (κ × α)} (hl : l.Pairwise (fun a b => rank a.1 < rank b.1))
    (hm : m.Pairwise (fun a b => rank a.1 < rank b.1)) (h : ∀ e, e ∈ l ↔ e ∈ m) : l = m := by
  induction l generalizing m with
  | nil =>
    cases m with
    | nil => rfl
    | cons b m => exact absurd ((h b).mpr (by simp)) (by simp)
  | cons a l ih =>
    cases m with
    | nil => exact absurd ((h a).mp (by simp)) (by simp)
    | cons b m =>
      obtain ⟨ha, hl'⟩ := List.pairwise_cons.mp hl
      obtain ⟨hb, hm'⟩ := List.pairwise_cons.mp hm
      have hab : a = b := by
        rcases List.mem_cons.mp ((h a).mp (by simp)) with h₁ | h₁
        · exact h₁
        · rcases List.mem_cons.mp ((h b).mpr (by simp)) with h₂ | h₂
          · exact h₂.symm
          · have := hb a h₁; have := ha b h₂; omega
      subst hab
      refine congrArg (a :: ·) (ih hl' hm' fun e => ⟨fun he => ?_, fun he => ?_⟩)
      · rcases List.mem_cons.mp ((h e).mp (by simp [he])) with h₁ | h₁
        · subst h₁; exact absurd (ha e he) (by simp)
        · exact h₁
      · rcases List.mem_cons.mp ((h e).mpr (by simp [he])) with h₁ | h₁
        · subst h₁; exact absurd (hb e he) (by simp)
        · exact h₁

/-- A table is determined by its look-ups. -/
theorem ext_get? {t u : Table κ α} (h : ∀ k, t.get? k = u.get? k) : t = u := by
  have : t.entries = u.entries := entries_eq_of_mem_iff t.ascending u.ascending fun ⟨k, v⟩ => by
    rw [← get?_eq_some_iff, ← get?_eq_some_iff, h]
  cases t; cases u; simp_all

/-! ## Filling -/

/-- puts an entry in its place, or over the entry of the same key -/
def place (k : κ) (v : α) : List (κ × α) → List (κ × α)
  | [] => [(k, v)]
  | (j, u) :: rest =>
    if rank j < rank k then (j, u) :: place k v rest
    else if rank j = rank k then (k, v) :: rest
    else (k, v) :: (j, u) :: rest

theorem mem_place {k : κ} {v : α} {l : List (κ × α)} {e : κ × α} (h : e ∈ place k v l) :
    e = (k, v) ∨ e ∈ l := by
  induction l with
  | nil => simpa [place] using h
  | cons a l ih =>
    rw [place] at h
    split at h
    · rcases List.mem_cons.mp h with rfl | h
      · simp
      · rcases ih h with h | h <;> simp [h]
    · split at h <;> rcases List.mem_cons.mp h with h | h <;> simp_all

theorem pairwise_place {k : κ} {v : α} {l : List (κ × α)}
    (hl : l.Pairwise (fun a b => rank a.1 < rank b.1)) :
    (place k v l).Pairwise (fun a b => rank a.1 < rank b.1) := by
  induction l with
  | nil => simp [place]
  | cons a l ih =>
    obtain ⟨ha, hl⟩ := List.pairwise_cons.mp hl
    rw [place]
    split
    · refine List.pairwise_cons.mpr ⟨fun e he => ?_, ih hl⟩
      rcases mem_place he with rfl | he
      · assumption
      · exact ha e he
    · split
      · rename_i heq
        exact List.pairwise_cons.mpr ⟨fun e he => by have := ha e he; simp only at *; omega, hl⟩
      · refine List.pairwise_cons.mpr ⟨fun e he => ?_, List.pairwise_cons.mpr ⟨ha, hl⟩⟩
        rcases List.mem_cons.mp he with rfl | he
        · simp only; omega
        · have := ha e he; simp only at *; omega

/-- the table with this entry for the key, instead of any it had -/
def insert (t : Table κ α) (k : κ) (v : α) : Table κ α := ⟨place k v t.entries, pairwise_place t.ascending⟩

theorem find_place {k j : κ} {v : α} {l : List (κ × α)} :
    find j (place k v l) = if rank j = rank k then some v else find j l := by
  induction l with
  | nil => simp only [place, find]; grind
  | cons a l ih =>
    rw [place]
    split <;> (try split) <;> simp only [find, ih] <;> grind

theorem get?_insert (t : Table κ α) (k j : κ) (v : α) :
    (t.insert k v).get? j = if rank j = rank k then some v else t.get? j :=
  find_place

theorem get?_insert_eq [DecidableEq κ] (t : Table κ α) (k j : κ) (v : α) :
    (t.insert k v).get? j = if j = k then some v else t.get? j := by
  rw [get?_insert]
  by_cases h : j = k
  · rw [if_pos h, if_pos (congrArg rank h)]
  · rw [if_neg h, if_neg (mt Ranked.rank_inj h)]

/-- a later entry of the list replaces an earlier one of the same key -/
def ofList (l : List (κ × α)) : Table κ α := l.foldl (fun t e => t.insert e.1 e.2) empty

end Table

end Spirv
