import Mathlib.Data.List.Dedup

/-!
# Sets with an order of iteration

A `ListSet` is a list without repeats: a set that can be iterated over. Membership is all that its
operations specify (`mem_insert`, `mem_erase`, `mem_retain`, `mem_extend`); the order is whatever
they leave.
-/

namespace MoonCore

/-- A list without repeats. -/
structure ListSet (α : Type*) where
  toList : List α
  nodup : toList.Nodup

namespace ListSet

variable {α : Type*}

instance : Membership α (ListSet α) := ⟨fun s a => a ∈ s.toList⟩

instance : EmptyCollection (ListSet α) := ⟨⟨[], List.nodup_nil⟩⟩

theorem mem_def {s : ListSet α} {a : α} : a ∈ s ↔ a ∈ s.toList := Iff.rfl

@[simp]
theorem mem_toList {s : ListSet α} {a : α} : a ∈ s.toList ↔ a ∈ s := Iff.rfl

@[simp]
theorem notMem_empty (a : α) : a ∉ (∅ : ListSet α) := List.not_mem_nil

/-- The elements that meet a predicate. -/
def retain (p : α → Bool) (s : ListSet α) : ListSet α := ⟨s.toList.filter p, s.nodup.filter p⟩

@[simp]
theorem mem_retain {p : α → Bool} {s : ListSet α} {a : α} : a ∈ s.retain p ↔ a ∈ s ∧ p a :=
  List.mem_filter

variable [DecidableEq α]

instance decidableMem (a : α) (s : ListSet α) : Decidable (a ∈ s) :=
  inferInstanceAs (Decidable (a ∈ s.toList))

/-- The elements of a list, once each. -/
def ofList (as : List α) : ListSet α := ⟨as.dedup, as.nodup_dedup⟩

/-- With this element, at the front unless it was there. -/
def insert (s : ListSet α) (a : α) : ListSet α := ⟨s.toList.insert a, s.nodup.insert⟩

/-- Without this element. -/
def erase (s : ListSet α) (a : α) : ListSet α := ⟨s.toList.erase a, s.nodup.erase a⟩

/-- The elements of both. -/
def extend (s t : ListSet α) : ListSet α := t.toList.foldl insert s

@[simp]
theorem mem_ofList {as : List α} {a : α} : a ∈ ofList as ↔ a ∈ as := List.mem_dedup

@[simp]
theorem mem_insert {s : ListSet α} {a b : α} : a ∈ s.insert b ↔ a = b ∨ a ∈ s :=
  List.mem_insert_iff

@[simp]
theorem mem_erase {s : ListSet α} {a b : α} : a ∈ s.erase b ↔ a ≠ b ∧ a ∈ s :=
  s.nodup.mem_erase_iff

theorem mem_foldl_insert {as : List α} {s : ListSet α} {a : α} :
    a ∈ as.foldl insert s ↔ a ∈ s ∨ a ∈ as := by
  induction as generalizing s with
  | nil => simp
  | cons b as ih =>
    simp only [List.foldl_cons, ih, mem_insert, List.mem_cons, or_assoc, or_left_comm]

@[simp]
theorem mem_extend {s t : ListSet α} {a : α} : a ∈ s.extend t ↔ a ∈ s ∨ a ∈ t :=
  mem_foldl_insert

end ListSet

end MoonCore
