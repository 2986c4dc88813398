import Mathlib.Data.List.AList

/-!
# Dropping entries of a map

`AList.retain` keeps the entries of a map that meet a predicate, and `AList.lookup_retain` says
what that does to a key.
-/

namespace AList

variable {α : Type*} {β : α → Type*}

/-- The entries that meet a predicate. -/
def retain (p : (a : α) → β a → Bool) (s : AList β) : AList β :=
  ⟨s.entries.filter fun entry => p entry.1 entry.2, s.nodupKeys.sublist List.filter_sublist⟩

theorem lookup_retain [DecidableEq α] (p : (a : α) → β a → Bool) (s : AList β) (a : α) :
    (s.retain p).lookup a = (s.lookup a).filter (p a) := by
  refine Option.ext fun b => ?_
  rw [← Option.mem_def, mem_lookup_iff, retain, List.mem_filter, ← mem_lookup_iff, Option.mem_def,
    Option.filter_eq_some_iff]

end AList
