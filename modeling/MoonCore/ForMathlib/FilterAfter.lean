import Mathlib.Data.List.TakeDrop

/-!
# Filtering by what came before

`filterAfter keep l` keeps the elements that meet a condition on the elements before them: the
first occurrences, the records, the elements that do not fall behind. It is defined without a
state, and `filterAfter_concat` follows it through one more element.

Nothing here is about a particular program.
-/

namespace MoonCore

variable {α : Type*} (keep : List α → α → Bool)

/-- The elements that meet the condition on the elements before them. -/
def filterAfter (l : List α) : List α :=
  (l.zipIdx.filter fun a => keep (l.take a.2) a.1).map Prod.fst

@[simp]
theorem filterAfter_nil : filterAfter keep [] = [] := rfl

theorem filterAfter_concat (l : List α) (a : α) :
    filterAfter keep (l ++ [a]) = filterAfter keep l ++ if keep l a then [a] else [] := by
  have hlast : ([(a, l.length)].filter fun x => keep ((l ++ [a]).take x.2) x.1).map Prod.fst =
      if keep l a then [a] else [] := by
    simp only [List.filter_cons, List.filter_nil, List.take_left']
    split_ifs <;> rfl
  have hinit : (l.zipIdx.filter fun x => keep ((l ++ [a]).take x.2) x.1) =
      l.zipIdx.filter fun x => keep (l.take x.2) x.1 := by
    refine List.filter_congr fun x hx => ?_
    have hlt : x.2 < l.length := by
      obtain ⟨-, hlt, -⟩ := List.mem_zipIdx hx
      omega
    rw [List.take_append_of_le_length (Nat.le_of_lt hlt)]
  have hzip : (l ++ [a]).zipIdx = l.zipIdx ++ [(a, l.length)] := by
    rw [List.zipIdx_append, Nat.zero_add, List.zipIdx_singleton]
  rw [filterAfter, hzip, List.filter_append, List.map_append, hlast, hinit, filterAfter]

variable {keep}

theorem mem_of_mem_filterAfter {l : List α} {a : α} (h : a ∈ filterAfter keep l) : a ∈ l := by
  obtain ⟨x, hx, rfl⟩ := List.mem_map.mp h
  obtain ⟨-, -, heq⟩ := List.mem_zipIdx (List.mem_filter.mp hx).1
  rw [heq]
  exact List.getElem_mem _

end MoonCore
