import Mathlib.Data.List.Dedup
import Mathlib.Data.List.Nodup
import Mathlib.Data.List.Perm.Basic

/-!
# Tables with a primary key

A table is a list of rows with a key each, in the order of insertion. `Keyed.insertIgnore` leaves
a row out whose key is taken, `Keyed.upsert` merges it into the one that is there. Neither gives a
key twice, and what either leaves under a key depends on the rows of that key alone: of many that
are inserted the first (`find_foldl_insertIgnore`), or the one that was there, merged
(`find_upsert`). Rows that are determined by their keys can come in any order and as often as they
like (`perm_foldl_insertIgnore`).
-/

namespace MoonCore

namespace Keyed

variable {α κ : Type*} [DecidableEq κ] (key : α → κ)

/-- The row under a key. -/
def find (table : List α) (k : κ) : Option α := table.find? fun row => key row = k

/-- A row whose key is taken is left out. -/
def insertIgnore (table : List α) (row : α) : List α :=
  if (find key table (key row)).isSome then table else table ++ [row]

/-- A row whose key is taken is merged into the stored one. -/
def upsert (merge : α → α → α) (table : List α) (row : α) : List α :=
  if (find key table (key row)).isSome then
    table.map fun stored => if key stored = key row then merge stored row else stored
  else table ++ [row]

variable {key} {table : List α} {row : α} {k : κ}

theorem find_isSome_iff : (find key table k).isSome ↔ ∃ row ∈ table, key row = k := by
  rw [find, List.find?_isSome]
  simp only [decide_eq_true_eq]

theorem mem_of_find (h : find key table k = some row) : row ∈ table ∧ key row = k :=
  ⟨List.mem_of_find?_eq_some h, by simpa using List.find?_some h⟩

/-- Where no key is there twice, a row is the one under its key. -/
theorem find_of_mem (hnodup : (table.map key).Nodup) (hrow : row ∈ table) :
    find key table (key row) = some row := by
  have htaken : ∃ stored ∈ table, key stored = key row := ⟨row, hrow, rfl⟩
  obtain ⟨found, hfound⟩ := Option.isSome_iff_exists.mp (find_isSome_iff.mpr htaken)
  obtain ⟨hmem, hkey⟩ := mem_of_find hfound
  rw [hfound, List.inj_on_of_nodup_map hnodup hmem hrow hkey]

theorem find_append (table rows : List α) (k : κ) :
    find key (table ++ rows) k = (find key table k).or (find key rows k) :=
  List.find?_append

theorem find_singleton (row : α) (k : κ) :
    find key [row] k = if key row = k then some row else none := by
  by_cases h : key row = k <;> simp [find, h]

/-- A filtered table holds what it kept under the keys. -/
theorem find_filter (hnodup : (table.map key).Nodup) (kept : α → Bool) (k : κ) :
    find key (table.filter kept) k = (find key table k).filter kept := by
  have hpart : ((table.filter kept).map key).Nodup := hnodup.sublist (List.filter_sublist.map key)
  cases hfound : find key table k with
  | none =>
    refine Option.not_isSome_iff_eq_none.mp fun htaken => ?_
    obtain ⟨row, hrow, hkey⟩ := find_isSome_iff.mp htaken
    have hold : ∃ row ∈ table, key row = k := ⟨row, (List.mem_filter.mp hrow).1, hkey⟩
    rw [← find_isSome_iff, hfound] at hold
    cases hold
  | some row =>
    obtain ⟨hmem, rfl⟩ := mem_of_find hfound
    by_cases hkept : kept row
    · rw [Option.filter_some_pos hkept]
      exact find_of_mem hpart (List.mem_filter.mpr ⟨hmem, hkept⟩)
    · rw [Option.filter_some_neg (Bool.not_eq_true _ ▸ hkept)]
      refine Option.not_isSome_iff_eq_none.mp fun htaken => ?_
      obtain ⟨other, hother, hkey⟩ := find_isSome_iff.mp htaken
      obtain ⟨hold, hotherKept⟩ := List.mem_filter.mp hother
      exact hkept (List.inj_on_of_nodup_map hnodup hold hmem hkey ▸ hotherKept)

theorem nodup_concat (hnodup : (table.map key).Nodup)
    (hfree : ¬ (find key table (key row)).isSome) : ((table ++ [row]).map key).Nodup := by
  rw [List.map_append, List.map_singleton, ← List.concat_eq_append]
  refine hnodup.concat fun hmem => hfree ?_
  obtain ⟨stored, hstored, hkey⟩ := List.mem_map.mp hmem
  exact find_isSome_iff.mpr ⟨stored, hstored, hkey⟩

/-! ### First come, first served -/

theorem nodup_insertIgnore (hnodup : (table.map key).Nodup) (row : α) :
    ((insertIgnore key table row).map key).Nodup := by
  rw [insertIgnore]
  split_ifs with htaken
  · exact hnodup
  · exact nodup_concat hnodup htaken

theorem find_insertIgnore (table : List α) (row : α) (k : κ) :
    find key (insertIgnore key table row) k =
      (find key table k).or (if key row = k then some row else none) := by
  rw [insertIgnore]
  split_ifs with htaken hkey hkey
  · subst hkey
    obtain ⟨stored, hstored⟩ := Option.isSome_iff_exists.mp htaken
    rw [hstored, Option.some_or]
  · rw [Option.or_none]
  · rw [find_append, find_singleton, if_pos hkey]
  · rw [find_append, find_singleton, if_neg hkey]

/-- The first row of a key stays. -/
theorem find_foldl_insertIgnore (table rows : List α) (k : κ) :
    find key (rows.foldl (insertIgnore key) table) k =
      (find key table k).or (find key rows k) := by
  induction rows generalizing table with
  | nil => simp [find]
  | cons row rows ih =>
    rw [List.foldl_cons, ih, find_insertIgnore, ← find_singleton, Option.or_assoc, ← find_append]
    rfl

theorem nodup_foldl_insertIgnore (hnodup : (table.map key).Nodup) (rows : List α) :
    ((rows.foldl (insertIgnore key) table).map key).Nodup := by
  induction rows generalizing table with
  | nil => exact hnodup
  | cons row rows ih => exact ih (nodup_insertIgnore hnodup row)

/-- Rows determined by their keys are stored once each, in whatever order and however often they
come. -/
theorem perm_foldl_insertIgnore [DecidableEq α] {rows : List α}
    (hnodup : (table.map key).Nodup)
    (hsame : ∀ a ∈ table ++ rows, ∀ b ∈ table ++ rows, key a = key b → a = b) :
    (rows.foldl (insertIgnore key) table).Perm (table ++ rows).dedup := by
  have hkept := nodup_foldl_insertIgnore hnodup rows
  refine (List.perm_ext_iff_of_nodup hkept.of_map (List.nodup_dedup _)).mpr fun row => ?_
  rw [List.mem_dedup]
  have hfind : find key (rows.foldl (insertIgnore key) table) (key row) = _ :=
    find_foldl_insertIgnore table rows (key row)
  rw [← find_append] at hfind
  constructor
  · intro hrow
    rw [find_of_mem hkept hrow] at hfind
    exact (mem_of_find hfind.symm).1
  · intro hrow
    have htaken : ∃ stored ∈ table ++ rows, key stored = key row := ⟨row, hrow, rfl⟩
    obtain ⟨found, hfound⟩ := Option.isSome_iff_exists.mp (find_isSome_iff.mpr htaken)
    obtain ⟨hmem, hkey⟩ := mem_of_find hfound
    obtain rfl := hsame found hmem row hrow hkey
    exact (mem_of_find (hfind.trans hfound)).1

/-! ### The last word -/

variable {merge : α → α → α}

theorem find_map (hmerge : ∀ stored row, key (merge stored row) = key stored) (table : List α)
    (row : α) (k : κ) :
    find key (table.map fun stored => if key stored = key row then merge stored row else stored) k =
      (find key table k).map fun stored =>
        if key stored = key row then merge stored row else stored := by
  rw [find, List.find?_map, find]
  congr 2
  funext stored
  by_cases h : key stored = key row <;> simp [h, hmerge]

/-- An upsert is about the row under its key. -/
theorem find_upsert (hmerge : ∀ stored row, key (merge stored row) = key stored) (table : List α)
    (row : α) (k : κ) :
    find key (upsert key merge table row) k =
      if key row = k then some (((find key table k).map (merge · row)).getD row)
      else find key table k := by
  rw [upsert]
  split_ifs with htaken hkey hkey
  · subst hkey
    obtain ⟨stored, hstored⟩ := Option.isSome_iff_exists.mp htaken
    rw [find_map hmerge, hstored]
    simp [(mem_of_find hstored).2]
  · rw [find_map hmerge]
    cases hstored : find key table k with
    | none => rfl
    | some stored => simp [(mem_of_find hstored).2, Ne.symm hkey]
  · subst hkey
    rw [Option.not_isSome_iff_eq_none] at htaken
    rw [find_append, find_singleton, htaken]
    simp
  · rw [find_append, find_singleton, if_neg hkey, Option.or_none]

theorem nodup_upsert (hmerge : ∀ stored row, key (merge stored row) = key stored)
    (hnodup : (table.map key).Nodup) (row : α) :
    ((upsert key merge table row).map key).Nodup := by
  rw [upsert]
  split_ifs with htaken
  · rw [List.map_map]
    have hkeys : (key ∘ fun stored => if key stored = key row then merge stored row else stored) =
        key := by
      funext stored
      by_cases h : key stored = key row <;> simp [h, hmerge]
    rwa [hkeys]
  · exact nodup_concat hnodup htaken

end Keyed

end MoonCore
