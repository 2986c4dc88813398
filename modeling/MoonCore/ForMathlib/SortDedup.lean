import Mathlib.Data.List.Destutter
import Mathlib.Order.Lattice

/-!
# Sorting by a key and keeping the first of each

A list is sorted by a key with a stable sort, and of neighbours with the same key the first is kept.
What is left is strictly sorted (`sorted_destutter_mergeSort`), and holds the first element of each
key: what is found under a key is what was found under it in the original
(`find?_destutter_mergeSort`).
-/

namespace MoonCore

variable {α κ : Type*} [LinearOrder κ] (f : α → κ)

private theorem key_trans (a b c : α) (hab : decide (f a ≤ f b) = true)
    (hbc : decide (f b ≤ f c) = true) : decide (f a ≤ f c) = true := by
  rw [decide_eq_true_eq] at hab hbc ⊢
  exact hab.trans hbc

private theorem key_total (a b : α) : (decide (f a ≤ f b) || decide (f b ≤ f a)) = true := by
  rw [Bool.or_eq_true, decide_eq_true_eq, decide_eq_true_eq]
  exact le_total _ _

/-- Sorted by the key, and strictly so once neighbours with the same key are gone. -/
theorem sorted_destutter_mergeSort (l : List α) :
    (((l.mergeSort fun a b => f a ≤ f b).destutter fun a b => f a ≠ f b).map f).Pairwise
      (· < ·) := by
  have hle : (l.mergeSort fun a b => f a ≤ f b).Pairwise fun a b => f a ≤ f b :=
    (List.pairwise_mergeSort (key_trans f) (key_total f) l).imp of_decide_eq_true
  have hsorted := hle.sublist (List.destutter_sublist (fun a b => f a ≠ f b) _)
  have hchain := List.isChain_destutter (fun a b => f a ≠ f b) (l.mergeSort fun a b => f a ≤ f b)
  have hstrict : (((l.mergeSort fun a b => f a ≤ f b).destutter fun a b => f a ≠ f b).map
      f).IsChain (· < ·) := by
    rw [List.isChain_map, List.isChain_iff_getElem]
    intro i hi
    have hne := List.isChain_iff_getElem.mp hchain i hi
    exact lt_of_le_of_ne (List.pairwise_iff_getElem.mp hsorted i (i + 1) _ _ (by omega)) hne
  exact hstrict.pairwise

/-- **Stability.** The elements of one key stay in their order. -/
theorem filter_mergeSort (l : List α) (k : κ) :
    (l.mergeSort fun a b => f a ≤ f b).filter (f · = k) = l.filter (f · = k) := by
  have hkey : (l.filter (f · = k)).Pairwise fun a b => decide (f a ≤ f b) = true := by
    refine List.pairwise_of_forall_mem_list fun a ha b hb => ?_
    rw [List.mem_filter, decide_eq_true_eq] at ha hb
    rw [decide_eq_true_eq, ha.2, hb.2]
  have hsublist : (l.filter (f · = k)).Sublist (l.mergeSort fun a b => f a ≤ f b) :=
    List.sublist_mergeSort (key_trans f) (key_total f) hkey List.filter_sublist
  have hle := hsublist.filter (f · = k)
  simp only [List.filter_filter, Bool.and_self] at hle
  refine (hle.eq_of_length ?_).symm
  exact ((List.mergeSort_perm l _).filter _).length_eq.symm

/-- Dropping neighbours of the same key drops no first element. -/
theorem find?_destutter' (a : α) (l : List α) (k : κ) :
    (l.destutter' (fun a b => f a ≠ f b) a).find? (f · = k) = (a :: l).find? (f · = k) := by
  induction l generalizing a with
  | nil => rfl
  | cons b l ih =>
    rw [List.destutter'_cons]
    split_ifs with hab
    · simp only [List.find?_cons, ih]
    · -- `b` is dropped: it is behind `a`, and has the key of `a`
      rw [not_not] at hab
      rw [ih, List.find?_cons, List.find?_cons, List.find?_cons, ← hab]
      split <;> rfl

/-- **The first of each key.** -/
theorem find?_destutter_mergeSort (l : List α) (k : κ) :
    ((l.mergeSort fun a b => f a ≤ f b).destutter fun a b => f a ≠ f b).find? (f · = k) =
      l.find? (f · = k) := by
  have hdedup : ∀ s : List α,
      (s.destutter fun a b => f a ≠ f b).find? (f · = k) = s.find? (f · = k) := by
    intro s
    cases s with
    | nil => rfl
    | cons a s => exact find?_destutter' f a s k
  rw [hdedup, ← List.head?_filter, ← List.head?_filter, filter_mergeSort]

/-- On a list that is strictly sorted by the key, what is found under a key is the element that has
it. -/
theorem find?_key_eq_some_iff {l : List α} (hl : (l.map f).Pairwise (· < ·)) {k : κ} {a : α} :
    l.find? (f · = k) = some a ↔ a ∈ l ∧ f a = k := by
  constructor
  · intro hfound
    exact ⟨List.mem_of_find?_eq_some hfound, by simpa using List.find?_some hfound⟩
  · rintro ⟨ha, rfl⟩
    induction l with
    | nil => cases ha
    | cons b l ih =>
      rw [List.map_cons, List.pairwise_cons] at hl
      rcases List.mem_cons.mp ha with rfl | ha
      · exact List.find?_cons_of_pos (by simp)
      · have hlt : f b < f a := hl.1 _ (List.mem_map_of_mem ha)
        rw [List.find?_cons_of_neg (by simpa using hlt.ne), ih hl.2 ha]

end MoonCore
