import Mathlib.Algebra.GroupWithZero.Nat
import Mathlib.Data.List.Basic
import Mathlib.Data.List.Nodup
import Mathlib.Data.List.Perm.Basic

/-!
# Deleting a bounded number of matches

`deleteFirst p n l` is `l` without its first `n` elements that meet `p`, and `takeHits p n l` is
what it deletes. The two together are the list (`takeHits_append_deleteFirst_perm`), and a delete
that comes up short has left no match behind (`countP_deleteFirst`).
-/

namespace MoonCore

variable {α : Type*}

/-- A list with an element put in at some place. -/
def insertAt (i : ℕ) (a : α) (l : List α) : List α := l.take i ++ a :: l.drop i

theorem insertAt_perm (i : ℕ) (a : α) (l : List α) : (insertAt i a l).Perm (a :: l) := by
  have h : (insertAt i a l).Perm (a :: (l.take i ++ l.drop i)) := List.perm_middle
  rwa [List.take_append_drop] at h

@[simp]
theorem mem_insertAt {i : ℕ} {a b : α} {l : List α} : b ∈ insertAt i a l ↔ b = a ∨ b ∈ l := by
  rw [(insertAt_perm i a l).mem_iff, List.mem_cons]

@[simp]
theorem length_insertAt (i : ℕ) (a : α) (l : List α) : (insertAt i a l).length = l.length + 1 :=
  (insertAt_perm i a l).length_eq

theorem countP_insertAt (p : α → Bool) (i : ℕ) (a : α) (l : List α) :
    (insertAt i a l).countP p = l.countP p + if p a then 1 else 0 := by
  rw [(insertAt_perm i a l).countP_eq, List.countP_cons]

/-- The first `n` matches. -/
def takeHits (p : α → Bool) (n : ℕ) (l : List α) : List α := (l.filter p).take n

/-- The list without its first `n` matches. -/
def deleteFirst (p : α → Bool) : ℕ → List α → List α
  | _, [] => []
  | n, a :: l =>
    if p a then
      match n with
      | 0 => a :: l
      | n + 1 => deleteFirst p n l
    else a :: deleteFirst p n l

theorem length_takeHits (p : α → Bool) (n : ℕ) (l : List α) :
    (takeHits p n l).length = min n (l.countP p) := by
  rw [takeHits, List.length_take, List.countP_eq_length_filter]

theorem of_mem_takeHits {p : α → Bool} {n : ℕ} {l : List α} {a : α} (h : a ∈ takeHits p n l) :
    p a :=
  (List.mem_filter.mp (List.mem_of_mem_take h)).2

/-- A list is what a bounded delete deletes and what it leaves. -/
theorem takeHits_append_deleteFirst_perm (p : α → Bool) (n : ℕ) (l : List α) :
    (takeHits p n l ++ deleteFirst p n l).Perm l := by
  induction l generalizing n with
  | nil => simp [takeHits, deleteFirst]
  | cons a l ih =>
    by_cases ha : p a
    · cases n with
      | zero => simp [takeHits, deleteFirst, ha]
      | succ n =>
        have hrest := ih n
        simp only [takeHits, deleteFirst, List.filter_cons, ha, if_true, List.take_succ_cons,
          List.cons_append] at hrest ⊢
        exact hrest.cons a
    · have hrest := ih n
      simp only [takeHits, deleteFirst, List.filter_cons, ha, if_false, Bool.false_eq_true]
        at hrest ⊢
      exact List.perm_middle.trans (hrest.cons a)

theorem length_deleteFirst (p : α → Bool) (n : ℕ) (l : List α) :
    (takeHits p n l).length + (deleteFirst p n l).length = l.length := by
  rw [← List.length_append]
  exact (takeHits_append_deleteFirst_perm p n l).length_eq

theorem mem_of_mem_deleteFirst {p : α → Bool} {n : ℕ} {l : List α} {a : α}
    (h : a ∈ deleteFirst p n l) : a ∈ l :=
  (takeHits_append_deleteFirst_perm p n l).subset (List.mem_append_right _ h)

/-- The matches a bounded delete leaves are those it did not get to. -/
theorem countP_deleteFirst (p : α → Bool) (n : ℕ) (l : List α) :
    (deleteFirst p n l).countP p = l.countP p - n := by
  have hall : (takeHits p n l).countP p = (takeHits p n l).length :=
    List.countP_eq_length.mpr fun _ => of_mem_takeHits
  have hsplit := (takeHits_append_deleteFirst_perm p n l).countP_eq p
  rw [List.countP_append, hall, length_takeHits] at hsplit
  omega

/-- A bounded delete leaves what it does not match where it is. -/
theorem filter_deleteFirst {p q : α → Bool} (h : ∀ a, p a → q a = false) (n : ℕ) (l : List α) :
    (deleteFirst p n l).filter q = l.filter q := by
  induction l generalizing n with
  | nil => rfl
  | cons a l ih =>
    by_cases ha : p a
    · cases n with
      | zero => simp [deleteFirst, ha]
      | succ n => simp [deleteFirst, ha, ih, h a ha]
    · simp [deleteFirst, ha, ih, List.filter_cons]

/-- The matches of a list, counted one key at a time. -/
theorem sum_countP_eq {κ : Type*} [DecidableEq κ] (key : α → κ) (l : List α) {ks : List κ}
    (hks : ks.Nodup) {p : α → Bool} (h : ∀ a ∈ l, p a → key a ∈ ks) :
    (ks.map fun k => l.countP fun a => key a = k ∧ p a).sum = l.countP p := by
  induction ks generalizing p with
  | nil =>
    rw [List.map_nil, List.sum_nil, eq_comm, List.countP_eq_zero]
    exact fun a ha hp => absurd (h a ha hp) List.not_mem_nil
  | cons k ks ih =>
    obtain ⟨hk, hks⟩ := List.nodup_cons.mp hks
    -- the matches with another key are counted by the keys that follow
    have hrest : (ks.map fun k' => l.countP fun a => key a = k' ∧ p a).sum =
        l.countP fun a => p a && !decide (key a = k) := by
      rw [← ih hks fun a ha hp => ?_]
      · refine congrArg List.sum (List.map_congr_left fun k' hk' => ?_)
        refine List.countP_congr fun a _ => ?_
        have hne : key a = k' → key a ≠ k := fun heq hkey => hk (hkey ▸ heq ▸ hk')
        simpa using fun heq _ => hne heq
      · simp only [Bool.and_eq_true, Bool.not_eq_eq_eq_not, Bool.not_true, decide_eq_false_iff_not]
          at hp
        exact (List.mem_cons.mp (h a ha hp.1)).resolve_left hp.2
    have hsplit := List.countP_eq_countP_filter_add l p fun a => decide (key a = k)
    rw [List.countP_filter, List.countP_filter] at hsplit
    rw [List.map_cons, List.sum_cons, hrest, hsplit]
    congr 1
    exact List.countP_congr fun a _ => by simp [and_comm]

end MoonCore
