import Mathlib.Data.List.DropRight
import Mathlib.Data.List.Forall2

/-!
# Bounded histories

`pushBounded c l x` appends `x` and then drops from the front until at most `c` elements are
left, which is how every bounded history of the program is kept. The last `n` elements of a
list are Mathlib's `List.rtake`; the lemmas here say how the two compose, above all that a
window of a longer bounded history is the bounded history of the window
(`rtake_pushBounded`), when shifting one entry in and another out changes nothing
(`rtake_concat_eq_self_iff`), and that two histories related entry by entry stay so.
-/

namespace MoonCore

variable {α : Type*} {m n c : ℕ}

/-- Append an element, then drop from the front while there are more than `c`. -/
def pushBounded (c : ℕ) (l : List α) (x : α) : List α := (l ++ [x]).rtake c

theorem rtake_rtake {l : List α} (h : m ≤ n) : (l.rtake n).rtake m = l.rtake m := by
  rw [List.rtake_eq_reverse_take_reverse, List.rtake_eq_reverse_take_reverse,
    List.rtake_eq_reverse_take_reverse, List.reverse_reverse, List.take_take, Nat.min_eq_left h]

/-- The last elements of a list that ends in a short one. -/
theorem rtake_append {as bs : List α} (h : bs.length ≤ n) :
    (as ++ bs).rtake n = as.rtake (n - bs.length) ++ bs := by
  have hlen : as.length + bs.length - n ≤ as.length := by omega
  rw [List.rtake, List.length_append, List.drop_append_of_le_length hlen, List.rtake]
  congr 2
  omega

/-- A list that is one longer than the copies of `a` it is shifted into. -/
theorem eq_replicate_of_concat_eq_cons {l : List α} {a x : α} (h : l ++ [a] = x :: l) :
    l = List.replicate l.length a ∧ x = a := by
  induction l generalizing x with
  | nil => exact ⟨rfl, (List.singleton_inj.mp h).symm⟩
  | cons y l ih =>
    obtain ⟨rfl, hrest⟩ := List.cons.inj h
    obtain ⟨hl, hy⟩ := ih hrest
    refine ⟨?_, hy⟩
    rw [List.length_cons, List.replicate_succ, ← hl, hy]

/-- An element pushed out of a list and another pushed in leave it as it was only where it is
full of copies of the latter. -/
theorem rtake_concat_eq_self_iff {l : List α} {a : α} :
    (l ++ [a]).rtake n = l ↔ l.length = n ∧ ∀ x ∈ l, x = a := by
  constructor
  · intro h
    have hlen := congrArg List.length h
    rw [List.rtake, List.length_drop, List.length_append, List.length_singleton] at hlen
    have hfull : l.length = n := by omega
    refine ⟨hfull, ?_⟩
    rw [List.rtake, List.length_append, List.length_singleton, ← hfull,
      Nat.add_sub_cancel_left] at h
    rcases l with - | ⟨x, xs⟩
    · simp
    · have hshift : xs ++ [a] = x :: xs := h
      obtain ⟨hxs, rfl⟩ := eq_replicate_of_concat_eq_cons hshift
      intro y hy
      obtain hy | hy := List.mem_cons.mp hy
      · exact hy
      · rw [hxs] at hy
        exact List.eq_of_mem_replicate hy
  · rintro ⟨rfl, hcopies⟩
    have hl : l = List.replicate l.length a := List.eq_replicate_of_mem hcopies
    rw [List.rtake, List.length_append, List.length_singleton, Nat.add_sub_cancel_left, hl,
      ← List.replicate_succ', List.drop_replicate, Nat.add_sub_cancel]

theorem rtake_subset {l : List α} : l.rtake n ⊆ l := List.drop_subset _ _

theorem rtake_suffix (l : List α) (n : ℕ) : l.rtake n <:+ l := List.drop_suffix _ _

/-- A window of a longer bounded history is the bounded history of the window. -/
theorem rtake_pushBounded (h : n ≤ c) (l : List α) (x : α) :
    (pushBounded c l x).rtake n = pushBounded n (l.rtake n) x := by
  rw [pushBounded, pushBounded, rtake_rtake h]
  rcases n with _ | n
  · rw [List.rtake_zero, List.rtake_zero]
  · rw [List.rtake_concat_succ, List.rtake_concat_succ, rtake_rtake (Nat.le_succ n)]

/-- Pushing onto a window of a history is the window of pushing onto it. -/
theorem pushBounded_rtake (c : ℕ) (l : List α) (x : α) :
    pushBounded c (l.rtake c) x = (l ++ [x]).rtake c := by
  rw [← rtake_pushBounded le_rfl, pushBounded, rtake_rtake le_rfl]

/-- A bounded history ends with what was pushed last. -/
theorem pushBounded_eq_concat (h : 0 < c) (l : List α) (x : α) :
    pushBounded c l x = l.rtake (c - 1) ++ [x] :=
  rtake_append h

theorem pushBounded_nil (h : 0 < c) (x : α) : pushBounded c [] x = [x] := by
  rw [pushBounded_eq_concat h, List.rtake_nil, List.nil_append]

theorem pushBounded_suffix (c : ℕ) (l : List α) (x : α) : pushBounded c l x <:+ l ++ [x] :=
  rtake_suffix _ _

/-! ### Two histories side by side -/

section Forall₂

variable {β : Type*} {R : α → β → Prop} {as : List α} {bs : List β}

theorem forall₂_concat_iff {a : α} {b : β} :
    List.Forall₂ R (as ++ [a]) (bs ++ [b]) ↔ List.Forall₂ R as bs ∧ R a b := by
  rw [← List.forall₂_reverse_iff, List.reverse_concat, List.reverse_concat, List.forall₂_cons,
    List.forall₂_reverse_iff, and_comm]

/-- The partner of a list that ends in an element ends in a partner of it. -/
theorem exists_concat_of_forall₂ {a : α} (h : List.Forall₂ R (as ++ [a]) bs) :
    ∃ init b, bs = init ++ [b] ∧ List.Forall₂ R as init ∧ R a b := by
  obtain rfl | ⟨init, b, rfl⟩ := List.eq_nil_or_concat' bs
  · exact absurd (List.forall₂_nil_right_iff.mp h) (by simp)
  · exact ⟨init, b, rfl, forall₂_concat_iff.mp h⟩

theorem forall₂_rtake (h : List.Forall₂ R as bs) (c : ℕ) :
    List.Forall₂ R (as.rtake c) (bs.rtake c) := by
  rw [List.rtake, List.rtake, h.length_eq]
  exact List.forall₂_drop _ h

/-- The entries of `bs` are partners of the last `c` entries of `as`. -/
def ShowsLast (R : α → β → Prop) (c : ℕ) (as : List α) (bs : List β) : Prop :=
  List.Forall₂ R (as.rtake c) bs

theorem showsLast_nil_iff : ShowsLast R c [] bs ↔ bs = [] := by
  rw [ShowsLast, List.rtake_nil, List.forall₂_nil_left_iff]

theorem showsLast_concat_iff {a : α} {b : β} (hc : 0 < c) :
    ShowsLast R c (as ++ [a]) (bs ++ [b]) ↔ List.Forall₂ R (as.rtake (c - 1)) bs ∧ R a b := by
  rw [ShowsLast, ← pushBounded, pushBounded_eq_concat hc, forall₂_concat_iff]

theorem ShowsLast.exists_concat {a : α} (hc : 0 < c) (h : ShowsLast R c (as ++ [a]) bs) :
    ∃ init b, bs = init ++ [b] ∧ R a b := by
  rw [ShowsLast, ← pushBounded, pushBounded_eq_concat hc] at h
  obtain ⟨init, b, rfl, -, hab⟩ := exists_concat_of_forall₂ h
  exact ⟨init, b, rfl, hab⟩

/-- The newest entry is replaced on both sides. -/
theorem ShowsLast.replace {a a' : α} {b b' : β} (hc : 0 < c)
    (h : ShowsLast R c (as ++ [a]) (bs ++ [b])) (hab : R a' b') :
    ShowsLast R c (as ++ [a']) (bs ++ [b']) :=
  (showsLast_concat_iff hc).mpr ⟨((showsLast_concat_iff hc).mp h).1, hab⟩

/-- An entry is added on both sides, and the bounded one drops what does not fit. -/
theorem ShowsLast.push {a : α} {b : β} (h : ShowsLast R c as bs) (hab : R a b) :
    ShowsLast R c (as ++ [a]) (pushBounded c bs b) := by
  rw [ShowsLast, ← pushBounded_rtake, pushBounded, pushBounded]
  exact forall₂_rtake (forall₂_concat_iff.mpr ⟨h, hab⟩) c

theorem exists_mem_of_forall₂ {b : β} (h : List.Forall₂ R as bs) (hb : b ∈ bs) :
    ∃ a ∈ as, R a b := by
  obtain ⟨i, hi, rfl⟩ := List.getElem_of_mem hb
  have hi' : i < as.length := h.length_eq ▸ hi
  exact ⟨as[i], List.getElem_mem hi', h.get hi' hi⟩

/-- An order of the entries of one history is inherited by the other. -/
theorem pairwise_of_forall₂ {P : α → α → Prop} {Q : β → β → Prop} (h : List.Forall₂ R as bs)
    (hPQ : ∀ a a' b b', R a b → R a' b' → P a a' → Q b b') (hP : as.Pairwise P) :
    bs.Pairwise Q := by
  induction h with
  | nil => exact List.Pairwise.nil
  | @cons a b as bs hab hrest ih =>
    obtain ⟨hhead, htail⟩ := List.pairwise_cons.mp hP
    refine List.pairwise_cons.mpr ⟨fun b' hb' => ?_, ih htail⟩
    obtain ⟨i, hi, rfl⟩ := List.getElem_of_mem hb'
    have hi' : i < as.length := hrest.length_eq ▸ hi
    exact hPQ a as[i] b bs[i] hab (hrest.get hi' hi) (hhead _ (List.getElem_mem hi'))

end Forall₂

end MoonCore
