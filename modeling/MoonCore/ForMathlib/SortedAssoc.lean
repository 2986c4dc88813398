import Mathlib.Data.List.Basic
import Mathlib.Data.List.Pairwise
import Mathlib.Data.List.Perm.Basic
import Mathlib.Data.List.Nodup
import Mathlib.Order.Defs.Unbundled
import Mathlib.Algebra.Notation.Defs

/-!
# Sorted association lists without zeros

A list of entries, each with a key and a value, read as a finitely supported map: `lookup`
gives the value under a key and zero where there is none. A list that is strictly sorted by
key and stores no zero (`SortedAssoc`) is the canonical representation of the map it
denotes, which is `SortedAssoc.ext`; the rest of the file says what removing and inserting
one entry does to the map.
-/

namespace MoonCore

variable {α κ ν : Type*} [Zero ν]

/-- The value a list of entries holds under a key, zero where it holds none. -/
def lookup [DecidableEq κ] (key : α → κ) (val : α → ν) (l : List α) (k : κ) : ν :=
  ((l.find? fun a => key a = k).map val).getD 0

/-- Strictly sorted by key and free of zero values. -/
structure SortedAssoc (r : κ → κ → Prop) (key : α → κ) (val : α → ν) (l : List α) : Prop where
  sorted : l.Pairwise fun a b => r (key a) (key b)
  nonzero : ∀ a ∈ l, val a ≠ 0

section Lookup

variable [DecidableEq κ] {key : α → κ} {val : α → ν}

@[simp]
theorem lookup_nil (k : κ) : lookup key val [] k = 0 := rfl

/-- A list that does not hold a key reads zero there. -/
theorem lookup_eq_zero {l : List α} {k : κ} (h : ∀ a ∈ l, key a ≠ k) :
    lookup key val l k = 0 := by
  have hnone : l.find? (fun a => key a = k) = none :=
    List.find?_eq_none.mpr fun a ha => by simpa using h a ha
  rw [lookup, hnone]
  rfl

/-- An entry with a fresh key in the middle of a list: it answers for its own key, and the
other keys do not see it. -/
theorem lookup_middle {as bs : List α} {x : α} (h : ∀ a ∈ as, key a ≠ key x) (k : κ) :
    lookup key val (as ++ x :: bs) k =
      if key x = k then val x else lookup key val (as ++ bs) k := by
  split_ifs with hk
  · subst hk
    have hnone : as.find? (fun a => key a = key x) = none :=
      List.find?_eq_none.mpr fun a ha => by simpa using h a ha
    simp [lookup, List.find?_append, hnone]
  · simp [lookup, List.find?_append, hk]

end Lookup

namespace SortedAssoc

variable {r : κ → κ → Prop} {key : α → κ} {val : α → ν} {l as bs : List α} {x : α}

theorem nil : SortedAssoc r key val ([] : List α) := ⟨.nil, by simp⟩

/-- Removing entries keeps a sorted association list one. -/
theorem sublist {l' : List α} (h : SortedAssoc r key val l) (hsub : l'.Sublist l) :
    SortedAssoc r key val l' :=
  ⟨h.sorted.sublist hsub, fun a ha => h.nonzero a (hsub.subset ha)⟩

/-- Removing the entry in the middle. -/
theorem remove (h : SortedAssoc r key val (as ++ x :: bs)) : SortedAssoc r key val (as ++ bs) :=
  h.sublist (List.Sublist.append_left (List.sublist_cons_self x bs) as)

/-- Inserting a nonzero entry where the order puts it. -/
theorem insert (h : SortedAssoc r key val (as ++ bs)) (has : ∀ a ∈ as, r (key a) (key x))
    (hbs : ∀ b ∈ bs, r (key x) (key b)) (hx : val x ≠ 0) :
    SortedAssoc r key val (as ++ x :: bs) := by
  obtain ⟨hsort, hnz⟩ := h
  obtain ⟨hsa, hsb, hab⟩ := List.pairwise_append.mp hsort
  refine ⟨List.pairwise_append.mpr ⟨hsa, List.pairwise_cons.mpr ⟨hbs, hsb⟩, ?_⟩, ?_⟩
  · intro a ha b hb
    rcases List.mem_cons.mp hb with rfl | hb
    · exact has a ha
    · exact hab a ha b hb
  · intro a ha
    rcases List.mem_append.mp ha with ha | ha
    · exact hnz a (List.mem_append_left bs ha)
    · rcases List.mem_cons.mp ha with rfl | ha
      · exact hx
      · exact hnz a (List.mem_append_right as ha)

/-- The keys before an entry differ from its own. -/
theorem key_ne_of_mem_left [Std.Irrefl r] (h : SortedAssoc r key val (as ++ x :: bs)) :
    ∀ a ∈ as, key a ≠ key x := by
  intro a ha heq
  have hr := (List.pairwise_append.mp h.sorted).2.2 a ha x List.mem_cons_self
  rw [heq] at hr
  exact irrefl _ hr

variable [DecidableEq κ]

/-- The list answers each of its keys with the value stored under it. -/
theorem lookup_of_mem [Std.Irrefl r] (h : SortedAssoc r key val l) (hx : x ∈ l) :
    lookup key val l (key x) = val x := by
  obtain ⟨as, bs, rfl⟩ := List.append_of_mem hx
  rw [lookup_middle h.key_ne_of_mem_left, if_pos rfl]

/-- The keys a sorted association list holds are those it does not read zero at. -/
theorem exists_mem_of_lookup_ne_zero {k : κ} (h : lookup key val l k ≠ 0) :
    ∃ a ∈ l, key a = k := by
  by_contra hnone
  refine h (lookup_eq_zero fun a ha hk => hnone ⟨a, ha, hk⟩)

/-- **Canonicity.** Two sorted association lists that denote the same map are equal. -/
theorem ext [IsStrictOrder κ r] {l' : List α}
    (hinj : ∀ a b : α, key a = key b → val a = val b → a = b) (h : SortedAssoc r key val l)
    (h' : SortedAssoc r key val l') (heq : ∀ k, lookup key val l k = lookup key val l' k) :
    l = l' := by
  have hsub : ∀ {m m' : List α}, SortedAssoc r key val m → SortedAssoc r key val m' →
      (∀ k, lookup key val m k = lookup key val m' k) → ∀ a ∈ m, a ∈ m' := by
    intro m m' hm hm' hmm a ha
    have hval : lookup key val m' (key a) = val a := by rw [← hmm, hm.lookup_of_mem ha]
    have hne : lookup key val m' (key a) ≠ 0 := by rw [hval]; exact hm.nonzero a ha
    obtain ⟨b, hb, hkey⟩ := exists_mem_of_lookup_ne_zero hne
    have hab : val a = val b := by rw [← hval, ← hkey, hm'.lookup_of_mem hb]
    exact hinj a b hkey.symm hab ▸ hb
  have hnodup : ∀ {m : List α}, SortedAssoc r key val m → m.Nodup := by
    intro m hm
    refine List.Pairwise.imp ?_ hm.sorted
    rintro a b hr rfl
    exact irrefl _ hr
  have hperm : l.Perm l' := (List.perm_ext_iff_of_nodup (hnodup h) (hnodup h')).mpr fun a =>
    ⟨hsub h h' heq a, hsub h' h (fun k => (heq k).symm) a⟩
  refine hperm.eq_of_pairwise (fun a b _ _ hab hba => ?_) h.sorted h'.sorted
  exact absurd (IsTrans.trans _ _ _ hab hba) (irrefl _)

end SortedAssoc

end MoonCore
