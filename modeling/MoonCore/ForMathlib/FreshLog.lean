import Mathlib.Data.List.Destutter

/-!
# Bounded logs that do not repeat themselves

`pushFresh` puts an entry in front of a log, unless the one in front says the same, and cuts the
log off at a length. What a history leaves in such a log is its beginning of each run of entries
that say the same, newest first and cut off once (`foldl_pushFresh`): the entries that were cut
off on the way are not missed by the comparisons, since those look at the newest only.
-/

namespace MoonCore

variable {α : Type*} (R : α → α → Prop) [DecidableRel R]

/-- Put an entry in front of a log, unless the entry there does not differ from it. -/
def pushFresh (n : ℕ) (log : List α) (x : α) : List α :=
  if log.head?.any fun newest => ¬ R newest x then log else (x :: log).take n

theorem destutter'_concat (l : List α) (a x : α) :
    (l ++ [x]).destutter' R a =
      if (l.destutter' R a).getLast?.any fun last => ¬ R last x then l.destutter' R a
      else l.destutter' R a ++ [x] := by
  induction l generalizing a with
  | nil => by_cases h : R a x <;> simp [h]
  | cons b l ih =>
    by_cases h : R a b
    · have hne := List.destutter'_ne_nil (R := R) l (a := b)
      rw [List.cons_append, List.destutter'_cons_pos _ h, List.destutter'_cons_pos _ h, ih b,
        List.getLast?_cons_of_ne_nil hne]
      split_ifs <;> rfl
    · rw [List.cons_append, List.destutter'_cons_neg _ h, List.destutter'_cons_neg _ h, ih a]

/-- One more entry of a history. -/
theorem destutter_concat (l : List α) (x : α) :
    (l ++ [x]).destutter R =
      if (l.destutter R).getLast?.any fun last => ¬ R last x then l.destutter R
      else l.destutter R ++ [x] := by
  cases l with
  | nil => rfl
  | cons a l => exact destutter'_concat R l a x

/-- What a history leaves in a log. -/
theorem foldl_pushFresh {n : ℕ} (hn : 0 < n) (history : List α) :
    history.foldl (pushFresh R n) [] = (history.destutter R).reverse.take n := by
  induction history using List.reverseRecOn with
  | nil => exact List.take_nil.symm
  | append_singleton history x ih =>
    rw [List.foldl_append, ih, List.foldl_cons, List.foldl_nil, destutter_concat, pushFresh,
      List.head?_take, if_neg hn.ne', List.head?_reverse]
    split_ifs
    · rfl
    · rw [List.reverse_append, List.reverse_singleton, List.singleton_append]
      obtain ⟨m, rfl⟩ := Nat.exists_eq_succ_of_ne_zero hn.ne'
      rw [List.take_succ_cons, List.take_succ_cons, List.take_take, Nat.min_eq_left (Nat.le_succ m)]

end MoonCore
