import Mathlib.Algebra.BigOperators.Group.List.Basic
import Mathlib.Algebra.Order.Ring.Nat

/-!
# Counting what falls into aligned windows

Time is cut into windows of one length from an origin on. A counter that starts over at each
window boundary bounds what a log spends in every window, the past ones included:

* `spentIn`, what the entries of a log that fall into the `n`-th window cost together;
* `Tally`, the state of such a counter on a log: it counts at least what the present window has
  spent, and no window has spent more than the cap;
* the rules: time passes (`Tally.turn`, `Tally.later`), the counter is raised (`Tally.raise`),
  an entry is charged (`Tally.charge`) or costs nothing (`Tally.free`).

Nothing here is about a particular program.
-/

namespace MoonCore

variable {α : Type*} {time cost : α → ℕ} {origin span cap : ℕ} {log : List α} {entry : α}

/-- `t` falls into the `n`-th window. -/
def InWindow (origin span n t : ℕ) : Prop := origin + n * span ≤ t ∧ t < origin + (n + 1) * span

instance (origin span n t : ℕ) : Decidable (InWindow origin span n t) :=
  inferInstanceAs (Decidable (_ ∧ _))

/-- What the entries of the `n`-th window cost together. -/
def spentIn (time cost : α → ℕ) (origin span n : ℕ) (log : List α) : ℕ :=
  ((log.filter fun entry => InWindow origin span n (time entry)).map cost).sum

@[simp]
theorem spentIn_nil (time cost : α → ℕ) (origin span n : ℕ) :
    spentIn time cost origin span n [] = 0 := rfl

theorem spentIn_concat (time cost : α → ℕ) (origin span n : ℕ) (log : List α) (entry : α) :
    spentIn time cost origin span n (log ++ [entry]) = spentIn time cost origin span n log +
      if InWindow origin span n (time entry) then cost entry else 0 := by
  rw [spentIn, List.filter_append, List.map_append, List.sum_append]
  congr 1
  split_ifs with h
  · rw [List.filter_cons_of_pos (by simpa using h)]
    simp
  · rw [List.filter_cons_of_neg (by simpa using h)]
    simp

/-- The window a time falls into is the one that starts where it does. -/
theorem InWindow.start_eq {n m t : ℕ} (h : InWindow origin span n t)
    (hle : origin + m * span ≤ t) (hlt : t < origin + m * span + span) : n = m := by
  obtain ⟨hn, ht⟩ := h
  have hnm : n * span < (m + 1) * span := by
    rw [Nat.succ_mul]
    omega
  have hmn : m * span < (n + 1) * span := by omega
  have h1 : n < m + 1 := Nat.lt_of_mul_lt_mul_right hnm
  have h2 : m < n + 1 := Nat.lt_of_mul_lt_mul_right hmn
  omega

/-- Whole spans lead from the start of a window to the window a later time falls into. -/
theorem inWindow_advance (hspan : 0 < span) {m t : ℕ} (h : origin + m * span ≤ t) :
    InWindow origin span (m + (t - (origin + m * span)) / span) t := by
  have hle := Nat.div_mul_le_self (t - (origin + m * span)) span
  have hlt := Nat.lt_div_mul_add (a := t - (origin + m * span)) hspan
  constructor
  · rw [Nat.add_mul]
    omega
  · rw [Nat.succ_mul, Nat.add_mul]
    omega

/-- A counter that stands at `used` in the `index`-th window, at time `now`, on what the log has
spent so far. -/
structure Tally (time cost : α → ℕ) (origin span cap index used now : ℕ) (log : List α) :
    Prop where
  contains : InWindow origin span index now
  past : ∀ entry ∈ log, time entry ≤ now
  counted : spentIn time cost origin span index log ≤ used
  bounded : ∀ n, spentIn time cost origin span n log ≤ cap

namespace Tally

variable {index used now : ℕ}

theorem start (hspan : 0 < span) :
    Tally time cost origin span cap 0 used origin ([] : List α) where
  contains := by
    rw [InWindow]
    omega
  past := by simp
  counted := Nat.zero_le _
  bounded := fun _ => Nat.zero_le _

/-- Nothing has been spent after the window the counter is in. -/
theorem spentIn_eq_zero (h : Tally time cost origin span cap index used now log) {n : ℕ}
    (hn : index < n) : spentIn time cost origin span n log = 0 := by
  have hnone : log.filter (fun entry => InWindow origin span n (time entry)) = [] := by
    rw [List.filter_eq_nil_iff]
    intro entry hentry hmem
    have hlt := h.contains.2
    have hle := (of_decide_eq_true hmem).1
    have hstart : (index + 1) * span ≤ n * span := Nat.mul_le_mul_right span hn
    have hpast := h.past entry hentry
    omega
  rw [spentIn, hnone]
  rfl

/-- Time passes within the window. -/
theorem later (h : Tally time cost origin span cap index used now log) {later : ℕ}
    (hlater : now ≤ later) (hlt : later < origin + (index + 1) * span) :
    Tally time cost origin span cap index used later log where
  contains := ⟨h.contains.1.trans hlater, hlt⟩
  past := fun entry hentry => (h.past entry hentry).trans hlater
  counted := h.counted
  bounded := h.bounded

/-- A later window begins, and the counter with it. -/
theorem turn (h : Tally time cost origin span cap index used now log) {index' later : ℕ}
    (hindex : index < index') (hin : InWindow origin span index' later) :
    Tally time cost origin span cap index' 0 later log where
  contains := hin
  past := by
    intro entry hentry
    have hpast := h.past entry hentry
    have hlt := h.contains.2
    have hstart : (index + 1) * span ≤ index' * span := Nat.mul_le_mul_right span hindex
    have hle := hin.1
    omega
  counted := (h.spentIn_eq_zero hindex).le
  bounded := h.bounded

/-- The counter may stand higher than what was spent. -/
theorem raise (h : Tally time cost origin span cap index used now log) {used' : ℕ}
    (hused : used ≤ used') : Tally time cost origin span cap index used' now log where
  contains := h.contains
  past := h.past
  counted := h.counted.trans hused
  bounded := h.bounded

/-- An entry that still fits under the cap is counted. -/
theorem charge (h : Tally time cost origin span cap index used now log)
    (htime : time entry = now) (hfits : used + cost entry ≤ cap) :
    Tally time cost origin span cap index (used + cost entry) now (log ++ [entry]) where
  contains := h.contains
  past := List.forall_mem_append.mpr ⟨h.past, List.forall_mem_singleton.mpr htime.le⟩
  counted := by
    rw [spentIn_concat, htime, if_pos h.contains]
    exact Nat.add_le_add_right h.counted _
  bounded := by
    intro n
    rw [spentIn_concat, htime]
    split_ifs with hin
    · have hlt : now < origin + index * span + span := by
        have := h.contains.2
        rw [Nat.succ_mul] at this
        omega
      obtain rfl := hin.start_eq h.contains.1 hlt
      exact (Nat.add_le_add_right h.counted _).trans hfits
    · exact h.bounded n

/-- An entry that costs nothing leaves the counter as it is. -/
theorem free (h : Tally time cost origin span cap index used now log)
    (htime : time entry = now) (hcost : cost entry = 0) :
    Tally time cost origin span cap index used now (log ++ [entry]) where
  contains := h.contains
  past := List.forall_mem_append.mpr ⟨h.past, List.forall_mem_singleton.mpr htime.le⟩
  counted := by
    rw [spentIn_concat, hcost, ite_self]
    exact h.counted
  bounded := by
    intro n
    rw [spentIn_concat, hcost, ite_self]
    exact h.bounded n

end Tally

end MoonCore
