import Mathlib.Data.List.Basic
import Mathlib.Data.List.Infix
import MoonCore.ForMathlib.FilterAfter

/-!
# Runs of deterministic machines

A `Machine σ α ω` takes one step per input and answers each step with an output. This file
provides the vocabulary every long-run statement of the development is phrased in:

* `Machine.run` and `Machine.outputs`, the final state and the answers of a finite run,
  with their composition laws;
* `Machine.Along`, the predicate "every step of the run meets `P` in the state it is taken
  from", in a form that splits along concatenation;
* the two invariant rules, unconditional (`run_invariant`) and for runs whose steps all
  meet a guard (`Along.run_invariant`), the rule for invariants that relate the state to the
  answers so far (`run_invariant_trace`), and the rules that a guard is exact for a property of
  every state of a run (`forall_take_iff_along`) or of its last one (`Along.run_iff`);
* relations between any two moments of a run, from and to its steps (`along_next_of_forall_take`,
  `Along.forall_take`);
* the progress rule, a measure that the steps of one kind lower (`Along.reaches_of_measure`,
  `reaches_of_measure`);
* the rule for runs that skip inputs, which come to the same states exactly when every skipped
  input changes nothing (`forall_prefix_run_filterAfter_iff`);
* `Machine.pipe`, a machine whose outputs are folded into a second state, with the law that
  the consumer depends on the producer's outputs only.

Nothing here is about a particular program.
-/

namespace MoonCore

/-- A property of every place in a list, by position. -/
theorem forall_split_iff_forall_get {α : Type*} {l : List α} {p : List α → α → List α → Prop} :
    (∀ pre a post, l = pre ++ a :: post → p pre a post) ↔
      ∀ i, ∀ h : i < l.length, p (l.take i) (l.get ⟨i, h⟩) (l.drop (i + 1)) := by
  constructor
  · intro hsplit i h
    exact hsplit _ _ _ (by simp)
  · rintro hplace pre a post rfl
    simpa using hplace pre.length (by simp)

/-- A deterministic machine: one step per input, one output per step. -/
structure Machine (σ α ω : Type*) where
  /-- One step from a state on an input. -/
  step : σ → α → σ × ω

namespace Machine

variable {σ α ω τ : Type*} (M : Machine σ α ω)

/-- The state after one step. -/
def next (s : σ) (a : α) : σ := (M.step s a).1

/-- The answer of one step. -/
def out (s : σ) (a : α) : ω := (M.step s a).2

/-- The state after a finite run. -/
def run (s : σ) : List α → σ
  | [] => s
  | a :: as => run (M.next s a) as

/-- The answers of a finite run, one per input. -/
def outputs (s : σ) : List α → List ω
  | [] => []
  | a :: as => M.out s a :: outputs (M.next s a) as

@[simp]
theorem run_nil (s : σ) : M.run s [] = s := rfl

@[simp]
theorem run_cons (s : σ) (a : α) (as : List α) : M.run s (a :: as) = M.run (M.next s a) as := rfl

@[simp]
theorem outputs_nil (s : σ) : M.outputs s [] = [] := rfl

@[simp]
theorem outputs_cons (s : σ) (a : α) (as : List α) :
    M.outputs s (a :: as) = M.out s a :: M.outputs (M.next s a) as := rfl

theorem run_append (s : σ) (as bs : List α) : M.run s (as ++ bs) = M.run (M.run s as) bs := by
  induction as generalizing s with
  | nil => rfl
  | cons a as ih => exact ih (M.next s a)

theorem outputs_append (s : σ) (as bs : List α) :
    M.outputs s (as ++ bs) = M.outputs s as ++ M.outputs (M.run s as) bs := by
  induction as generalizing s with
  | nil => rfl
  | cons a as ih => simp only [List.cons_append, outputs_cons, run_cons, ih]

/-- A run extended by one input. -/
theorem run_concat (s : σ) (as : List α) (a : α) :
    M.run s (as ++ [a]) = M.next (M.run s as) a := by
  rw [run_append, run_cons, run_nil]

/-- The inputs of a finite run, each with its answer. -/
def trace (s : σ) : List α → List (α × ω)
  | [] => []
  | a :: as => (a, M.out s a) :: trace (M.next s a) as

@[simp]
theorem trace_nil (s : σ) : M.trace s [] = [] := rfl

@[simp]
theorem trace_cons (s : σ) (a : α) (as : List α) :
    M.trace s (a :: as) = (a, M.out s a) :: M.trace (M.next s a) as := rfl

/-- The inputs of a trace are the inputs of the run. -/
@[simp]
theorem map_fst_trace (s : σ) (as : List α) : (M.trace s as).map Prod.fst = as := by
  induction as generalizing s with
  | nil => rfl
  | cons a as ih => rw [trace_cons, List.map_cons, ih]

theorem trace_append (s : σ) (as bs : List α) :
    M.trace s (as ++ bs) = M.trace s as ++ M.trace (M.run s as) bs := by
  induction as generalizing s with
  | nil => rfl
  | cons a as ih => rw [List.cons_append, trace_cons, ih, trace_cons, run_cons, List.cons_append]

variable {M} in
/-- A trace holds each input of the run with the answer it got where it stood. -/
theorem mem_trace_iff {s : σ} {as : List α} {asked : α × ω} :
    asked ∈ M.trace s as ↔
      ∃ pre post, as = pre ++ asked.1 :: post ∧ asked.2 = M.out (M.run s pre) asked.1 := by
  constructor
  · intro h
    induction as generalizing s with
    | nil => exact absurd h List.not_mem_nil
    | cons a as ih =>
      obtain rfl | hrest := List.mem_cons.mp h
      · exact ⟨[], as, rfl, rfl⟩
      · obtain ⟨pre, post, rfl, hout⟩ := ih hrest
        exact ⟨a :: pre, post, rfl, hout⟩
  · rintro ⟨pre, post, rfl, hout⟩
    rw [trace_append, trace_cons, ← hout]
    exact List.mem_append_right _ List.mem_cons_self

/-! ### Guards along a run -/

/-- Every step of the run meets `P` in the state it is taken from. -/
def Along (P : σ → α → Prop) (s : σ) : List α → Prop
  | [] => True
  | a :: as => P s a ∧ Along P (M.next s a) as

variable {M} {P : σ → α → Prop} {I : σ → Prop}

@[simp]
theorem along_nil (s : σ) : M.Along P s [] := trivial

@[simp]
theorem along_cons {s : σ} {a : α} {as : List α} :
    M.Along P s (a :: as) ↔ P s a ∧ M.Along P (M.next s a) as := Iff.rfl

theorem along_append {s : σ} {as bs : List α} :
    M.Along P s (as ++ bs) ↔ M.Along P s as ∧ M.Along P (M.run s as) bs := by
  induction as generalizing s with
  | nil => simp
  | cons a as ih => simp only [List.cons_append, along_cons, run_cons, ih, and_assoc]

instance decidableAlong (P : σ → α → Prop) [∀ s a, Decidable (P s a)] (s : σ) :
    (as : List α) → Decidable (M.Along P s as)
  | [] => .isTrue trivial
  | a :: as =>
    have := decidableAlong P (M.next s a) as
    inferInstanceAs (Decidable (P s a ∧ M.Along P (M.next s a) as))

/-- A guard met along a run is met along each of its prefixes. -/
theorem Along.take {s : σ} {as : List α} (h : M.Along P s as) (k : ℕ) :
    M.Along P s (as.take k) := by
  rw [← List.take_append_drop k as, along_append] at h
  exact h.1

/-- The guard of a run, read at one of its steps. -/
theorem along_iff_forall_split {s : σ} {as : List α} :
    M.Along P s as ↔ ∀ pre a post, as = pre ++ a :: post → P (M.run s pre) a := by
  constructor
  · rintro h pre a post rfl
    exact (along_append.mp h).2.1
  · intro h
    induction as generalizing s with
    | nil => trivial
    | cons a as ih =>
      refine ⟨h [] a as rfl, ih fun pre b post hsplit => ?_⟩
      exact h (a :: pre) b post (by rw [hsplit, List.cons_append])

/-- A guard weaker than one met along a run is met along it. -/
theorem Along.mono {Q : σ → α → Prop} {s : σ} {as : List α} (h : M.Along P s as)
    (hPQ : ∀ s a, P s a → Q s a) : M.Along Q s as := by
  induction as generalizing s with
  | nil => trivial
  | cons a as ih => exact ⟨hPQ s a h.1, ih h.2⟩

theorem along_and {Q : σ → α → Prop} {s : σ} {as : List α} :
    M.Along (fun s a => P s a ∧ Q s a) s as ↔ M.Along P s as ∧ M.Along Q s as := by
  induction as generalizing s with
  | nil => simp
  | cons a as ih => simp only [along_cons, ih, and_and_and_comm]

/-- Where every step of a run meets one guard and keeps an invariant, it meets any other guard
that follows from the two. -/
theorem Along.imp_of_invariant {Q : σ → α → Prop} {s : σ} {as : List α} (h : M.Along P s as)
    (hI : ∀ s a, I s → P s a → I (M.next s a)) (hQ : ∀ s a, I s → P s a → Q s a) (hs : I s) :
    M.Along Q s as := by
  induction as generalizing s with
  | nil => trivial
  | cons a as ih => exact ⟨hQ s a hs h.1, ih h.2 (hI s a hs h.1)⟩

/-- A property of the inputs and answers of a run, as a guard along it. -/
theorem forall_mem_trace_iff_along {Q : α → ω → Prop} (s : σ) (as : List α) :
    (∀ asked ∈ M.trace s as, Q asked.1 asked.2) ↔
      M.Along (fun s a => Q a (M.out s a)) s as := by
  induction as generalizing s with
  | nil => simp
  | cons a as ih => rw [trace_cons, List.forall_mem_cons, along_cons, ih]

/-! ### Invariants -/

/-- An invariant kept by every step that meets the guard holds after every run along which
the guard is met. -/
theorem Along.run_invariant (hstep : ∀ s a, P s a → I s → I (M.next s a)) {s : σ}
    {as : List α} (h : M.Along P s as) (hs : I s) : I (M.run s as) := by
  induction as generalizing s with
  | nil => exact hs
  | cons a as ih => exact ih h.2 (hstep s a h.1 hs)

/-- An invariant kept by every step holds after every run. -/
theorem run_invariant (hstep : ∀ s a, I s → I (M.next s a)) {s : σ} (hs : I s) (as : List α) :
    I (M.run s as) := by
  induction as generalizing s with
  | nil => exact hs
  | cons a as ih => exact ih (hstep s a hs)

/-- An invariant that relates the state to what has been asked and answered so far. -/
theorem run_invariant_trace {J : σ → List (α × ω) → Prop}
    (hstep : ∀ s t a, J s t → J (M.next s a) (t ++ [(a, M.out s a)])) {s : σ}
    {t : List (α × ω)} (hs : J s t) (as : List α) : J (M.run s as) (t ++ M.trace s as) := by
  induction as generalizing s t with
  | nil => rwa [trace_nil, List.append_nil]
  | cons a as ih =>
    have hnext := ih (hstep s t a hs)
    rwa [List.append_assoc, List.singleton_append] at hnext

/-- **Progress.** Along a run whose steps all meet a guard: where no step raises a measure, and each
step with the label `p` lowers it until the goal is reached, a run with more such steps than the
measure reaches the goal. -/
theorem Along.reaches_of_measure (I G : σ → Prop) (p : α → Bool) (μ : σ → ℕ)
    (hI : ∀ s a, P s a → I s → I (M.next s a)) (hG : ∀ s a, P s a → I s → G s → G (M.next s a))
    (hle : ∀ s a, P s a → I s → ¬ G s → μ (M.next s a) ≤ μ s)
    (hlt : ∀ s a, P s a → I s → ¬ G s → p a → μ (M.next s a) < μ s) {s : σ} {as : List α}
    (h : M.Along P s as) (hs : I s) (hμ : μ s < as.countP p) : G (M.run s as) := by
  induction as generalizing s with
  | nil => exact absurd hμ (Nat.not_lt_zero _)
  | cons a as ih =>
    obtain ⟨ha, hrest⟩ := h
    by_cases hgoal : G s
    · have hboth : ∀ s a, P s a → I s ∧ G s → I (M.next s a) ∧ G (M.next s a) :=
        fun s a ha hIG => ⟨hI s a ha hIG.1, hG s a ha hIG.1 hIG.2⟩
      exact (hrest.run_invariant hboth (hboth s a ha ⟨hs, hgoal⟩)).2
    · refine ih hrest (hI s a ha hs) ?_
      rw [List.countP_cons] at hμ
      by_cases hp : p a
      · have hlower := hlt s a ha hs hgoal hp
        rw [if_pos hp] at hμ
        omega
      · have hkept := hle s a ha hs hgoal
        rw [if_neg hp] at hμ
        omega

/-- **Exactness of a guard.** Where a step from a good state leads to a good state exactly when
it meets the guard, a run stays good throughout exactly when the guard is met along it. The
invariant carries what the step needs to know beyond goodness. -/
theorem forall_take_iff_along (R I : σ → Prop)
    (hI : ∀ s a, I s → R s → P s a → I (M.next s a))
    (hR : ∀ s a, I s → R s → (R (M.next s a) ↔ P s a)) {s : σ} (hs : I s) (hgood : R s)
    (as : List α) : (∀ k, R (M.run s (as.take k))) ↔ M.Along P s as := by
  induction as generalizing s with
  | nil => simp [hgood]
  | cons a as ih =>
    rw [along_cons]
    constructor
    · intro h
      have hnext : R (M.next s a) := h 1
      have hP : P s a := (hR s a hs hgood).mp hnext
      exact ⟨hP, (ih (hI s a hs hgood hP) hnext).mp fun k => h (k + 1)⟩
    · rintro ⟨hP, hrest⟩ k
      have hnext : R (M.next s a) := (hR s a hs hgood).mpr hP
      cases k with
      | zero => exact hgood
      | succ k => exact (ih (hI s a hs hgood hP) hnext).mpr hrest k

/-- Exactness of a guard, where a good state comes from good states only: a run along one guard
ends in a good state exactly when it began in one and met the other guard throughout. -/
theorem Along.run_iff {Q : σ → α → Prop} (R : σ → Prop)
    (hI : ∀ s a, P s a → I s → I (M.next s a))
    (hR : ∀ s a, P s a → I s → (R (M.next s a) ↔ R s ∧ Q s a)) {s : σ} {as : List α}
    (h : M.Along P s as) (hs : I s) : R (M.run s as) ↔ R s ∧ M.Along Q s as := by
  induction as generalizing s with
  | nil => simp
  | cons a as ih =>
    rw [run_cons, along_cons, ih h.2 (hI s a h.1 hs), hR s a h.1 hs, and_assoc]

/-- What holds between any two moments of a run holds across each of its steps. -/
theorem along_next_of_forall_take {R : σ → σ → Prop} {s : σ} {as : List α}
    (h : ∀ i j, i ≤ j → R (M.run s (as.take i)) (M.run s (as.take j))) :
    M.Along (fun s a => R s (M.next s a)) s as := by
  rw [along_iff_forall_split]
  rintro pre a post rfl
  have hstep := h pre.length (pre.length + 1) (Nat.le_succ _)
  rw [List.take_left, List.take_append, List.take_of_length_le (Nat.le_succ _)] at hstep
  rwa [Nat.add_sub_cancel_left, List.take_succ_cons, List.take_zero, run_concat] at hstep

/-- What every run along a guard leads to holds between any two moments of such a run. -/
theorem Along.forall_take {R : σ → σ → Prop}
    (hR : ∀ {s : σ} {as : List α}, M.Along P s as → R s (M.run s as)) {s : σ} {as : List α}
    (h : M.Along P s as) (i j : ℕ) (hij : i ≤ j) :
    R (M.run s (as.take i)) (M.run s (as.take j)) := by
  obtain ⟨k, rfl⟩ := Nat.exists_eq_add_of_le hij
  have hsplit := h.take (i + k)
  rw [List.take_add, along_append] at hsplit
  rw [List.take_add, run_append]
  exact hR hsplit.2

/-- A property of the inputs of a run, as a guard along it. -/
theorem along_of_forall_mem {Q : α → Prop} {as : List α} (h : ∀ a ∈ as, Q a) (s : σ) :
    M.Along (fun _ a => Q a) s as := by
  induction as generalizing s with
  | nil => trivial
  | cons a as ih =>
    exact ⟨h a List.mem_cons_self, ih (fun b hb => h b (List.mem_cons_of_mem a hb)) _⟩

/-- Two machines that step alike where a guard is met: a run meets the guard along the one exactly
if it does along the other. -/
theorem along_congr {N : Machine σ α ω} {Q : σ → α → Prop} (hPQ : ∀ s a, P s a ↔ Q s a)
    (hnext : ∀ s a, Q s a → M.next s a = N.next s a) {s : σ} {as : List α} :
    M.Along P s as ↔ N.Along Q s as := by
  induction as generalizing s with
  | nil => exact Iff.rfl
  | cons a as ih =>
    rw [along_cons, along_cons, hPQ]
    refine and_congr_right fun hQ => ?_
    rw [hnext s a hQ, ih]

/-- Two machines that step alike where a guard is met answer alike in the runs that meet it. -/
theorem Along.trace_congr {N : Machine σ α ω} (hstep : ∀ s a, P s a → M.step s a = N.step s a)
    {s : σ} {as : List α} (h : N.Along P s as) : M.trace s as = N.trace s as := by
  induction as generalizing s with
  | nil => rfl
  | cons a as ih =>
    have hfirst := hstep s a h.1
    have hnext : M.next s a = N.next s a := congrArg Prod.fst hfirst
    have hout : M.out s a = N.out s a := congrArg Prod.snd hfirst
    rw [trace_cons, trace_cons, hnext, hout, ih h.2]

/-- **Progress**, of every run. -/
theorem reaches_of_measure (I G : σ → Prop) (p : α → Bool) (μ : σ → ℕ)
    (hI : ∀ s a, I s → I (M.next s a)) (hG : ∀ s a, I s → G s → G (M.next s a))
    (hle : ∀ s a, I s → ¬ G s → μ (M.next s a) ≤ μ s)
    (hlt : ∀ s a, I s → ¬ G s → p a → μ (M.next s a) < μ s) {s : σ} {as : List α} (hs : I s)
    (h : μ s < as.countP p) : G (M.run s as) :=
  Along.reaches_of_measure I G p μ (fun s a _ => hI s a) (fun s a _ => hG s a)
    (fun s a _ => hle s a) (fun s a _ => hlt s a)
    (along_of_forall_mem (fun _ _ => trivial) s) hs h

/-! ### Skipping inputs -/

/-- **Skipped inputs.** Leaving out inputs by what came before them leads to the same state after
every prefix exactly when each of them, where it stood, leaves the state as it is. -/
theorem forall_prefix_run_filterAfter_iff (M : Machine σ α ω) (keep : List α → α → Bool) (s : σ)
    (as : List α) :
    (∀ pre, pre <+: as → M.run s pre = M.run s (filterAfter keep pre)) ↔
      ∀ pre a post, as = pre ++ a :: post → keep pre a = false →
        M.next (M.run s pre) a = M.run s pre := by
  constructor
  · rintro h pre a post rfl hskip
    have hbefore := h pre (List.prefix_append pre _)
    have hafter := h (pre ++ [a]) ⟨post, by simp⟩
    rw [filterAfter_concat, hskip, if_neg (by simp), List.append_nil, ← hbefore, run_concat]
      at hafter
    exact hafter
  · intro h pre
    induction pre using List.reverseRecOn with
    | nil => exact fun _ => rfl
    | append_singleton pre a ih =>
      rintro ⟨post, rfl⟩
      have hpre := ih ⟨a :: post, by simp⟩
      rw [filterAfter_concat, run_concat]
      rcases hkeep : keep pre a with - | -
      · rw [if_neg (by simp), List.append_nil, ← hpre]
        exact h pre a post (by simp) hkeep
      · rw [if_pos rfl, run_concat, hpre]

/-! ### Feeding a machine's answers into a second state -/

/-- The machine whose answers, lists of events, are folded in order into a second state. -/
def pipe (M : Machine σ α (List ω)) (fold : τ → ω → τ) : Machine (σ × τ) α (List ω) where
  step s a := ((M.next s.1 a, (M.out s.1 a).foldl fold s.2), M.out s.1 a)

@[simp]
theorem pipe_next (M : Machine σ α (List ω)) (fold : τ → ω → τ) (s : σ × τ) (a : α) :
    (M.pipe fold).next s a = (M.next s.1 a, (M.out s.1 a).foldl fold s.2) := rfl

/-- The producer of a pipe runs as it does alone. -/
theorem pipe_run_fst (M : Machine σ α (List ω)) (fold : τ → ω → τ) (s : σ × τ) (as : List α) :
    ((M.pipe fold).run s as).1 = M.run s.1 as := by
  induction as generalizing s with
  | nil => rfl
  | cons a as ih => exact ih _

/-- The consumer of a pipe folds the producer's answers, in order. -/
theorem pipe_run_snd (M : Machine σ α (List ω)) (fold : τ → ω → τ) (s : σ × τ) (as : List α) :
    ((M.pipe fold).run s as).2 = (M.outputs s.1 as).flatten.foldl fold s.2 := by
  induction as generalizing s with
  | nil => rfl
  | cons a as ih =>
    simp only [run_cons, pipe_next, ih, outputs_cons, List.flatten_cons, List.foldl_append]

/-- A guard on the producer's steps, read in the pipe. -/
theorem along_pipe_fst (M : Machine σ α (List ω)) (fold : τ → ω → τ) {Q : σ → α → Prop}
    (s : σ × τ) (as : List α) :
    (M.pipe fold).Along (fun s a => Q s.1 a) s as ↔ M.Along Q s.1 as := by
  induction as generalizing s with
  | nil => exact Iff.rfl
  | cons a as ih => exact and_congr_right fun _ => ih _

/-- A run, as a fold of the steps. -/
theorem foldl_next (s : σ) (as : List α) : as.foldl M.next s = M.run s as := by
  induction as generalizing s with
  | nil => rfl
  | cons a as ih => exact ih (M.next s a)

/-- A guard on the consumer's steps that the answers of each step meet is met along the whole
stream of answers. -/
theorem along_outputs_flatten {ρ : Type*} (C : Machine τ ω ρ) {M : Machine σ α (List ω)}
    {Q : τ → ω → Prop} {I : σ × τ → Prop} (hI : ∀ s a, I s → I ((M.pipe C.next).next s a))
    (hQ : ∀ s a, I s → C.Along Q s.2 (M.out s.1 a)) {s : σ × τ} (hs : I s) (as : List α) :
    C.Along Q s.2 (M.outputs s.1 as).flatten := by
  induction as generalizing s with
  | nil => trivial
  | cons a as ih =>
    have hrest := ih (hI s a hs)
    rw [pipe_next, foldl_next] at hrest
    rw [outputs_cons, List.flatten_cons, along_append]
    exact ⟨hQ s a hs, hrest⟩

end Machine

end MoonCore
