import Mathlib.Data.List.Nodup
import Mathlib.Order.Lattice

/-!
# Binary search over a list

`binarySearchBy cmp l` runs the comparator-driven binary search of a slice: the window
`[base, base + size)` is halved until one element is left, and that element decides between
a hit, `.ok i`, and an insertion point, `.error i`. The answer is computed on any list; it
means something on a list the comparator splits into elements below, at and above what is
sought (`Splits`), and there `binarySearchBy_ok` and `binarySearchBy_error` say what. On a list
that is strictly sorted by a key, a key is found exactly if it is there (`binarySearchBy_compare`).

`partitionPoint p l` is the same search for where a predicate stops holding; on a list where it
holds of a first part only, what follows that point is a filter (`drop_partitionPoint`).
-/

namespace MoonCore

variable {α : Type*}

/-- The halving loop: the base the window `[base, base + size)` shrinks to. The fuel bounds
the number of halvings; the length of the list is always enough. -/
def binarySearchLoop (cmp : α → Ordering) (l : List α) : ℕ → ℕ → ℕ → ℕ
  | 0, base, _ => base
  | fuel + 1, base, size =>
    if size ≤ 1 then base
    else
      match l[base + size / 2]? with
      | some mid =>
        binarySearchLoop cmp l fuel (if cmp mid = .gt then base else base + size / 2)
          (size - size / 2)
      | none => base

/-- Binary search by a comparator: `.ok i` for a match at `i`, `.error i` for the index at
which a matching element could be inserted. -/
def binarySearchBy (cmp : α → Ordering) (l : List α) : Except ℕ ℕ :=
  let base := binarySearchLoop cmp l l.length 0 l.length
  match l[base]? with
  | none => .error 0
  | some x =>
    match cmp x with
    | .eq => .ok base
    | .lt => .error (base + 1)
    | .gt => .error base

/-- The comparator splits the list: what precedes an element that is not above is below,
and what follows an element that is not below is above. -/
def Splits (cmp : α → Ordering) (l : List α) : Prop :=
  l.Pairwise fun x y => (cmp y ≠ .gt → cmp x = .lt) ∧ (cmp x ≠ .lt → cmp y = .gt)

theorem Splits.lt_of_lt {cmp : α → Ordering} {l : List α} (h : Splits cmp l) {i j : ℕ}
    (hi : i < l.length) (hj : j < l.length) (hij : i < j) (hc : cmp l[j] ≠ .gt) :
    cmp l[i] = .lt :=
  (List.pairwise_iff_getElem.mp h i j hi hj hij).1 hc

theorem Splits.gt_of_lt {cmp : α → Ordering} {l : List α} (h : Splits cmp l) {i j : ℕ}
    (hi : i < l.length) (hj : j < l.length) (hij : i < j) (hc : cmp l[i] ≠ .lt) :
    cmp l[j] = .gt :=
  (List.pairwise_iff_getElem.mp h i j hi hj hij).2 hc

/-- What the halving loop keeps: the base is inside the window, it is not above what is
sought unless it never moved, and everything behind the window is above. -/
private structure LoopInv (cmp : α → Ordering) (l : List α) (base size : ℕ) : Prop where
  pos : 0 < size
  bound : base + size ≤ l.length
  base_le : ∀ h : base < l.length, base = 0 ∨ cmp l[base] ≠ .gt
  behind : ∀ j (h : j < l.length), base + size ≤ j → cmp l[j] = .gt

/-- One halving keeps the loop's invariant. -/
private theorem LoopInv.halve {cmp : α → Ordering} {l : List α} (hs : Splits cmp l)
    {base size : ℕ} (h : LoopInv cmp l base size) (hsize : 1 < size)
    (hmid : base + size / 2 < l.length) :
    LoopInv cmp l (if cmp l[base + size / 2] = .gt then base else base + size / 2)
      (size - size / 2) := by
  obtain ⟨-, hbound, hbase, hbehind⟩ := h
  split_ifs with hc
  · refine ⟨by omega, by omega, hbase, fun j hj hle => ?_⟩
    rcases Nat.lt_or_eq_of_le (show base + size / 2 ≤ j by omega) with hlt | rfl
    · exact hs.gt_of_lt hmid hj hlt (by simp [hc])
    · exact hc
  · exact ⟨by omega, by omega, fun _ => .inr hc, fun j hj hle => hbehind j hj (by omega)⟩

/-- With enough fuel the loop ends on a window of one element. -/
private theorem loopInv_loop {cmp : α → Ordering} {l : List α} (hs : Splits cmp l)
    (fuel base size : ℕ) (h : LoopInv cmp l base size) (hfuel : size ≤ fuel) :
    LoopInv cmp l (binarySearchLoop cmp l fuel base size) 1 := by
  induction fuel generalizing base size with
  | zero => exact absurd h.pos (by omega)
  | succ fuel ih =>
    rw [binarySearchLoop]
    split_ifs with hsize
    · obtain rfl : size = 1 := by have := h.pos; omega
      exact h
    · have hmid : base + size / 2 < l.length := by have := h.bound; omega
      rw [List.getElem?_eq_getElem hmid]
      exact ih _ _ (h.halve hs (by omega) hmid) (by omega)

/-- Where the search ends on a nonempty list. -/
private theorem loopInv_base {cmp : α → Ordering} {l : List α} (hs : Splits cmp l)
    (hl : l ≠ []) : LoopInv cmp l (binarySearchLoop cmp l l.length 0 l.length) 1 := by
  refine loopInv_loop hs _ _ _ ⟨List.length_pos_iff.mpr hl, by omega, fun _ => .inl rfl, ?_⟩
    (Nat.le_refl _)
  intro j hj hle
  omega

/-- A hit is a hit. -/
theorem binarySearchBy_ok {cmp : α → Ordering} {l : List α} {i : ℕ}
    (h : binarySearchBy cmp l = .ok i) : ∃ hi : i < l.length, cmp l[i] = .eq := by
  simp only [binarySearchBy] at h
  generalize binarySearchLoop cmp l l.length 0 l.length = base at h
  rcases hx : l[base]? with _ | x
  · simp [hx] at h
  · obtain ⟨hlt, rfl⟩ := List.getElem?_eq_some_iff.mp hx
    simp only [hx] at h
    split at h <;> cases h
    exact ⟨hlt, ‹_›⟩

/-- A miss comes with the insertion point: everything before it is below what is sought,
everything from it on is above. -/
theorem binarySearchBy_error {cmp : α → Ordering} {l : List α} (hs : Splits cmp l) {i : ℕ}
    (h : binarySearchBy cmp l = .error i) :
    i ≤ l.length ∧ (∀ x ∈ l.take i, cmp x = .lt) ∧ ∀ x ∈ l.drop i, cmp x = .gt := by
  rcases eq_or_ne l [] with rfl | hl
  · obtain rfl : 0 = i := by simpa [binarySearchBy] using h
    simp
  have hinv := loopInv_base hs hl
  simp only [binarySearchBy] at h
  generalize binarySearchLoop cmp l l.length 0 l.length = base at h hinv
  have hlt : base < l.length := by have := hinv.bound; omega
  simp only [List.forall_mem_iff_getElem, List.length_take, List.length_drop, List.getElem_take,
    List.getElem_drop]
  rw [List.getElem?_eq_getElem hlt] at h
  rcases hc : cmp l[base] with _ | _ | _ <;> simp only [hc] at h
  · obtain rfl : base + 1 = i := Except.error.inj h
    refine ⟨by omega, fun j hj => ?_, fun j hj => hinv.behind _ (by omega) (by omega)⟩
    rcases Nat.lt_or_eq_of_le (show j ≤ base by omega) with hjb | rfl
    · exact hs.lt_of_lt (by omega) hlt hjb (by simp [hc])
    · exact hc
  · cases h
  · obtain rfl : base = i := Except.error.inj h
    obtain rfl : base = 0 := (hinv.base_le hlt).resolve_right (by simp [hc])
    refine ⟨by omega, fun j hj => by omega, fun j hj => ?_⟩
    rcases Nat.eq_zero_or_pos j with rfl | hj0
    · simpa using hc
    · simpa using hs.gt_of_lt hlt (by omega) hj0 (by simp [hc])

/-- A key is found, on a list that is strictly sorted by it, exactly if it is there. -/
theorem binarySearchBy_compare {κ : Type*} [LinearOrder κ] {f : α → κ} {l : List α}
    (hl : (l.map f).Pairwise (· < ·)) {k : κ} {a : α} :
    (∃ i, binarySearchBy (fun x => compare (f x) k) l = .ok i ∧ l[i]? = some a) ↔
      a ∈ l ∧ f a = k := by
  have hs : Splits (fun x => compare (f x) k) l := by
    refine (List.pairwise_map.mp hl).imp fun {x y} hxy => ⟨fun hy => ?_, fun hx => ?_⟩
    · rw [Ne, compare_gt_iff_gt, not_lt] at hy
      exact compare_lt_iff_lt.mpr (hxy.trans_le hy)
    · rw [Ne, compare_lt_iff_lt, not_lt] at hx
      exact compare_gt_iff_gt.mpr (hx.trans_lt hxy)
  constructor
  · rintro ⟨i, hfound, ha⟩
    obtain ⟨hi, hkey⟩ := binarySearchBy_ok hfound
    obtain rfl : l[i] = a := by rwa [List.getElem?_eq_getElem hi, Option.some.injEq] at ha
    exact ⟨List.getElem_mem hi, compare_eq_iff_eq.mp hkey⟩
  · rintro ⟨hmem, rfl⟩
    have hnodup : (l.map f).Nodup := hl.imp ne_of_lt
    cases hfound : binarySearchBy (fun x => compare (f x) (f a)) l with
    | ok i =>
      obtain ⟨hi, hkey⟩ := binarySearchBy_ok hfound
      refine ⟨i, rfl, ?_⟩
      have hsame : l[i] = a := List.inj_on_of_nodup_map hnodup (List.getElem_mem hi) hmem
        (compare_eq_iff_eq.mp hkey)
      rw [List.getElem?_eq_getElem hi, hsame]
    | error i =>
      -- `a` would be before the insertion point or from it on, and is neither
      obtain ⟨-, hbelow, habove⟩ := binarySearchBy_error hs hfound
      rw [← List.take_append_drop i l, List.mem_append] at hmem
      rcases hmem with ha | ha
      · exact absurd (compare_lt_iff_lt.mp (hbelow a ha)) (lt_irrefl _)
      · exact absurd (compare_gt_iff_gt.mp (habove a ha)) (lt_irrefl _)

/-- Where a predicate stops holding. -/
def partitionPoint (p : α → Bool) (l : List α) : ℕ :=
  match binarySearchBy (fun x => if p x then .lt else .gt) l with
  | .ok i => i
  | .error i => i

/-- On a list where the predicate holds of a first part only, it holds before the point and fails
after it. -/
theorem partitionPoint_spec {p : α → Bool} {l : List α} (hl : l.Pairwise fun x y => p y → p x) :
    partitionPoint p l ≤ l.length ∧ (∀ x ∈ l.take (partitionPoint p l), p x) ∧
      ∀ x ∈ l.drop (partitionPoint p l), ¬ p x := by
  have hs : Splits (fun x => if p x then .lt else .gt) l := by
    refine hl.imp fun {x y} hxy => ⟨fun hy => ?_, fun hx => ?_⟩
    · have hpy : p y := by simpa using hy
      simp [hxy hpy]
    · have hpx : ¬ p x := by simpa using hx
      simpa using fun hpy => hpx (hxy hpy)
  rw [partitionPoint]
  cases hfound : binarySearchBy (fun x => if p x then .lt else .gt) l with
  | ok i =>
    obtain ⟨hi, heq⟩ := binarySearchBy_ok hfound
    split at heq <;> cases heq
  | error i =>
    obtain ⟨hle, hbelow, habove⟩ := binarySearchBy_error hs hfound
    refine ⟨hle, fun x hx => ?_, fun x hx => ?_⟩
    · simpa using hbelow x hx
    · simpa using habove x hx

/-- What follows the point is what fails the predicate. -/
theorem drop_partitionPoint {p : α → Bool} {l : List α} (hl : l.Pairwise fun x y => p y → p x) :
    l.drop (partitionPoint p l) = l.filter fun x => !p x := by
  obtain ⟨-, hbefore, hafter⟩ := partitionPoint_spec hl
  conv_rhs => rw [← List.take_append_drop (partitionPoint p l) l]
  rw [List.filter_append, List.filter_eq_nil_iff.mpr, List.filter_eq_self.mpr, List.nil_append]
  · intro x hx
    simpa using hafter x hx
  · intro x hx
    simpa using hbefore x hx

/-- Insertion at an index, as a cut of the list. -/
theorem insertIdx_eq_take_append_cons_drop {l : List α} {i : ℕ} (h : i ≤ l.length) (x : α) :
    l.insertIdx i x = l.take i ++ x :: l.drop i := by
  induction l generalizing i with
  | nil =>
    obtain rfl : i = 0 := Nat.le_zero.mp h
    rfl
  | cons a l ih =>
    cases i with
    | zero => rfl
    | succ i => simp [ih (Nat.le_of_succ_le_succ h)]

end MoonCore
