import Mathlib.Algebra.Order.Floor.Ring
import Mathlib.Algebra.Order.Ring.Int
import Mathlib.Data.Nat.Find
import Mathlib.Data.Rat.Floor
import Mathlib.Tactic.FieldSimp
import Mathlib.Tactic.Linarith
import Mathlib.Tactic.Ring

/-!
# Decimals of a bounded mantissa

A decimal is an integer of bounded size over a power of ten of bounded exponent. Sums and
quotients of decimals are in general not decimals; an implementation rounds them to the
precision available:

* `roundHalfEven`, the nearest integer, halves to the even one;
* `availableScale`, the largest exponent at which a number still has a mantissa in bounds;
* `rounded`, the number rounded there; exact on every decimal (`rounded_toRat`), and whole
  exactly for the numbers within half a last place of an integer (`rounded_whole_iff`);
* `IsCut`, the integer left when what comes after the point is cut off, which a number rounded
  first has too unless it passes for a larger one (`isCut_of_trunc_le`, `toRat_eq_trunc_of_lt`);
* `rem`, the remainder of one decimal by another.

Nothing here is about a particular program.
-/

namespace MoonCore

/-! ### Nearest integer, halves to even -/

/-- The integer nearest to a rational, halves to the even one. -/
def roundHalfEven (q : ℚ) : ℤ :=
  if q - ⌊q⌋ < 1 / 2 then ⌊q⌋
  else if 1 / 2 < q - ⌊q⌋ then ⌊q⌋ + 1
  else if 2 ∣ ⌊q⌋ then ⌊q⌋ else ⌊q⌋ + 1

@[simp]
theorem roundHalfEven_intCast (n : ℤ) : roundHalfEven n = n := by
  simp [roundHalfEven]

theorem abs_sub_roundHalfEven_le (q : ℚ) : |q - roundHalfEven q| ≤ 1 / 2 := by
  have hlo := Int.floor_le q
  have hhi := Int.lt_floor_add_one q
  rw [roundHalfEven]
  split_ifs <;> push_cast <;> rw [abs_le] <;> constructor <;> linarith

/-- An even integer takes the whole closed interval of radius one half. -/
theorem roundHalfEven_eq_iff {q : ℚ} {n : ℤ} (hn : 2 ∣ n) :
    roundHalfEven q = n ↔ |q - n| ≤ 1 / 2 := by
  constructor
  · intro h
    rw [← h]
    exact abs_sub_roundHalfEven_le q
  · intro h
    obtain ⟨hlo, hhi⟩ := abs_le.mp h
    rcases le_or_gt (n : ℚ) q with hge | hlt
    · -- the number is above: its floor is the integer itself
      have hfloor : ⌊q⌋ = n := Int.floor_eq_iff.mpr ⟨hge, by linarith⟩
      rw [roundHalfEven, hfloor, if_neg (not_lt.mpr (show q - n ≤ 1 / 2 by linarith)), if_pos hn,
        ite_self]
    · -- the number is below: its floor is the odd predecessor, half a unit away at most
      have hfloor : ⌊q⌋ = n - 1 := Int.floor_eq_iff.mpr ⟨by push_cast; linarith, by
        push_cast; linarith⟩
      have hodd : ¬ (2 : ℤ) ∣ n - 1 := by omega
      have hge : ¬ q - ((n - 1 : ℤ) : ℚ) < 1 / 2 := by push_cast; linarith
      rw [roundHalfEven, hfloor, if_neg hge, if_neg hodd, ite_self, sub_add_cancel]

theorem le_roundHalfEven {q : ℚ} {n : ℤ} (h : n ≤ q) : n ≤ roundHalfEven q := by
  have hnear := (abs_le.mp (abs_sub_roundHalfEven_le q)).2
  have hlt : (n : ℚ) < roundHalfEven q + 1 := by linarith
  exact Int.lt_add_one_iff.mp (by exact_mod_cast hlt)

theorem roundHalfEven_mono {q r : ℚ} (h : q ≤ r) : roundHalfEven q ≤ roundHalfEven r := by
  by_contra hlt
  have hstep : (roundHalfEven r : ℚ) + 1 ≤ roundHalfEven q := by exact_mod_cast not_le.mp hlt
  have hq := (abs_le.mp (abs_sub_roundHalfEven_le q)).1
  have hr := (abs_le.mp (abs_sub_roundHalfEven_le r)).2
  -- both are halfway between the two integers
  obtain rfl : q = r := by linarith
  exact hlt le_rfl

/-- Rounding does not look at the sign. -/
theorem roundHalfEven_neg (q : ℚ) : roundHalfEven (-q) = -roundHalfEven q := by
  have hlo := Int.floor_le q
  have hhi := Int.lt_floor_add_one q
  rcases eq_or_lt_of_le hlo with hwhole | hlt
  · rw [← hwhole, ← Int.cast_neg, roundHalfEven_intCast, roundHalfEven_intCast]
  · have hfloor : ⌊-q⌋ = -⌊q⌋ - 1 :=
      Int.floor_eq_iff.mpr ⟨by push_cast; linarith, by push_cast; linarith⟩
    have hcast : -q - ((-⌊q⌋ - 1 : ℤ) : ℚ) = 1 - (q - ⌊q⌋) := by push_cast; ring
    rw [roundHalfEven, roundHalfEven, hfloor, hcast]
    have hparity : (2 : ℤ) ∣ -⌊q⌋ - 1 ↔ ¬ (2 : ℤ) ∣ ⌊q⌋ := by omega
    rcases lt_trichotomy (q - ⌊q⌋) (1 / 2) with hbelow | hhalf | habove
    · rw [if_neg (by linarith), if_pos (by linarith), if_pos hbelow]
      ring
    · have hnot : ¬ 1 - (q - ⌊q⌋) < 1 / 2 := by linarith
      have hnot' : ¬ 1 / 2 < 1 - (q - ⌊q⌋) := by linarith
      rw [if_neg hnot, if_neg hnot', if_neg hhalf.not_lt, if_neg hhalf.not_gt]
      simp only [hparity]
      split_ifs <;> ring
    · rw [if_pos (by linarith), if_neg habove.not_gt, if_pos habove]
      ring

theorem abs_roundHalfEven (q : ℚ) : |roundHalfEven q| = roundHalfEven |q| := by
  rcases le_total 0 q with hq | hq
  · rw [abs_of_nonneg hq, abs_of_nonneg (le_roundHalfEven (by exact_mod_cast hq))]
  · have hneg : 0 ≤ roundHalfEven (-q) := le_roundHalfEven (by push_cast; linarith)
    rw [abs_of_nonpos hq, ← abs_neg, ← roundHalfEven_neg, abs_of_nonneg hneg]

/-! ### Cutting off -/

/-- The integer that is left of a number when what comes after the point is cut off. -/
structure IsCut (q : ℚ) (n : ℤ) : Prop where
  le : |(n : ℚ)| ≤ |q|
  lt : |q| < |(n : ℚ)| + 1
  sign : 0 ≤ n * q

/-- Between a number and its cut there is less than one. -/
theorem IsCut.abs_sub {q : ℚ} {n : ℤ} (h : IsCut q n) : |q - n| = |q| - |(n : ℚ)| := by
  have hprod : |(n : ℚ)| * |q| = n * q := by rw [← abs_mul, abs_of_nonneg h.sign]
  refine (sq_eq_sq₀ (abs_nonneg _) (sub_nonneg.mpr h.le)).mp ?_
  rw [sub_sq, sq_abs, sq_abs, sq_abs, mul_assoc, mul_comm |q|, hprod]
  ring

theorem IsCut.abs_sub_lt_one {q : ℚ} {n : ℤ} (h : IsCut q n) : |q - n| < 1 := by
  rw [h.abs_sub]
  linarith [h.lt]

/-- A number has one cut only. -/
theorem IsCut.unique {q : ℚ} {m n : ℤ} (hm : IsCut q m) (hn : IsCut q n) : m = n := by
  have habs : |m| = |n| := by
    have hmn : |(m : ℚ)| < |(n : ℚ)| + 1 := hm.le.trans_lt hn.lt
    have hnm : |(n : ℚ)| < |(m : ℚ)| + 1 := hn.le.trans_lt hm.lt
    have hmn' : |m| < |n| + 1 := by exact_mod_cast hmn
    have hnm' : |n| < |m| + 1 := by exact_mod_cast hnm
    omega
  rcases abs_eq_abs.mp habs with heq | hneg
  · exact heq
  · -- opposite signs leave nothing but zero
    have hq : (n : ℚ) * q = 0 := by
      have hsign := hm.sign
      rw [hneg] at hsign
      push_cast at hsign
      linarith [hn.sign]
    rcases mul_eq_zero.mp hq with h0 | h0
    · have hzero : n = 0 := by exact_mod_cast h0
      rw [hneg, hzero, neg_zero]
    · have hzero : |(n : ℚ)| = 0 := le_antisymm (by simpa [h0] using hn.le) (abs_nonneg _)
      have hzero' : n = 0 := by exact_mod_cast abs_eq_zero.mp hzero
      rw [hneg, hzero', neg_zero]

theorem IsCut.neg {q : ℚ} {n : ℤ} (h : IsCut q n) : IsCut (-q) (-n) where
  le := by simpa using h.le
  lt := by simpa using h.lt
  sign := by simpa using h.sign

theorem isCut_tdiv (x : ℤ) {y : ℕ} (hy : 0 < y) : IsCut (x / y : ℚ) (x.tdiv y) := by
  have hpos : (0 : ℚ) < y := by exact_mod_cast hy
  have hnat (a : ℕ) : IsCut (a / y : ℚ) ((a : ℤ).tdiv y) := by
    have hdiv : (a : ℤ).tdiv y = (a / y : ℕ) := rfl
    have hle : ((a / y : ℕ) : ℚ) ≤ a / y := by
      rw [le_div_iff₀ hpos]
      exact_mod_cast Nat.div_mul_le_self a y
    have hlt : (a / y : ℚ) < (a / y : ℕ) + 1 := by
      rw [div_lt_iff₀ hpos]
      exact_mod_cast Nat.lt_mul_of_div_lt (Nat.lt_succ_self _) hy
    have hnonneg : (0 : ℚ) ≤ a / y := by positivity
    rw [hdiv]
    refine ⟨?_, ?_, ?_⟩ <;> rw [Int.cast_natCast]
    · rwa [Nat.abs_cast, abs_of_nonneg hnonneg]
    · rwa [Nat.abs_cast, abs_of_nonneg hnonneg]
    · exact mul_nonneg (Nat.cast_nonneg _) hnonneg
  obtain ⟨a, rfl | rfl⟩ := x.eq_nat_or_neg
  · exact hnat a
  · have hneg := (hnat a).neg
    rw [Int.neg_tdiv]
    rwa [← neg_div, ← Int.cast_natCast, ← Int.cast_neg] at hneg

/-! ### The format -/

/-- An integer below `bound` in size over a power of ten, `maxScale` at most. -/
structure Decimal (bound maxScale : ℕ) where
  mantissa : ℤ
  scale : ℕ
  mantissa_lt : mantissa.natAbs < bound
  scale_le : scale ≤ maxScale
  deriving DecidableEq

namespace Decimal

variable {bound maxScale : ℕ}

/-- A decimal of these digits with the point there. -/
def ofParts (mantissa : ℤ) (scale : ℕ) (h : mantissa.natAbs < bound ∧ scale ≤ maxScale) :
    Decimal bound maxScale :=
  ⟨mantissa, scale, h.1, h.2⟩

/-- The number a decimal stands for. -/
def toRat (d : Decimal bound maxScale) : ℚ := d.mantissa / 10 ^ d.scale

/-- The whole part, cut towards zero. -/
def trunc (d : Decimal bound maxScale) : ℤ := d.mantissa.tdiv (10 ^ d.scale)

theorem trunc_eq {d : Decimal bound maxScale} {n : ℤ} (h : d.toRat = n) : d.trunc = n := by
  have hpow : (10 : ℚ) ^ d.scale ≠ 0 := by positivity
  have hm : (d.mantissa : ℚ) = ((n * 10 ^ d.scale : ℤ) : ℚ) := by
    rw [toRat, div_eq_iff hpow] at h
    rw [h]
    push_cast
    rfl
  rw [trunc, Int.cast_injective hm, Int.mul_tdiv_cancel _ (by positivity)]

theorem mantissa_eq_zero_iff {d : Decimal bound maxScale} : d.mantissa = 0 ↔ d.toRat = 0 := by
  have hpow : (10 : ℚ) ^ d.scale ≠ 0 := by positivity
  simp [toRat, div_eq_zero_iff, hpow]

/-- The part after the point. -/
def fract (d : Decimal bound maxScale) : Decimal bound maxScale where
  mantissa := d.mantissa.tmod (10 ^ d.scale)
  scale := d.scale
  mantissa_lt := by
    rw [Int.natAbs_tmod]
    exact lt_of_le_of_lt (Nat.mod_le _ _) d.mantissa_lt
  scale_le := d.scale_le

theorem toRat_fract (d : Decimal bound maxScale) : d.fract.toRat = d.toRat - d.trunc := by
  have hpow : (10 : ℚ) ^ d.scale ≠ 0 := by positivity
  have hsplit : (d.mantissa : ℚ) = d.mantissa.tmod (10 ^ d.scale) + 10 ^ d.scale * d.trunc := by
    exact_mod_cast (Int.tmod_add_mul_tdiv d.mantissa (10 ^ d.scale)).symm
  have hval : d.toRat = (d.mantissa : ℚ) / 10 ^ d.scale := rfl
  have hfract : d.fract.toRat = (d.mantissa.tmod (10 ^ d.scale) : ℤ) / 10 ^ d.scale := rfl
  rw [hfract, hval, hsplit, add_div, mul_div_cancel_left₀ _ hpow, add_sub_cancel_right]

/-! ### Rounding to the precision available -/

/-- At scale `s` the number rounds to a mantissa in bounds. -/
def Fits (bound : ℕ) (q : ℚ) (s : ℕ) : Prop := (roundHalfEven (q * 10 ^ s)).natAbs < bound

instance (bound : ℕ) (q : ℚ) : DecidablePred (Fits bound q) :=
  fun s => inferInstanceAs (Decidable ((roundHalfEven (q * 10 ^ s)).natAbs < bound))

/-- The precision available to a number: the largest scale at which it fits. -/
def availableScale (bound maxScale : ℕ) (q : ℚ) : ℕ := Nat.findGreatest (Fits bound q) maxScale

/-- A number rounded to the precision available; `none` where not even its whole part fits. -/
def rounded (bound maxScale : ℕ) (q : ℚ) : Option (Decimal bound maxScale) :=
  if h : Fits bound q (availableScale bound maxScale q) then
    some ⟨roundHalfEven (q * 10 ^ availableScale bound maxScale q), availableScale bound maxScale q,
      h, Nat.findGreatest_le _⟩
  else none

theorem rounded_eq_some {q : ℚ} {r : Decimal bound maxScale}
    (h : rounded bound maxScale q = some r) :
    Fits bound q (availableScale bound maxScale q) ∧
      r.toRat = (roundHalfEven (q * 10 ^ availableScale bound maxScale q) : ℤ) /
        10 ^ availableScale bound maxScale q := by
  rw [rounded] at h
  split_ifs at h with hfits
  obtain rfl := Option.some.inj h
  exact ⟨hfits, rfl⟩

/-- A number rounds to something exactly when it fits at the precision available. -/
theorem rounded_isSome_iff {q : ℚ} :
    (rounded bound maxScale q).isSome ↔ Fits bound q (availableScale bound maxScale q) := by
  rw [rounded]
  split_ifs with h <;> simp [h]

/-- Every decimal is rounded to itself. -/
theorem rounded_toRat (d : Decimal bound maxScale) :
    ∃ r, rounded bound maxScale d.toRat = some r ∧ r.toRat = d.toRat := by
  have hat : ∀ k, d.toRat * 10 ^ (d.scale + k) = ((d.mantissa * 10 ^ k : ℤ) : ℚ) := by
    intro k
    rw [toRat, pow_add]
    push_cast
    field_simp
  have hfits : Fits bound d.toRat d.scale := by
    have h0 := hat 0
    rw [Nat.add_zero, pow_zero, mul_one] at h0
    rw [Fits, h0, roundHalfEven_intCast]
    exact d.mantissa_lt
  have hspec : Fits bound d.toRat (availableScale bound maxScale d.toRat) :=
    Nat.findGreatest_spec d.scale_le hfits
  obtain ⟨k, hk⟩ := Nat.exists_eq_add_of_le (Nat.le_findGreatest d.scale_le hfits)
  obtain ⟨r, hr⟩ := Option.isSome_iff_exists.mp (rounded_isSome_iff.mpr hspec)
  refine ⟨r, hr, ?_⟩
  have hscale : availableScale bound maxScale d.toRat = d.scale + k := hk
  have hpow : (10 : ℚ) ^ (d.scale + k) ≠ 0 := by positivity
  rw [(rounded_eq_some hr).2, hscale, hat k, roundHalfEven_intCast, ← hat k,
    mul_div_assoc, div_self hpow, mul_one]

/-- The whole numbers a rounding can end on: those within half a unit of the last place that
is available. -/
theorem rounded_whole_iff {q : ℚ} {r : Decimal bound maxScale}
    (h : rounded bound maxScale q = some r) :
    (∃ n : ℤ, r.toRat = n) ↔
      ∃ n : ℤ, |q - n| ≤ 1 / (2 * 10 ^ availableScale bound maxScale q) := by
  obtain ⟨-, hr⟩ := rounded_eq_some h
  rw [hr]
  set s := availableScale bound maxScale q
  have hpow : (0 : ℚ) < 10 ^ s := by positivity
  have hdist : ∀ n : ℤ, |q - n| ≤ 1 / (2 * 10 ^ s) ↔
      |q * 10 ^ s - ((n * 10 ^ s : ℤ) : ℚ)| ≤ 1 / 2 := by
    intro n
    have hfactor : q * 10 ^ s - ((n * 10 ^ s : ℤ) : ℚ) = (q - n) * 10 ^ s := by push_cast; ring
    rw [hfactor, abs_mul, abs_of_pos hpow, ← le_div_iff₀ hpow, div_div]
  simp only [hdist, div_eq_iff hpow.ne']
  constructor
  · rintro ⟨n, hn⟩
    refine ⟨n, ?_⟩
    have hcast : ((n * 10 ^ s : ℤ) : ℚ) = roundHalfEven (q * 10 ^ s) := by rw [hn]; push_cast; rfl
    rw [hcast]
    exact abs_sub_roundHalfEven_le _
  · rintro ⟨n, hn⟩
    rcases Nat.eq_zero_or_pos s with hs | hs
    · -- no digit after the point: every result is whole
      exact ⟨roundHalfEven (q * 10 ^ s), by rw [hs, pow_zero, mul_one, mul_one]⟩
    · have heven : (2 : ℤ) ∣ n * 10 ^ s :=
        Dvd.dvd.mul_left (dvd_pow (by norm_num) hs.ne') n
      refine ⟨n, ?_⟩
      rw [(roundHalfEven_eq_iff heven).mpr hn]
      push_cast
      rfl

/-! ### Cutting off what was rounded -/

theorem isCut_trunc (d : Decimal bound maxScale) : IsCut d.toRat d.trunc := by
  have hval : d.toRat = (d.mantissa : ℚ) / (10 ^ d.scale : ℕ) := by rw [toRat]; push_cast; rfl
  have htrunc : d.trunc = d.mantissa.tdiv (10 ^ d.scale : ℕ) := by rw [trunc]; push_cast; rfl
  rw [hval, htrunc]
  exact isCut_tdiv d.mantissa (by positivity)

/-- The number passes for a whole one in the digits it has room for. -/
def PassesFor (bound maxScale : ℕ) (q : ℚ) (n : ℤ) : Prop :=
  roundHalfEven (q * 10 ^ availableScale bound maxScale q) =
    n * 10 ^ availableScale bound maxScale q

/-- An integer passes for itself. -/
theorem passesFor_intCast (n : ℤ) : PassesFor bound maxScale n n := by
  have hcast (s : ℕ) : (n : ℚ) * 10 ^ s = ((n * 10 ^ s : ℤ) : ℚ) := by push_cast; rfl
  rw [PassesFor, hcast, roundHalfEven_intCast]

theorem passesFor_iff {q : ℚ} {r : Decimal bound maxScale}
    (h : rounded bound maxScale q = some r) {n : ℤ} :
    PassesFor bound maxScale q n ↔ r.toRat = n := by
  have hpow : (10 : ℚ) ^ availableScale bound maxScale q ≠ 0 := by positivity
  rw [(rounded_eq_some h).2, div_eq_iff hpow, PassesFor]
  exact_mod_cast Iff.rfl

/-- A rounded number is a whole number of units of its last place, half a unit away at most. -/
theorem rounded_units {q : ℚ} {r : Decimal bound maxScale}
    (h : rounded bound maxScale q = some r) :
    ∃ units : ℤ, |r.toRat| * 10 ^ availableScale bound maxScale q = |(units : ℚ)| ∧
      |r.toRat - q| * 10 ^ availableScale bound maxScale q ≤ 1 / 2 := by
  obtain ⟨-, hval⟩ := rounded_eq_some h
  set s := availableScale bound maxScale q
  have hpow : (0 : ℚ) < 10 ^ s := by positivity
  refine ⟨roundHalfEven (q * 10 ^ s), ?_, ?_⟩
  · rw [hval, abs_div, abs_of_pos hpow, div_mul_cancel₀ _ hpow.ne']
  · calc |r.toRat - q| * 10 ^ s = |(r.toRat - q) * 10 ^ s| := by rw [abs_mul, abs_of_pos hpow]
      _ = |q * 10 ^ s - roundHalfEven (q * 10 ^ s)| := by
        rw [sub_mul, hval, div_mul_cancel₀ _ hpow.ne', abs_sub_comm]
      _ ≤ 1 / 2 := abs_sub_roundHalfEven_le _

/-- A whole part beyond the number is all there is of the rounded one. -/
theorem toRat_eq_trunc_of_lt {q : ℚ} {r : Decimal bound maxScale}
    (h : rounded bound maxScale q = some r) (hbeyond : |q| < |(r.trunc : ℚ)|) :
    r.toRat = r.trunc := by
  obtain ⟨units, hunits, hnear⟩ := rounded_units h
  set s := availableScale bound maxScale q
  have hpow : (0 : ℚ) < 10 ^ s := by positivity
  obtain ⟨hle, -, hsign⟩ := r.isCut_trunc
  -- a unit above its whole part the rounded number would be more than half a unit away
  have hint : |units| = |r.trunc| * 10 ^ s := by
    have hge := mul_le_mul_of_nonneg_right hle hpow.le
    have hbeyond' := mul_lt_mul_of_pos_right hbeyond hpow
    have hnear' := (mul_le_mul_of_nonneg_right (abs_sub_abs_le_abs_sub r.toRat q) hpow.le).trans
      hnear
    rw [sub_mul, hunits] at hnear'
    rw [hunits] at hge
    have hlt : |(units : ℚ)| < |(r.trunc : ℚ)| * 10 ^ s + 1 := by linarith
    have hge' : |r.trunc| * 10 ^ s ≤ |units| := by exact_mod_cast hge
    have hlt' : |units| < |r.trunc| * 10 ^ s + 1 := by exact_mod_cast hlt
    omega
  have habs : |r.toRat| = |(r.trunc : ℚ)| := by
    refine mul_right_cancel₀ hpow.ne' ?_
    rw [hunits]
    exact_mod_cast hint
  rcases abs_eq_abs.mp habs with heq | hneg
  · exact heq
  · rw [hneg, mul_neg] at hsign
    have hzero : (r.trunc : ℚ) = 0 :=
      mul_self_eq_zero.mp (le_antisymm (by linarith) (mul_self_nonneg _))
    rw [hneg, hzero, neg_zero]

/-- A whole part within the number is its cut. -/
theorem isCut_of_trunc_le {q : ℚ} {r : Decimal bound maxScale}
    (h : rounded bound maxScale q = some r) (hwithin : |(r.trunc : ℚ)| ≤ |q|) :
    IsCut q r.trunc := by
  obtain ⟨units, hunits, hnear⟩ := rounded_units h
  set s := availableScale bound maxScale q
  have hpow : (0 : ℚ) < 10 ^ s := by positivity
  obtain ⟨hle, hlt, hsign⟩ := r.isCut_trunc
  refine ⟨hwithin, ?_, ?_⟩
  · by_contra hfar
    have hfar' := mul_le_mul_of_nonneg_right (not_lt.mp hfar) hpow.le
    have hnear' := (mul_le_mul_of_nonneg_right (abs_sub_abs_le_abs_sub q r.toRat) hpow.le).trans
      ((congrArg (· * (10 : ℚ) ^ s) (abs_sub_comm _ _)).trans_le hnear)
    have hlt' := mul_lt_mul_of_pos_right hlt hpow
    rw [sub_mul, hunits] at hnear'
    rw [hunits] at hlt'
    have hint : |units| < (|r.trunc| + 1) * 10 ^ s := by exact_mod_cast hlt'
    have hint' : |(units : ℚ)| + 1 ≤ (|(r.trunc : ℚ)| + 1) * 10 ^ s := by
      exact_mod_cast Int.add_one_le_iff.mpr hint
    linarith
  · rcases eq_or_ne r.trunc 0 with hzero | hne
    · simp [hzero]
    -- the two are half a unit apart at most, and the whole part is a unit at least
    have hclose : |r.toRat - q| ≤ 1 / 2 :=
      (le_mul_of_one_le_right (abs_nonneg _) (one_le_pow₀ (by norm_num))).trans hnear
    have herror : r.trunc * (r.toRat - q) ≤ |(r.trunc : ℚ)| * (1 / 2) :=
      (le_abs_self _).trans (by
        rw [abs_mul]
        exact mul_le_mul_of_nonneg_left hclose (abs_nonneg _))
    have hunit : (1 : ℚ) ≤ |(r.trunc : ℚ)| := by exact_mod_cast Int.one_le_abs hne
    have hprod : |(r.trunc : ℚ)| * (1 / 2) ≤ r.trunc * r.toRat := by
      rw [← abs_of_nonneg hsign, abs_mul]
      exact mul_le_mul_of_nonneg_left (by linarith) (abs_nonneg _)
    linarith [mul_sub (r.trunc : ℚ) r.toRat q]

theorem fits_iff {q : ℚ} {s : ℕ} : Fits bound q s ↔ roundHalfEven (|q| * 10 ^ s) < bound := by
  have hpow : (0 : ℚ) < 10 ^ s := by positivity
  rw [Fits, ← Nat.cast_lt (α := ℤ), Int.natCast_natAbs, abs_roundHalfEven, abs_mul,
    abs_of_pos hpow]

variable (maxScale) in
/-- A number has a rounding exactly if the nearest integer is in bounds. -/
theorem rounded_isSome_iff_fits {q : ℚ} :
    (rounded bound maxScale q).isSome ↔ Fits bound q 0 := by
  rw [rounded_isSome_iff]
  refine ⟨fun h => ?_, Nat.findGreatest_spec (Nat.zero_le _)⟩
  rw [fits_iff] at h ⊢
  refine (roundHalfEven_mono ?_).trans_lt h
  exact mul_le_mul_of_nonneg_left (pow_le_pow_right₀ (by norm_num) (Nat.zero_le _)) (abs_nonneg _)

/-- A number no larger than a mantissa in bounds fits. -/
theorem fits_zero_of_abs_lt {q : ℚ} {n : ℕ} (hn : n < bound) (h : |q| ≤ n) : Fits bound q 0 := by
  have hnear := abs_le.mp (abs_sub_roundHalfEven_le (|q| * 10 ^ 0))
  rw [fits_iff]
  rw [pow_zero, mul_one] at hnear ⊢
  have hlt : (roundHalfEven |q| : ℚ) < n + 1 := by linarith
  have hlt' : roundHalfEven |q| < n + 1 := by exact_mod_cast hlt
  omega

theorem abs_toRat_mul (d : Decimal bound maxScale) :
    |d.toRat| * 10 ^ d.scale = (d.mantissa.natAbs : ℤ) := by
  have hpow : (0 : ℚ) < 10 ^ d.scale := by positivity
  rw [toRat, abs_div, abs_of_pos hpow, div_mul_cancel₀ _ hpow.ne', Int.natCast_natAbs,
    Int.cast_abs]

/-- A decimal with more places than a number has room for, in units of the last place there is
room for, is no larger than the rounding: with a place more, the mantissa of the number would be
too long, while that of the decimal is not. -/
theorem abs_mul_le_of_scale_gt (hbound : 5 < bound % 10) {q : ℚ} {d : Decimal bound maxScale}
    (hgt : availableScale bound maxScale q < d.scale) :
    |d.toRat| * 10 ^ availableScale bound maxScale q ≤
      roundHalfEven (|q| * 10 ^ availableScale bound maxScale q) := by
  set s := availableScale bound maxScale q with hs
  have hover : (bound : ℤ) ≤ roundHalfEven (|q| * 10 ^ (s + 1)) := by
    have hnot := Nat.findGreatest_is_greatest (Nat.lt_succ_self s) (hgt.trans_le d.scale_le)
    rwa [fits_iff, not_lt] at hnot
  have hnear := (abs_le.mp (abs_sub_roundHalfEven_le (|q| * 10 ^ (s + 1)))).1
  have hlast := (abs_le.mp (abs_sub_roundHalfEven_le (|q| * 10 ^ s))).2
  rw [pow_succ, ← mul_assoc] at hover hnear
  have hshort : |d.toRat| * 10 ^ s * 10 + 1 ≤ bound := by
    have hmantissa : |d.toRat| * 10 ^ (s + 1) ≤ (d.mantissa.natAbs : ℤ) := by
      rw [← abs_toRat_mul]
      exact mul_le_mul_of_nonneg_left (pow_le_pow_right₀ (by norm_num) hgt) (abs_nonneg _)
    have hlt : ((d.mantissa.natAbs : ℤ) : ℚ) + 1 ≤ bound := by exact_mod_cast d.mantissa_lt
    rw [pow_succ, ← mul_assoc] at hmantissa
    linarith
  have hover' : (bound : ℚ) ≤ roundHalfEven (|q| * 10 ^ s * 10) := by exact_mod_cast hover
  -- the bound, without its last digit
  obtain ⟨k, hlow, hhigh⟩ : ∃ k : ℤ, k * 10 + 6 ≤ bound ∧ (bound : ℤ) ≤ k * 10 + 9 :=
    ⟨bound / 10, by omega, by omega⟩
  have hlow' : (k : ℚ) * 10 + 6 ≤ bound := by exact_mod_cast hlow
  have hhigh' : (bound : ℚ) ≤ k * 10 + 9 := by exact_mod_cast hhigh
  generalize roundHalfEven (|q| * 10 ^ s) = last at hlast ⊢
  have habove : (k : ℚ) < last := by linarith
  have hceil : ((k + 1 : ℤ) : ℚ) ≤ last :=
    Int.cast_le.mpr (Int.add_one_le_iff.mpr (Int.cast_lt.mp habove))
  push_cast at hceil
  linarith

/-- **Rounding passes no decimal.** Where the shortest mantissa that is too long rounds up when it
loses a digit: a decimal no larger than a number is no larger than its rounding. -/
theorem abs_le_abs_rounded (hbound : 5 < bound % 10) {q : ℚ} {r : Decimal bound maxScale}
    (h : rounded bound maxScale q = some r) {d : Decimal bound maxScale} (hd : |d.toRat| ≤ |q|) :
    |d.toRat| ≤ |r.toRat| := by
  obtain ⟨-, hval⟩ := rounded_eq_some h
  set s := availableScale bound maxScale q with hs
  have hpow : (0 : ℚ) < 10 ^ s := by positivity
  have hr : |r.toRat| * 10 ^ s = roundHalfEven (|q| * 10 ^ s) := by
    rw [hval, abs_div, abs_of_pos hpow, div_mul_cancel₀ _ hpow.ne', ← Int.cast_abs,
      abs_roundHalfEven, abs_mul, abs_of_pos hpow]
  refine le_of_mul_le_mul_right ?_ hpow
  rw [hr]
  rcases le_or_gt d.scale s with hle | hgt
  · -- the decimal is a whole number of units of the last place
    have hscaled := mul_le_mul_of_nonneg_right hd hpow.le
    obtain ⟨k, hk⟩ := Nat.exists_eq_add_of_le hle
    have hunits : |d.toRat| * 10 ^ s = ((d.mantissa.natAbs * 10 ^ k : ℤ) : ℚ) := by
      rw [hk, pow_add, ← mul_assoc, abs_toRat_mul]
      push_cast
      rfl
    rw [hunits] at hscaled ⊢
    exact Int.cast_le.mpr (le_roundHalfEven hscaled)
  · exact abs_mul_le_of_scale_gt hbound hgt

/-! ### Remainders -/

/-- What is left of one decimal after taking away a whole number of times another. -/
def rem (a b : Decimal bound maxScale) : Decimal bound maxScale where
  mantissa :=
    if b.mantissa = 0 then a.mantissa
    else (a.mantissa * 10 ^ (b.scale - a.scale)).tmod (b.mantissa * 10 ^ (a.scale - b.scale))
  scale := if b.mantissa = 0 then a.scale else max a.scale b.scale
  mantissa_lt := by
    split_ifs with hb
    · exact a.mantissa_lt
    · rw [Int.natAbs_tmod]
      rcases le_total b.scale a.scale with hle | hle
      · rw [Nat.sub_eq_zero_of_le hle, pow_zero, mul_one]
        exact (Nat.mod_le _ _).trans_lt a.mantissa_lt
      · rw [Nat.sub_eq_zero_of_le hle, pow_zero, mul_one]
        exact (Nat.mod_lt _ (Int.natAbs_pos.mpr hb)).trans b.mantissa_lt
  scale_le := by
    split_ifs
    · exact a.scale_le
    · exact max_le a.scale_le b.scale_le

/-- Both decimals in units of the longer of their last places. -/
theorem toRat_eq_max_scale (a b : Decimal bound maxScale) :
    a.toRat = (a.mantissa * 10 ^ (b.scale - a.scale) : ℤ) / 10 ^ max a.scale b.scale ∧
      b.toRat = (b.mantissa * 10 ^ (a.scale - b.scale) : ℤ) / 10 ^ max a.scale b.scale := by
  have hshift (d : Decimal bound maxScale) {s : ℕ} (hs : d.scale ≤ s) :
      d.toRat = (d.mantissa * 10 ^ (s - d.scale) : ℤ) / 10 ^ s := by
    obtain ⟨k, rfl⟩ := Nat.exists_eq_add_of_le hs
    rw [Nat.add_sub_cancel_left, toRat, pow_add]
    push_cast
    field_simp
  constructor
  · have h := hshift a (le_max_left a.scale b.scale)
    rwa [show max a.scale b.scale - a.scale = b.scale - a.scale by omega] at h
  · have h := hshift b (le_max_right a.scale b.scale)
    rwa [show max a.scale b.scale - b.scale = a.scale - b.scale by omega] at h

/-- A remainder differs from the number by a whole number of divisors and is smaller than one. -/
theorem toRat_rem (a : Decimal bound maxScale) {b : Decimal bound maxScale} (hb : b.mantissa ≠ 0) :
    (∃ n : ℤ, a.toRat = n * b.toRat + (a.rem b).toRat) ∧ |(a.rem b).toRat| < |b.toRat| := by
  obtain ⟨ha, hb'⟩ := toRat_eq_max_scale a b
  have hrem : (a.rem b).toRat =
      ((a.mantissa * 10 ^ (b.scale - a.scale)).tmod (b.mantissa * 10 ^ (a.scale - b.scale)) : ℤ) /
        10 ^ max a.scale b.scale := by
    rw [toRat, rem]
    simp only [if_neg hb]
  set x := a.mantissa * 10 ^ (b.scale - a.scale)
  set y := b.mantissa * 10 ^ (a.scale - b.scale)
  have hpow : (0 : ℚ) < 10 ^ max a.scale b.scale := by positivity
  have hy : y ≠ 0 := mul_ne_zero hb (by positivity)
  rw [hrem, ha, hb']
  refine ⟨⟨x.tdiv y, ?_⟩, ?_⟩
  · rw [← mul_div_assoc, ← add_div]
    congr 1
    exact_mod_cast (Int.tdiv_mul_add_tmod x y).symm
  · have hlt : |x.tmod y| < |y| := by
      rw [Int.abs_eq_natAbs, Int.abs_eq_natAbs, Int.natAbs_tmod]
      exact_mod_cast Nat.mod_lt _ (Int.natAbs_pos.mpr hy)
    rw [abs_div, abs_div, div_lt_div_iff_of_pos_right (abs_pos.mpr hpow.ne')]
    exact_mod_cast hlt

end Decimal

end MoonCore
