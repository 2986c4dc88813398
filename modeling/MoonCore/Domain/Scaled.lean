import Mathlib.Tactic.NormNum
import MoonCore.Domain.Instrument
import MoonCore.Domain.Order
import MoonCore.ForMathlib.Decimal

/-!
# Prices and quantities as whole increments

`domain::scaled`. A decimal is turned into a whole number of an instrument's ticks or steps by
one division: a quotient with a fraction is refused as off the grid, a whole one is the answer.

The division rounds, though, to the digits a 96-bit mantissa has left beside the quotient's
whole part, and the test for the grid looks at the rounded quotient. `scale_cases` says what
comes out in terms of the exact quotient, `scaledExactly_scale_iff` when that is what the
module promises: whole multiples always scale to themselves, and a value off the grid is
refused exactly when its quotient stays more than half a last place away from every integer.

The decimal type is a library's. The format is `RustDecimal`; the operations are a parameter,
`DecimalOps`, with what is relied on of them in `DecimalOps.Lawful`.
-/

namespace MoonCore

/-- The decimal format: a 96-bit mantissa, at most 28 digits after the point. -/
abbrev RustDecimal : Type := Decimal (2 ^ 96) 28

/-- The decimal operations the scaling uses; `none` is a panic. -/
structure DecimalOps where
  div : RustDecimal → RustDecimal → Option RustDecimal
  mul : RustDecimal → RustDecimal → Option RustDecimal
  fract : RustDecimal → RustDecimal
  /-- Conversion from an `i64`. -/
  ofI64 : ℤ → RustDecimal
  toI64 : RustDecimal → Option ℤ

namespace DecimalOps

/-- Quotients are rounded to the precision available, and panic where there is none; products
that are decimals are exact; the conversions are exact. -/
structure Lawful (ops : DecimalOps) : Prop where
  div_eq : ∀ a b : RustDecimal, b.mantissa ≠ 0 → (ops.div a b).map Decimal.toRat =
    (Decimal.rounded (2 ^ 96) 28 (a.toRat / b.toRat)).map Decimal.toRat
  mul_eq : ∀ a b d : RustDecimal, d.toRat = a.toRat * b.toRat →
    ∃ p, ops.mul a b = some p ∧ p.toRat = d.toRat
  fract_eq : ∀ a : RustDecimal, (ops.fract a).toRat = a.toRat - a.trunc
  ofI64_eq : ∀ n, IsI64 n → (ops.ofI64 n).toRat = n
  toI64_eq : ∀ a : RustDecimal, ops.toI64 a = if IsI64 a.trunc then some a.trunc else none

/-- Operations that compute with the exact number and round it. -/
def rounding : DecimalOps where
  div a b := Decimal.rounded (2 ^ 96) 28 (a.toRat / b.toRat)
  mul a b := Decimal.rounded (2 ^ 96) 28 (a.toRat * b.toRat)
  fract a := a.fract
  ofI64 n := if h : n.natAbs < 2 ^ 96 then ⟨n, 0, h, by decide⟩ else ⟨0, 0, by decide, by decide⟩
  toI64 a := if IsI64 a.trunc then some a.trunc else none

theorem rounding_lawful : rounding.Lawful where
  div_eq a b _ := rfl
  mul_eq a b d hd := by
    obtain ⟨r, hr, hval⟩ := Decimal.rounded_toRat d
    exact ⟨r, by rw [← hr, hd]; rfl, hval⟩
  fract_eq a := a.toRat_fract
  ofI64_eq n hn := by
    have hlt : n.natAbs < 2 ^ 96 := by
      obtain ⟨hlo, hhi⟩ := hn
      omega
    have hof : rounding.ofI64 n = ⟨n, 0, hlt, by decide⟩ := dif_pos hlt
    rw [hof, Decimal.toRat, pow_zero, div_one]
  toI64_eq a := rfl

end DecimalOps

/-- A value expressed as a whole number of an instrument's ticks or steps. -/
structure Scaled where
  val : ℤ
  deriving DecidableEq

/-- Why a value is not a whole number of increments. -/
inductive ScaleError where
  | offGrid (value increment : RustDecimal)
  | outOfRange (value increment : RustDecimal)
  | zeroIncrement
  deriving DecidableEq

/-- Convert a decimal into whole increments; `none` where the division panics. -/
def scale (ops : DecimalOps) (value increment : RustDecimal) :
    Option (Except ScaleError Scaled) :=
  if increment.mantissa = 0 then some (.error .zeroIncrement)
  else
    (ops.div value increment).map fun quotient =>
      if (ops.fract quotient).mantissa ≠ 0 then .error (.offGrid value increment)
      else
        match ops.toI64 quotient with
        | some n => .ok ⟨n⟩
        | none => .error (.outOfRange value increment)

/-- Back to a decimal, by a multiplication by the increment. -/
def unscale (ops : DecimalOps) (scaled : Scaled) (increment : RustDecimal) : Option RustDecimal :=
  ops.mul (ops.ofI64 scaled.val) increment

namespace Instrument

variable (ops : DecimalOps) (instrument : Instrument RustDecimal)

/-- A price as a whole number of ticks. -/
def scalePrice (price : RustDecimal) : Option (Except ScaleError Scaled) :=
  scale ops price instrument.tickSize

/-- Back to a decimal. -/
def unscalePrice (scaled : Scaled) : Option RustDecimal := unscale ops scaled instrument.tickSize

/-- A quantity as a whole number of steps. -/
def scaleQty (qty : RustDecimal) : Option (Except ScaleError Scaled) :=
  scale ops qty instrument.stepSize

/-- A whole number of steps, back to a quantity. -/
def unscaleQty (scaled : Scaled) : Option RustDecimal := unscale ops scaled instrument.stepSize

end Instrument

/-! ### What comes out, by the exact quotient -/

/-- What scaling promises of one value: an answer is exact and goes back to the value, a value
off the grid is refused as such, and a whole multiple is scaled to its factor. -/
structure ScaledExactly (value increment : RustDecimal)
    (outcome : Option (Except ScaleError Scaled)) (back : Scaled → Option RustDecimal) : Prop where
  exact : ∀ n, outcome = some (.ok n) → n.val * increment.toRat = value.toRat ∧
    ∃ d, back n = some d ∧ d.toRat = value.toRat
  refused : (∀ n : ℤ, n * increment.toRat ≠ value.toRat) →
    outcome = some (.error (.offGrid value increment))
  whole : ∀ n, IsI64 n → n * increment.toRat = value.toRat → outcome = some (.ok ⟨n⟩)

/-- The value is a whole number of increments. -/
def OnGrid (value increment : RustDecimal) : Prop := ∃ n : ℤ, n * increment.toRat = value.toRat

/-- The exact quotient fits the format and is more than half a unit of the last place
available away from every integer. -/
def ClearlyOffGrid (value increment : RustDecimal) : Prop :=
  let quotient := value.toRat / increment.toRat
  let places := Decimal.availableScale (2 ^ 96) 28 quotient
  Decimal.Fits (2 ^ 96) quotient places ∧ ∀ n : ℤ, 1 / (2 * 10 ^ places) < |quotient - n|

variable {ops : DecimalOps} {value increment : RustDecimal}

/-- Everything scaling can do: panic where no digit of the quotient fits, answer the rounded
quotient where that is whole, and refuse it where it is not. -/
theorem scale_cases (hops : ops.Lawful) (value : RustDecimal) (hinc : increment.mantissa ≠ 0) :
    (Decimal.rounded (2 ^ 96) 28 (value.toRat / increment.toRat) = none ∧
      scale ops value increment = none) ∨
    ∃ r, Decimal.rounded (2 ^ 96) 28 (value.toRat / increment.toRat) = some r ∧
      ((∃ n : ℤ, r.toRat = n ∧ scale ops value increment =
          some (if IsI64 n then .ok ⟨n⟩ else .error (.outOfRange value increment))) ∨
        (¬ ∃ n : ℤ, r.toRat = n) ∧
          scale ops value increment = some (.error (.offGrid value increment))) := by
  have hdiv := hops.div_eq value increment hinc
  rcases hr : Decimal.rounded (2 ^ 96) 28 (value.toRat / increment.toRat) with - | r
  · rw [hr, Option.map_none, Option.map_eq_none_iff] at hdiv
    exact .inl ⟨rfl, by rw [scale, if_neg hinc, hdiv, Option.map_none]⟩
  · rw [hr, Option.map_some, Option.map_eq_some_iff] at hdiv
    obtain ⟨quotient, hquot, hval⟩ := hdiv
    refine .inr ⟨r, rfl, ?_⟩
    -- the fraction is zero exactly when the quotient is its own whole part
    have hfract : (ops.fract quotient).mantissa = 0 ↔ r.toRat = quotient.trunc := by
      rw [Decimal.mantissa_eq_zero_iff, hops.fract_eq, sub_eq_zero, hval]
    by_cases hwhole : ∃ n : ℤ, r.toRat = n
    · obtain ⟨n, hn⟩ := hwhole
      have htrunc : quotient.trunc = n := Decimal.trunc_eq (hval.trans hn)
      refine .inl ⟨n, hn, ?_⟩
      rw [scale, if_neg hinc, hquot, Option.map_some, if_neg (by
        rw [ne_eq, not_not, hfract, htrunc]; exact hn), hops.toI64_eq, htrunc]
      split_ifs <;> rfl
    · refine .inr ⟨hwhole, ?_⟩
      rw [scale, if_neg hinc, hquot, Option.map_some, if_pos fun h => hwhole ⟨_, hfract.mp h⟩]

/-- A whole quotient comes back as it is, unless it does not fit an `i64`. -/
theorem scale_of_onGrid (hops : ops.Lawful) (hinc : increment.mantissa ≠ 0) {n : ℤ}
    (hn : n * increment.toRat = value.toRat) :
    (IsI64 n ∧ scale ops value increment = some (.ok ⟨n⟩)) ∨
      (¬ IsI64 n ∧ ∀ m, scale ops value increment ≠ some (.ok m)) := by
  have hne : increment.toRat ≠ 0 := fun h => hinc (Decimal.mantissa_eq_zero_iff.mpr h)
  have hquot : value.toRat / increment.toRat = n := by rw [← hn, mul_div_cancel_right₀ _ hne]
  obtain ⟨hnone, hscale⟩ | ⟨r, hr, hcases⟩ := scale_cases hops value hinc
  · refine .inr ⟨fun hi64 => ?_, by simp [hscale]⟩
    -- an `i64` is a decimal, and decimals are rounded to themselves
    obtain ⟨r, hr, -⟩ := Decimal.rounded_toRat (ops.ofI64 n)
    rw [hops.ofI64_eq n hi64, ← hquot, hnone] at hr
    exact absurd hr (by simp)
  · rw [hquot] at hr
    have hval : r.toRat = n := by
      obtain ⟨-, hval⟩ := Decimal.rounded_eq_some hr
      have hpow : (10 : ℚ) ^ Decimal.availableScale (2 ^ 96) 28 (n : ℚ) ≠ 0 := by positivity
      have hcast : (n : ℚ) * 10 ^ Decimal.availableScale (2 ^ 96) 28 (n : ℚ) =
          ((n * 10 ^ Decimal.availableScale (2 ^ 96) 28 (n : ℚ) : ℤ) : ℚ) := by push_cast; rfl
      rw [hval, hcast, roundHalfEven_intCast, ← hcast, mul_div_cancel_right₀ _ hpow]
    obtain ⟨m, hm, hscale⟩ | ⟨hnot, -⟩ := hcases
    · obtain rfl : m = n := by exact_mod_cast hm.symm.trans hval
      rw [hscale]
      split_ifs with hi64
      · exact .inl ⟨hi64, rfl⟩
      · exact .inr ⟨hi64, by simp⟩
    · exact absurd ⟨n, hval⟩ hnot

/-- A value off the grid is refused as such exactly when its quotient fits and keeps more than
half a last place from every integer; otherwise the division panics or the quotient passes for
a whole one. -/
theorem scale_eq_offGrid_iff (hops : ops.Lawful) (hinc : increment.mantissa ≠ 0) :
    scale ops value increment = some (.error (.offGrid value increment)) ↔
      ClearlyOffGrid value increment := by
  obtain ⟨hnone, hscale⟩ | ⟨r, hr, hcases⟩ := scale_cases hops value hinc
  · rw [hscale]
    refine iff_of_false (by simp) fun ⟨hfits, _⟩ => ?_
    rw [← Decimal.rounded_isSome_iff, hnone] at hfits
    exact absurd hfits (by simp)
  · have hwhole := Decimal.rounded_whole_iff hr
    obtain ⟨n, hn, hscale⟩ | ⟨hnot, hscale⟩ := hcases
    · rw [hscale]
      refine iff_of_false (by split_ifs <;> simp) fun ⟨_, hfar⟩ => ?_
      obtain ⟨k, hk⟩ := hwhole.mp ⟨n, hn⟩
      exact absurd hk (not_le.mpr (hfar k))
    · refine iff_of_true hscale ⟨(Decimal.rounded_eq_some hr).1, fun n => ?_⟩
      by_contra hle
      exact hnot (hwhole.mpr ⟨n, not_lt.mp hle⟩)

/-- Going back from an answer is exact. -/
theorem unscale_eq (hops : ops.Lawful) {n : Scaled} (hn : IsI64 n.val)
    (hval : n.val * increment.toRat = value.toRat) :
    ∃ d, unscale ops n increment = some d ∧ d.toRat = value.toRat :=
  hops.mul_eq _ _ value (by rw [hops.ofI64_eq n.val hn, hval])

/-- **When scaling is exact or refused**: exactly on the grid and clearly off it. -/
theorem scaledExactly_scale_iff (hops : ops.Lawful) (hpos : 0 < increment.toRat) :
    ScaledExactly value increment (scale ops value increment)
        (fun n => unscale ops n increment) ↔
      OnGrid value increment ∨ ClearlyOffGrid value increment := by
  have hinc : increment.mantissa ≠ 0 := fun h => hpos.ne' (Decimal.mantissa_eq_zero_iff.mp h)
  constructor
  · intro h
    by_cases hgrid : OnGrid value increment
    · exact .inl hgrid
    · exact .inr ((scale_eq_offGrid_iff hops hinc).mp (h.refused fun n hn => hgrid ⟨n, hn⟩))
  · rintro (⟨n, hn⟩ | hoff)
    · have huniq : ∀ m : ℤ, m * increment.toRat = value.toRat → m = n := by
        intro m hm
        exact_mod_cast mul_right_cancel₀ hpos.ne' (hm.trans hn.symm)
      obtain ⟨hi64, hscale⟩ | ⟨hi64, hscale⟩ := scale_of_onGrid hops hinc hn
      · refine ⟨fun m hm => ?_, fun hnot => absurd hn (hnot n), fun m _ hm => ?_⟩
        · rw [hscale] at hm
          obtain rfl : (⟨n⟩ : Scaled) = m := by simpa using hm
          exact ⟨hn, unscale_eq hops hi64 hn⟩
        · rw [huniq m hm, hscale]
      · exact ⟨fun m hm => absurd hm (hscale m), fun hnot => absurd hn (hnot n),
          fun m hm64 hm => absurd (huniq m hm ▸ hm64) hi64⟩
    · have hscale := (scale_eq_offGrid_iff hops hinc).mpr hoff
      refine ⟨fun m hm => ?_, fun _ => hscale, fun n _ hn => ?_⟩
      · rw [hscale] at hm
        exact absurd hm (by simp)
      · have hquot : value.toRat / increment.toRat = n := by
          rw [← hn, mul_div_cancel_right₀ _ hpos.ne']
        have hfar := hoff.2 n
        rw [hquot, sub_self, abs_zero] at hfar
        exact absurd hfar (not_lt.mpr (by positivity))

/-- **Prices and quantities are scaled exactly or refused** on the grid and clearly off it, and
nowhere else. -/
theorem Instrument.scaledExactly_iff (hops : ops.Lawful) (instrument : Instrument RustDecimal)
    (htick : 0 < instrument.tickSize.toRat) (hstep : 0 < instrument.stepSize.toRat)
    (value : RustDecimal) :
    (ScaledExactly value instrument.tickSize (instrument.scalePrice ops value)
        (instrument.unscalePrice ops) ↔
      OnGrid value instrument.tickSize ∨ ClearlyOffGrid value instrument.tickSize) ∧
    (ScaledExactly value instrument.stepSize (instrument.scaleQty ops value)
        (instrument.unscaleQty ops) ↔
      OnGrid value instrument.stepSize ∨ ClearlyOffGrid value instrument.stepSize) :=
  ⟨scaledExactly_scale_iff hops htick, scaledExactly_scale_iff hops hstep⟩

/-- An instrument with a tick of one half and a step of a thousandth. -/
def halfTick : Instrument RustDecimal where
  symbol := btcusdt
  base := "BTC"
  quote_ := "USDT"
  marginAsset := "USDT"
  tickSize := ⟨5, 1, by decide, by decide⟩
  stepSize := ⟨1, 3, by decide, by decide⟩
  minQty := ⟨1, 3, by decide, by decide⟩
  minNotional := ⟨5, 0, by decide, by decide⟩
  trading := true

/-- A price in the last of 28 places above five. -/
def priceAboveFive : RustDecimal := ⟨50000000000000000000000000001, 28, by decide, by decide⟩

theorem Instrument.scaledExactly_iff_halfTick :
    (ScaledExactly priceAboveFive halfTick.tickSize
        (halfTick.scalePrice DecimalOps.rounding priceAboveFive)
        (halfTick.unscalePrice DecimalOps.rounding) ↔
      OnGrid priceAboveFive halfTick.tickSize ∨
        ClearlyOffGrid priceAboveFive halfTick.tickSize) ∧
    (ScaledExactly priceAboveFive halfTick.stepSize
        (halfTick.scaleQty DecimalOps.rounding priceAboveFive)
        (halfTick.unscaleQty DecimalOps.rounding) ↔
      OnGrid priceAboveFive halfTick.stepSize ∨
        ClearlyOffGrid priceAboveFive halfTick.stepSize) :=
  Instrument.scaledExactly_iff DecimalOps.rounding_lawful halfTick
    (by norm_num [Decimal.toRat, halfTick]) (by norm_num [Decimal.toRat, halfTick]) priceAboveFive

/-- The doubled price has no room for its last digit: it passes for ten ticks, which are
five. -/
theorem scalePrice_rounds_off_grid :
    halfTick.scalePrice DecimalOps.rounding priceAboveFive = some (.ok ⟨10⟩) ∧
      ¬ ScaledExactly priceAboveFive halfTick.tickSize
        (halfTick.scalePrice DecimalOps.rounding priceAboveFive)
        (halfTick.unscalePrice DecimalOps.rounding) := by
  have hten : halfTick.scalePrice DecimalOps.rounding priceAboveFive = some (.ok ⟨10⟩) := by
    decide +kernel
  refine ⟨hten, fun h => ?_⟩
  have heq := (h.exact _ hten).1
  norm_num [Decimal.toRat, halfTick, priceAboveFive] at heq

end MoonCore
