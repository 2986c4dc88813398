import MoonCore.Domain.Scaled

/-!
# Rounding to the grid, and checking an order

The arithmetic of `domain::instrument`. `round_to_grid` divides by the grid, cuts the quotient and
multiplies back; `check` takes a remainder for each grid and a product for the notional. None of
these operations can say that it failed: a quotient or a product with no digits to write it in is a
panic. `Instrument.FitsFormat` is the condition under which an order runs into none
(`Instrument.neverPanics_iff`).

The decimal type is a library's, as in `Domain.Scaled`.
-/

namespace MoonCore

/-- The decimal operations of an instrument; `none` is a panic. -/
structure OrderOps extends DecimalOps where
  rem : RustDecimal → RustDecimal → Option RustDecimal
  /-- `round_dp_with_strategy(0, RoundingStrategy::ToZero)` -/
  roundToZero : RustDecimal → RustDecimal

/-- Products are rounded to the precision available, and panic where there is none; remainders and
whole parts are decimals, and exact. -/
structure OrderOps.Lawful (ops : OrderOps) : Prop extends ops.toDecimalOps.Lawful where
  mul_rounded : ∀ a b : RustDecimal, (ops.mul a b).map Decimal.toRat =
    (Decimal.rounded (2 ^ 96) 28 (a.toRat * b.toRat)).map Decimal.toRat
  rem_eq : ∀ a b : RustDecimal, b.mantissa ≠ 0 → ∃ r, ops.rem a b = some r ∧
    (∃ n : ℤ, a.toRat = n * b.toRat + r.toRat) ∧ |r.toRat| < |b.toRat|
  roundToZero_eq : ∀ a : RustDecimal, (ops.roundToZero a).toRat = a.trunc

/-- A decimal without its digits after the point. -/
def RustDecimal.whole (a : RustDecimal) : RustDecimal :=
  .ofParts a.trunc 0 ⟨by
    rw [Decimal.trunc, Int.natAbs_tdiv]
    exact (Nat.div_le_self _ _).trans_lt a.mantissa_lt, Nat.zero_le _⟩

/-- Operations that compute with the exact number and round it. -/
def OrderOps.rounding : OrderOps where
  toDecimalOps := DecimalOps.rounding
  rem a b := some (a.rem b)
  roundToZero a := RustDecimal.whole a

theorem OrderOps.rounding_lawful : OrderOps.rounding.Lawful where
  toLawful := DecimalOps.rounding_lawful
  mul_rounded a b := rfl
  rem_eq a b hb := ⟨a.rem b, rfl, Decimal.toRat_rem a hb⟩
  roundToZero_eq a := by
    change ((a.trunc : ℚ) / 10 ^ 0) = _
    rw [pow_zero, div_one]

/-- Why an order would be rejected by the venue before it is worth sending. -/
inductive OrderCheck where
  /-- "instrument is not trading" -/
  | notTrading
  /-- "quantity is below the venue minimum" -/
  | qtyBelowMin
  /-- "quantity is not a multiple of the step size" -/
  | qtyOffStep
  /-- "price is not a multiple of the tick size" -/
  | priceOffTick
  /-- "price * qty is below the venue minimum notional" -/
  | notionalBelowMin
  deriving DecidableEq

/-- Round `value` down to the nearest multiple of `grid`. A zero grid means no constraint. -/
def roundToGrid (ops : OrderOps) (value grid : RustDecimal) : Option RustDecimal :=
  if grid.mantissa = 0 then some value
  else (ops.div value grid).bind fun quotient => ops.mul (ops.roundToZero quotient) grid

/-- `!grid.is_zero() && !(value % grid).is_zero()` -/
def offGrid (ops : OrderOps) (value grid : RustDecimal) : Option Bool :=
  if grid.mantissa = 0 then some false
  else (ops.rem value grid).map fun remainder => remainder.mantissa ≠ 0

namespace Instrument

variable (ops : OrderOps) (instrument : Instrument RustDecimal)

/-- Snap a price down to the tick grid. -/
def roundPrice (price : RustDecimal) : Option RustDecimal :=
  roundToGrid ops price instrument.tickSize

/-- Snap a quantity down to the step grid. -/
def roundQty (qty : RustDecimal) : Option RustDecimal := roundToGrid ops qty instrument.stepSize

/-- `!min_notional.is_zero() && price * qty < min_notional` -/
def notionalBelow (price qty : RustDecimal) : Option Bool :=
  if instrument.minNotional.mantissa = 0 then some false
  else (ops.mul price qty).map fun notional => notional.toRat < instrument.minNotional.toRat

/-- Reject locally what the venue would reject remotely. -/
def check (price qty : RustDecimal) : Option (Except OrderCheck Unit) :=
  if ¬ instrument.trading then some (.error .notTrading)
  else if qty.toRat < instrument.minQty.toRat then some (.error .qtyBelowMin)
  else
    (offGrid ops qty instrument.stepSize).bind fun offStep =>
      if offStep then some (.error .qtyOffStep)
      else
        (offGrid ops price instrument.tickSize).bind fun offTick =>
          if offTick then some (.error .priceOffTick)
          else
            (instrument.notionalBelow ops price qty).map fun below =>
              if below then .error .notionalBelowMin else .ok ()

end Instrument

/-! ### What each operation runs into -/

variable {ops : OrderOps} {value grid : RustDecimal}

/-- Two answers that stand for the same number are there or not together. -/
theorem eq_none_iff_of_map_toRat {a b : Option RustDecimal}
    (h : a.map Decimal.toRat = b.map Decimal.toRat) : a = none ↔ b = none := by
  rw [← Option.map_eq_none_iff (f := Decimal.toRat), h, Option.map_eq_none_iff]

theorem OrderOps.Lawful.div_ne_none_iff (hops : ops.Lawful) (hgrid : grid.mantissa ≠ 0) :
    ops.div value grid ≠ none ↔ Decimal.Fits (2 ^ 96) (value.toRat / grid.toRat) 0 := by
  rw [← Decimal.rounded_isSome_iff_fits 28, ← Option.ne_none_iff_isSome, Ne, Ne,
    eq_none_iff_of_map_toRat (hops.div_eq value grid hgrid)]

theorem OrderOps.Lawful.mul_ne_none_iff (hops : ops.Lawful) (a b : RustDecimal) :
    ops.mul a b ≠ none ↔ Decimal.Fits (2 ^ 96) (a.toRat * b.toRat) 0 := by
  rw [← Decimal.rounded_isSome_iff_fits 28, ← Option.ne_none_iff_isSome, Ne, Ne,
    eq_none_iff_of_map_toRat (hops.mul_rounded a b)]

/-- Decimals that stand for the same number have the same whole part. -/
theorem trunc_eq_of_toRat_eq {a b : RustDecimal} (h : a.toRat = b.toRat) : a.trunc = b.trunc := by
  have hb := b.isCut_trunc
  rw [← h] at hb
  exact a.isCut_trunc.unique hb

variable (value) in
/-- The whole part of a quotient, where there is a quotient. -/
theorem OrderOps.Lawful.div_cases (hops : ops.Lawful) (hgrid : grid.mantissa ≠ 0) :
    (ops.div value grid = none ∧
        Decimal.rounded (2 ^ 96) 28 (value.toRat / grid.toRat) = none) ∨
      ∃ quotient r, ops.div value grid = some quotient ∧
        Decimal.rounded (2 ^ 96) 28 (value.toRat / grid.toRat) = some r ∧
        (ops.roundToZero quotient).toRat = r.trunc := by
  have hdiv := hops.div_eq value grid hgrid
  cases hquotient : ops.div value grid with
  | none => exact .inl ⟨rfl, (eq_none_iff_of_map_toRat hdiv).mp hquotient⟩
  | some quotient =>
    rw [hquotient, Option.map_some, eq_comm, Option.map_eq_some_iff] at hdiv
    obtain ⟨r, hr, hval⟩ := hdiv
    refine .inr ⟨quotient, r, rfl, hr, ?_⟩
    rw [hops.roundToZero_eq, trunc_eq_of_toRat_eq hval]

/-- A grid divides out to a decimal and multiplies back to one: the quotient fits the format, and
so does the multiple of the grid that it passes for, if it passes for a whole number. -/
def Roundable (value grid : RustDecimal) : Prop :=
  grid.mantissa ≠ 0 →
    Decimal.Fits (2 ^ 96) (value.toRat / grid.toRat) 0 ∧
      ∀ n : ℤ, Decimal.PassesFor (2 ^ 96) 28 (value.toRat / grid.toRat) n →
        Decimal.Fits (2 ^ 96) (n * grid.toRat) 0

theorem toRat_ne_zero (hgrid : grid.mantissa ≠ 0) : grid.toRat ≠ 0 := fun h =>
  hgrid (Decimal.mantissa_eq_zero_iff.mpr h)

variable (value) in
/-- What is no larger than a decimal fits. -/
theorem fits_of_abs_le_toRat {q : ℚ} (h : |q| ≤ |value.toRat|) : Decimal.Fits (2 ^ 96) q 0 := by
  refine Decimal.fits_zero_of_abs_lt value.mantissa_lt (h.trans ?_)
  have hunits := value.abs_toRat_mul
  have hone : (1 : ℚ) ≤ 10 ^ value.scale := one_le_pow₀ (by norm_num)
  calc |value.toRat| ≤ |value.toRat| * 10 ^ value.scale :=
        le_mul_of_one_le_right (abs_nonneg _) hone
    _ = (value.mantissa.natAbs : ℕ) := by rw [hunits, Int.cast_natCast]

/-- The multiple of the grid that is multiplied back fits unless it lies beyond the value. -/
theorem fits_mul_trunc_iff (hgrid : grid.mantissa ≠ 0) {r : RustDecimal}
    (hr : Decimal.rounded (2 ^ 96) 28 (value.toRat / grid.toRat) = some r) :
    Decimal.Fits (2 ^ 96) (r.trunc * grid.toRat) 0 ↔
      ∀ n : ℤ, Decimal.PassesFor (2 ^ 96) 28 (value.toRat / grid.toRat) n →
        Decimal.Fits (2 ^ 96) (n * grid.toRat) 0 := by
  constructor
  · intro h n hn
    have htrunc : r.trunc = n := Decimal.trunc_eq ((Decimal.passesFor_iff hr).mp hn)
    rwa [htrunc] at h
  · intro h
    rcases lt_or_ge |value.toRat / grid.toRat| |(r.trunc : ℚ)| with hbeyond | hwithin
    · exact h _ ((Decimal.passesFor_iff hr).mpr (Decimal.toRat_eq_trunc_of_lt hr hbeyond))
    · refine fits_of_abs_le_toRat value ?_
      have hmul := mul_le_mul_of_nonneg_right hwithin (abs_nonneg grid.toRat)
      rwa [← abs_mul, ← abs_mul, div_mul_cancel₀ _ (toRat_ne_zero hgrid)] at hmul

theorem roundToGrid_ne_none_iff (hops : ops.Lawful) (value grid : RustDecimal) :
    roundToGrid ops value grid ≠ none ↔ Roundable value grid := by
  rw [roundToGrid, Roundable]
  by_cases hgrid : grid.mantissa = 0
  · simp [hgrid]
  · rw [if_neg hgrid, forall_prop_of_true hgrid, ← hops.div_ne_none_iff hgrid]
    obtain ⟨hnone, -⟩ | ⟨quotient, r, hquotient, hr, hwhole⟩ :=
      hops.div_cases value hgrid
    · simp [hnone]
    · rw [hquotient, Option.bind_some, hops.mul_ne_none_iff, hwhole, fits_mul_trunc_iff hgrid hr,
        and_iff_right (Option.some_ne_none _)]

theorem scale_ne_none_iff (hops : ops.Lawful) (value increment : RustDecimal) :
    scale ops.toDecimalOps value increment ≠ none ↔
      (increment.mantissa ≠ 0 → Decimal.Fits (2 ^ 96) (value.toRat / increment.toRat) 0) := by
  rw [scale]
  by_cases hinc : increment.mantissa = 0
  · simp [hinc]
  · rw [if_neg hinc, Ne, Option.map_eq_none_iff, forall_prop_of_true hinc,
      ← hops.div_ne_none_iff hinc]

/-- There is no grid, or the value is on it. -/
def MeetsGrid (value grid : RustDecimal) : Prop := grid.mantissa ≠ 0 → OnGrid value grid

/-- The test for a grid says whether the value is on it. -/
theorem offGrid_spec (hops : ops.Lawful) (value grid : RustDecimal) :
    ∃ off, offGrid ops value grid = some off ∧ (off = false ↔ MeetsGrid value grid) := by
  rw [offGrid, MeetsGrid]
  by_cases hgrid : grid.mantissa = 0
  · exact ⟨false, if_pos hgrid, by simp [hgrid]⟩
  · obtain ⟨r, hr, ⟨n, hn⟩, hlt⟩ := hops.rem_eq value grid hgrid
    refine ⟨decide (r.mantissa ≠ 0), by rw [if_neg hgrid, hr, Option.map_some], ?_⟩
    rw [decide_eq_false_iff_not, not_not, forall_prop_of_true hgrid, Decimal.mantissa_eq_zero_iff]
    constructor
    · intro hzero
      exact ⟨n, by rw [hn, hzero, add_zero]⟩
    · rintro ⟨m, hm⟩
      -- a remainder on the grid is a multiple smaller than one step
      have hmultiple : r.toRat = (m - n : ℤ) * grid.toRat := by
        push_cast
        linarith
      rw [hmultiple, abs_mul] at hlt
      have hlt' : |((m - n : ℤ) : ℚ)| < 1 :=
        lt_of_mul_lt_mul_right (by rwa [one_mul]) (abs_nonneg grid.toRat)
      have hzero : m - n = 0 := Int.abs_lt_one_iff.mp (by exact_mod_cast hlt')
      rw [hmultiple, hzero, Int.cast_zero, zero_mul]

namespace Instrument

variable (ops) in
/-- Nothing an order is scaled, rounded or checked with panics. -/
structure NeverPanics (instrument : Instrument RustDecimal) (price qty : RustDecimal) : Prop where
  scalePrice : instrument.scalePrice ops.toDecimalOps price ≠ none
  scaleQty : instrument.scaleQty ops.toDecimalOps qty ≠ none
  roundPrice : instrument.roundPrice ops price ≠ none
  roundQty : instrument.roundQty ops qty ≠ none
  check : instrument.check ops price qty ≠ none

/-- The quotients and the products of an order fit the format. The notional is made only of an
order that has passed the other tests. -/
structure FitsFormat (instrument : Instrument RustDecimal) (price qty : RustDecimal) : Prop where
  tick : Roundable price instrument.tickSize
  step : Roundable qty instrument.stepSize
  notional : instrument.trading → instrument.minQty.toRat ≤ qty.toRat →
    MeetsGrid qty instrument.stepSize → MeetsGrid price instrument.tickSize →
      instrument.minNotional.mantissa ≠ 0 → Decimal.Fits (2 ^ 96) (price.toRat * qty.toRat) 0

theorem check_ne_none_iff (hops : ops.Lawful) (instrument : Instrument RustDecimal)
    (price qty : RustDecimal) :
    instrument.check ops price qty ≠ none ↔
      (instrument.trading → instrument.minQty.toRat ≤ qty.toRat →
        MeetsGrid qty instrument.stepSize → MeetsGrid price instrument.tickSize →
          instrument.minNotional.mantissa ≠ 0 →
            Decimal.Fits (2 ^ 96) (price.toRat * qty.toRat) 0) := by
  obtain ⟨offStep, hoffStep, hstep⟩ := offGrid_spec hops qty instrument.stepSize
  obtain ⟨offTick, hoffTick, htick⟩ := offGrid_spec hops price instrument.tickSize
  rw [check, hoffStep, hoffTick, ← hstep, ← htick, ← hops.mul_ne_none_iff, ← not_lt]
  by_cases htrading : instrument.trading
  · by_cases hmin : qty.toRat < instrument.minQty.toRat
    · simp [htrading, hmin]
    · cases offStep with
      | true => simp [htrading, hmin]
      | false =>
        cases offTick with
        | true => simp [htrading, hmin]
        | false =>
          by_cases hnotional : instrument.minNotional.mantissa = 0
          · simp [htrading, hmin, notionalBelow, hnotional]
          · simp [htrading, hmin, notionalBelow, hnotional]
  · simp [htrading]

/-- **When scaling and checking never panic.** For every instrument, with whatever grids, and every
price and quantity: no operation on the order panics if and only if its quotients and products fit
the format. -/
theorem neverPanics_iff (hops : ops.Lawful) (instrument : Instrument RustDecimal)
    (price qty : RustDecimal) :
    NeverPanics ops instrument price qty ↔ FitsFormat instrument price qty := by
  constructor
  · intro h
    exact ⟨(roundToGrid_ne_none_iff hops _ _).mp h.roundPrice,
      (roundToGrid_ne_none_iff hops _ _).mp h.roundQty,
      (check_ne_none_iff hops instrument price qty).mp h.check⟩
  · intro h
    exact ⟨(scale_ne_none_iff hops _ _).mpr fun hgrid => (h.tick hgrid).1,
      (scale_ne_none_iff hops _ _).mpr fun hgrid => (h.step hgrid).1,
      (roundToGrid_ne_none_iff hops _ _).mpr h.tick,
      (roundToGrid_ne_none_iff hops _ _).mpr h.step,
      (check_ne_none_iff hops instrument price qty).mpr h.notional⟩

/-- The largest price there is. -/
def maxPrice : RustDecimal := .ofParts 79228162514264337593543950335 0 (by decide)

/-- Two of something. -/
def two : RustDecimal := .ofParts 2 0 (by decide)

theorem neverPanics_iff_maxPrice :
    NeverPanics OrderOps.rounding halfTick maxPrice two ↔ FitsFormat halfTick maxPrice two :=
  neverPanics_iff OrderOps.rounding_lawful halfTick maxPrice two

/-- Twice the largest price is no decimal: neither its ticks nor its notional can be computed. -/
theorem not_neverPanics_maxPrice :
    halfTick.scalePrice DecimalOps.rounding maxPrice = none ∧
      halfTick.roundPrice OrderOps.rounding maxPrice = none ∧
      halfTick.check OrderOps.rounding maxPrice two = none ∧
      ¬ NeverPanics OrderOps.rounding halfTick maxPrice two := by
  have hscale : halfTick.scalePrice DecimalOps.rounding maxPrice = none := by decide +kernel
  exact ⟨hscale, by decide +kernel, by decide +kernel, fun h => h.scalePrice hscale⟩

end Instrument

end MoonCore
