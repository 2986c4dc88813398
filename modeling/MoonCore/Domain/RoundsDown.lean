import MoonCore.Domain.Grid

/-!
# Rounding is towards zero, or it is not

`round_to_grid` promises the nearest multiple of the grid on the side of zero. It cuts a quotient
that has been rounded to the digits there are, and multiplies back into a product that is rounded
as well. `RoundsDown` says of the exact numbers when neither matters: the quotient does not pass
for a whole number beyond it, and the multiple of the grid that is due is a decimal.
`Instrument.roundedDown_iff` shows that the promise is kept exactly then.
-/

namespace MoonCore

variable {ops : OrderOps} {value grid : RustDecimal}

/-- What rounding promises: a multiple of the grid, which passes for one in every other test, on
the side of zero, less than one step away, and left alone when rounded again. -/
structure RoundedDown (ops : OrderOps) (value grid r : RustDecimal) : Prop where
  multiple : ∃ n : ℤ, r.toRat = n * grid.toRat ∧ offGrid ops r grid = some false ∧
    scale ops.toDecimalOps r grid =
      some (if IsI64 n then .ok ⟨n⟩ else .error (.outOfRange r grid))
  sign : r.toRat = 0 ∨ 0 < r.toRat * value.toRat
  le : |r.toRat| ≤ |value.toRat|
  near : |value.toRat - r.toRat| < grid.toRat
  again : ∃ r', roundToGrid ops r grid = some r' ∧ r'.toRat = r.toRat

/-- The quotient does not pass for a whole number beyond it, and the multiple of the grid on the
side of zero is a decimal. -/
def RoundsDown (value grid : RustDecimal) : Prop :=
  (∀ n : ℤ, Decimal.PassesFor (2 ^ 96) 28 (value.toRat / grid.toRat) n →
    |(n : ℚ)| ≤ |value.toRat / grid.toRat|) ∧
  ∀ n : ℤ, IsCut (value.toRat / grid.toRat) n → ∃ d : RustDecimal, d.toRat = n * grid.toRat

/-- A rounding that does not panic, step by step. -/
theorem roundToGrid_eq_some (hops : ops.Lawful) (hgrid : grid.mantissa ≠ 0) {r : RustDecimal}
    (h : roundToGrid ops value grid = some r) :
    ∃ quotient whole : RustDecimal,
      Decimal.rounded (2 ^ 96) 28 (value.toRat / grid.toRat) = some quotient ∧
        whole.toRat = quotient.trunc ∧ ops.mul whole grid = some r := by
  rw [roundToGrid, if_neg hgrid] at h
  obtain ⟨hnone, -⟩ | ⟨answer, quotient, hanswer, hquotient, hwhole⟩ := hops.div_cases value hgrid
  · rw [hnone] at h
    cases h
  · rw [hanswer, Option.bind_some] at h
    exact ⟨quotient, ops.roundToZero answer, hquotient, hwhole, h⟩

/-- A whole multiple of the grid is left alone. -/
theorem roundToGrid_of_multiple (hops : ops.Lawful) (hgrid : grid.mantissa ≠ 0) {n : ℤ}
    {whole : RustDecimal} (hwhole : whole.toRat = n) (hvalue : value.toRat = n * grid.toRat) :
    ∃ r, roundToGrid ops value grid = some r ∧ r.toRat = value.toRat := by
  have hquot : value.toRat / grid.toRat = whole.toRat := by
    rw [hvalue, hwhole, mul_div_cancel_right₀ _ (toRat_ne_zero hgrid)]
  obtain ⟨-, hnone⟩ | ⟨answer, quotient, hanswer, hquotient, htrunc⟩ :=
    hops.div_cases value hgrid
  · obtain ⟨r, hr, -⟩ := whole.rounded_toRat
    rw [hquot, hr] at hnone
    cases hnone
  · obtain ⟨r, hr, hval⟩ := whole.rounded_toRat
    rw [hquot, hr] at hquotient
    obtain rfl := Option.some.inj hquotient
    rw [Decimal.trunc_eq (hval.trans hwhole)] at htrunc
    obtain ⟨product, hproduct, hexact⟩ :=
      hops.mul_eq (ops.roundToZero answer) grid value (by rw [htrunc, hvalue])
    exact ⟨product, by rw [roundToGrid, if_neg hgrid, hanswer, Option.bind_some, hproduct], hexact⟩

/-- A whole multiple of the grid is scaled to its factor, if an `i64` can hold it. -/
theorem scale_of_multiple (hops : ops.Lawful) (hgrid : grid.mantissa ≠ 0) {n : ℤ}
    {whole : RustDecimal} (hwhole : whole.toRat = n) (hvalue : value.toRat = n * grid.toRat) :
    scale ops.toDecimalOps value grid =
      some (if IsI64 n then .ok ⟨n⟩ else .error (.outOfRange value grid)) := by
  have hquot : value.toRat / grid.toRat = whole.toRat := by
    rw [hvalue, hwhole, mul_div_cancel_right₀ _ (toRat_ne_zero hgrid)]
  obtain ⟨r, hr, hval⟩ := whole.rounded_toRat
  obtain ⟨hnone, -⟩ | ⟨other, hother, hcases⟩ := scale_cases hops.toLawful value hgrid
  · rw [hquot, hr] at hnone
    cases hnone
  · rw [hquot, hr] at hother
    obtain rfl := Option.some.inj hother
    obtain ⟨m, hm, hscale⟩ | ⟨hnot, -⟩ := hcases
    · obtain rfl : m = n := by exact_mod_cast hm.symm.trans (hval.trans hwhole)
      exact hscale
    · exact absurd ⟨n, hval.trans hwhole⟩ hnot

/-- The multiple of the grid on the side of zero keeps every promise. -/
theorem roundedDown_of_isCut (hops : ops.Lawful) (hpos : 0 < grid.toRat) {n : ℤ}
    {whole r : RustDecimal} (hcut : IsCut (value.toRat / grid.toRat) n)
    (hwhole : whole.toRat = n) (hr : r.toRat = n * grid.toRat) : RoundedDown ops value grid r := by
  have hgrid : grid.mantissa ≠ 0 := fun h => hpos.ne' (Decimal.mantissa_eq_zero_iff.mp h)
  have hvalue : value.toRat = value.toRat / grid.toRat * grid.toRat :=
    (div_mul_cancel₀ _ hpos.ne').symm
  constructor
  case multiple =>
    refine ⟨n, hr, ?_, scale_of_multiple hops hgrid hwhole hr⟩
    obtain ⟨off, hoff, hmeets⟩ := offGrid_spec hops r grid
    rw [hoff, hmeets.mpr fun _ => ⟨n, hr.symm⟩]
  case sign =>
    rcases eq_or_ne n 0 with hzero | hne
    · exact .inl (by rw [hr, hzero, Int.cast_zero, zero_mul])
    · right
      have hquot : value.toRat / grid.toRat ≠ 0 := by
        intro h0
        have hle := hcut.le
        rw [h0, abs_zero] at hle
        exact hne (by exact_mod_cast abs_eq_zero.mp (le_antisymm hle (abs_nonneg _)))
      have hprod : 0 < (n : ℚ) * (value.toRat / grid.toRat) :=
        lt_of_le_of_ne hcut.sign (mul_ne_zero (Int.cast_ne_zero.mpr hne) hquot).symm
      calc 0 < (n : ℚ) * (value.toRat / grid.toRat) * (grid.toRat * grid.toRat) :=
            mul_pos hprod (mul_pos hpos hpos)
        _ = r.toRat * (value.toRat / grid.toRat * grid.toRat) := by rw [hr]; ring
        _ = r.toRat * value.toRat := by rw [← hvalue]
  case le =>
    rw [hr, hvalue, abs_mul, abs_mul]
    exact mul_le_mul_of_nonneg_right hcut.le (abs_nonneg _)
  case near =>
    have hscaled := mul_lt_mul_of_pos_right hcut.abs_sub_lt_one hpos
    rw [one_mul] at hscaled
    calc |value.toRat - r.toRat| = |(value.toRat / grid.toRat - n) * grid.toRat| := by
          rw [sub_mul, ← hvalue, hr]
      _ = |value.toRat / grid.toRat - n| * grid.toRat := by rw [abs_mul, abs_of_pos hpos]
      _ < grid.toRat := hscaled
  case again => exact roundToGrid_of_multiple hops hgrid hwhole hr

/-- Whatever keeps the promises is the multiple of the grid on the side of zero. -/
theorem RoundedDown.exists_isCut {r : RustDecimal} (h : RoundedDown ops value grid r)
    (hpos : 0 < grid.toRat) :
    ∃ n : ℤ, r.toRat = n * grid.toRat ∧ IsCut (value.toRat / grid.toRat) n := by
  obtain ⟨n, hn, -⟩ := h.multiple
  have hvalue : value.toRat = value.toRat / grid.toRat * grid.toRat :=
    (div_mul_cancel₀ _ hpos.ne').symm
  set q := value.toRat / grid.toRat
  have hle := h.le
  have hnear := h.near
  have hsign := h.sign
  rw [hn, hvalue] at hle hnear hsign
  refine ⟨n, hn, ?_, ?_, ?_⟩
  · rw [abs_mul, abs_mul] at hle
    exact le_of_mul_le_mul_right hle (abs_pos.mpr hpos.ne')
  · rw [← sub_mul, abs_mul, abs_of_pos hpos] at hnear
    have hclose : |q - n| < 1 := lt_of_mul_lt_mul_right (by rwa [one_mul]) hpos.le
    linarith [abs_sub_abs_le_abs_sub q n]
  · rcases hsign with hzero | hsame
    · rw [(mul_eq_zero.mp hzero).resolve_right hpos.ne', zero_mul]
    · have hprod : (n : ℚ) * grid.toRat * (q * grid.toRat) = n * q * (grid.toRat * grid.toRat) := by
        ring
      rw [hprod] at hsame
      exact (pos_of_mul_pos_left hsame (mul_pos hpos hpos).le).le

/-- Where every promise is kept, the quotient passes for no whole number beyond it. -/
theorem RoundedDown.le_of_passesFor (hops : ops.Lawful) (hpos : 0 < grid.toRat) {r : RustDecimal}
    (hdown : RoundedDown ops value grid r) (h : roundToGrid ops value grid = some r) {m : ℤ}
    (hm : Decimal.PassesFor (2 ^ 96) 28 (value.toRat / grid.toRat) m) :
    |(m : ℚ)| ≤ |value.toRat / grid.toRat| := by
  have hgrid : grid.mantissa ≠ 0 := fun h => hpos.ne' (Decimal.mantissa_eq_zero_iff.mp h)
  obtain ⟨quotient, whole, hquotient, hwhole, hmul⟩ := roundToGrid_eq_some hops hgrid h
  obtain ⟨n, hn, hcut⟩ := hdown.exists_isCut hpos
  by_contra hbeyond
  -- the product that is rounded lies beyond the value, and rounding passes no decimal
  have hval := (Decimal.passesFor_iff hquotient).mp hm
  rw [Decimal.trunc_eq hval] at hwhole
  have hproduct := hops.mul_rounded whole grid
  rw [hmul, Option.map_some, eq_comm, Option.map_eq_some_iff, hwhole] at hproduct
  obtain ⟨p, hp, hpr⟩ := hproduct
  have hvalue : |value.toRat| ≤ |(m : ℚ) * grid.toRat| := by
    have hscaled := mul_le_mul_of_nonneg_right (not_le.mp hbeyond).le (abs_nonneg grid.toRat)
    rwa [← abs_mul, ← abs_mul, div_mul_cancel₀ _ hpos.ne'] at hscaled
  have hle := Decimal.abs_le_abs_rounded (by norm_num) hp hvalue
  rw [hpr] at hle
  -- so the value is the answer in size, and the quotient is its own cut
  have hsize := le_antisymm hdown.le hle
  have hcutSize : |(n : ℚ)| = |value.toRat / grid.toRat| := by
    rw [abs_div, ← hsize, hn, abs_mul, mul_div_cancel_right₀ _ (abs_pos.mpr hpos.ne').ne']
  have hquot : value.toRat / grid.toRat = n := by
    have hzero := hcut.abs_sub
    rw [hcutSize, sub_self] at hzero
    exact sub_eq_zero.mp (abs_eq_zero.mp hzero)
  have hpass : Decimal.PassesFor (2 ^ 96) 28 (value.toRat / grid.toRat) n := by
    rw [hquot]
    exact Decimal.passesFor_intCast n
  have hmn : (m : ℚ) = n := hval.symm.trans ((Decimal.passesFor_iff hquotient).mp hpass)
  exact hbeyond (by rw [hmn, hcutSize])

/-- **When rounding is towards zero.** For every value and every positive grid on which the
operations do not panic: the answer keeps every promise if and only if the quotient does not pass
for a whole number beyond it and the multiple of the grid that is due is a decimal. -/
theorem roundedDown_roundToGrid_iff (hops : ops.Lawful) (hpos : 0 < grid.toRat) {r : RustDecimal}
    (h : roundToGrid ops value grid = some r) :
    RoundedDown ops value grid r ↔ RoundsDown value grid := by
  constructor
  · intro hdown
    obtain ⟨n, hn, hcut⟩ := hdown.exists_isCut hpos
    refine ⟨fun m hm => hdown.le_of_passesFor hops hpos h hm, fun m hm => ⟨r, ?_⟩⟩
    rw [hm.unique hcut, hn]
  · rintro ⟨hpasses, hexact⟩
    have hgrid : grid.mantissa ≠ 0 := fun h => hpos.ne' (Decimal.mantissa_eq_zero_iff.mp h)
    obtain ⟨quotient, whole, hquotient, hwhole, hmul⟩ := roundToGrid_eq_some hops hgrid h
    have hwithin : |(quotient.trunc : ℚ)| ≤ |value.toRat / grid.toRat| := by
      by_contra hbeyond
      have hval := Decimal.toRat_eq_trunc_of_lt hquotient (not_le.mp hbeyond)
      exact hbeyond (hpasses _ ((Decimal.passesFor_iff hquotient).mpr hval))
    have hcut := Decimal.isCut_of_trunc_le hquotient hwithin
    obtain ⟨d, hd⟩ := hexact _ hcut
    obtain ⟨product, hproduct, hval⟩ := hops.mul_eq whole grid d (by rw [hd, hwhole])
    rw [hmul] at hproduct
    obtain rfl := Option.some.inj hproduct
    exact roundedDown_of_isCut hops hpos hcut hwhole (hval.trans hd)

/-- **Prices and quantities are rounded towards zero** where the quotient and the product allow it,
and nowhere else. -/
theorem Instrument.roundedDown_iff (hops : ops.Lawful) (instrument : Instrument RustDecimal)
    (htick : 0 < instrument.tickSize.toRat) (hstep : 0 < instrument.stepSize.toRat)
    (value : RustDecimal) :
    (∀ r, instrument.roundPrice ops value = some r →
      (RoundedDown ops value instrument.tickSize r ↔ RoundsDown value instrument.tickSize)) ∧
    (∀ r, instrument.roundQty ops value = some r →
      (RoundedDown ops value instrument.stepSize r ↔ RoundsDown value instrument.stepSize)) :=
  ⟨fun _ h => roundedDown_roundToGrid_iff hops htick h,
    fun _ h => roundedDown_roundToGrid_iff hops hstep h⟩

/-- A price in the last of 28 places below five. -/
def priceBelowFive : RustDecimal := .ofParts 49999999999999999999999999999 28 (by decide)

theorem Instrument.roundedDown_iff_halfTick :
    (∀ r, halfTick.roundPrice OrderOps.rounding priceBelowFive = some r →
      (RoundedDown OrderOps.rounding priceBelowFive halfTick.tickSize r ↔
        RoundsDown priceBelowFive halfTick.tickSize)) ∧
    (∀ r, halfTick.roundQty OrderOps.rounding priceBelowFive = some r →
      (RoundedDown OrderOps.rounding priceBelowFive halfTick.stepSize r ↔
        RoundsDown priceBelowFive halfTick.stepSize)) :=
  Instrument.roundedDown_iff OrderOps.rounding_lawful halfTick
    (by norm_num [Decimal.toRat, halfTick]) (by norm_num [Decimal.toRat, halfTick]) priceBelowFive

/-- Five, as it comes out. -/
def fiveRounded : RustDecimal := .ofParts 50000000000000000000000000000 28 (by decide)

/-- A tick of one and a tenth. -/
def elevenTenths : RustDecimal := .ofParts 11 1 (by decide)

/-- Just below five is rounded up to five, and the largest price there is stays off a tick of one
and a tenth. -/
theorem not_roundedDown_below_five :
    (halfTick.roundPrice OrderOps.rounding priceBelowFive = some fiveRounded ∧
      ¬ RoundedDown OrderOps.rounding priceBelowFive halfTick.tickSize fiveRounded) ∧
    (∃ r, roundToGrid OrderOps.rounding Instrument.maxPrice elevenTenths = some r ∧
      ¬ RoundedDown OrderOps.rounding Instrument.maxPrice elevenTenths r) := by
  refine ⟨⟨by decide +kernel, fun h => ?_⟩, Instrument.maxPrice, by decide +kernel, fun h => ?_⟩
  · have hle := h.le
    norm_num [Decimal.toRat, Decimal.ofParts, priceBelowFive, fiveRounded] at hle
  · obtain ⟨n, -, hoff, -⟩ := h.multiple
    exact absurd hoff (by decide +kernel)

end MoonCore
