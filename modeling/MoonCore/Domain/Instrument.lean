import MoonCore.Domain.Ids

/-!
# Instrument metadata

`domain::instrument`. The venue's terms for one instrument, over any type of decimals.
-/

namespace MoonCore

/-- Static (slow-changing) description of a tradable instrument. -/
structure Instrument (D : Type*) where
  symbol : Symbol
  /-- Asset being traded. -/
  base : String
  /-- Asset the price is quoted in. -/
  quote_ : String
  /-- Asset that margin is posted in. -/
  marginAsset : String
  /-- Minimum price increment. -/
  tickSize : D
  /-- Minimum quantity increment. -/
  stepSize : D
  minQty : D
  minNotional : D
  /-- False while the venue has the instrument halted or delisted. -/
  trading : Bool
  deriving DecidableEq

end MoonCore
