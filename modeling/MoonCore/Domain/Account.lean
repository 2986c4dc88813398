import MoonCore.Domain.Order

/-!
# Account state

`domain::account`: balances on every market, positions on derivatives only. Nothing here computes
with them; they are what the account events carry.
-/

namespace MoonCore

/-- What an account holds of one asset. -/
structure Balance (D : Type*) where
  asset : String
  /-- Available to trade. -/
  free : D
  /-- Reserved by working orders or posted as margin. -/
  locked : D
  deriving DecidableEq

/-- What a position can draw on. -/
inductive MarginMode where
  | cross
  | isolated
  deriving DecidableEq, Repr

/-- An open derivatives position. -/
structure Position (D : Type*) where
  symbol : Symbol
  /-- `both` in one-way mode; `long` or `short` when the account is hedged. -/
  side : PositionSide
  qty : D
  entryPrice : D
  /-- Venue mark price. -/
  markPrice : D
  unrealizedPnl : D
  leverage : D
  marginMode : MarginMode
  /-- Absent when the venue does not publish one, or the position is flat. -/
  liquidationPrice : Option D
  updatedAt : Timestamp
  deriving DecidableEq

end MoonCore
