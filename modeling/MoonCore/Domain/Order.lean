import Mathlib.Algebra.Group.Nat.Defs
import Mathlib.Algebra.Ring.Int.Defs
import MoonCore.Domain.Ids

/-!
# Orders and their state machine

The order types of the domain and the lifecycle rule, `OrderStatus.canAdvanceTo`: a status
moves to one of higher rank, a partial fill may follow a partial fill, and a terminal status
moves nowhere. Quantities and prices are elements of a type `D` of decimals; nothing in this
file computes with them.
-/

namespace MoonCore

/-- Milliseconds since the Unix epoch, as venues stamp them. -/
abbrev Timestamp := ℤ

/-- Two's-complement reading of an integer in 64 bits, which is what the arithmetic of
timestamps leaves behind when it overflows. -/
def wrapI64 (x : ℤ) : ℤ := Int.bmod x (2 ^ 64)

/-- The value of an `i64`. -/
def IsI64 (x : ℤ) : Prop := -2 ^ 63 ≤ x ∧ x < 2 ^ 63

instance (x : ℤ) : Decidable (IsI64 x) := inferInstanceAs (Decidable (_ ∧ _))

/-- What fits is left as it is. -/
theorem wrapI64_of_isI64 {x : ℤ} (h : IsI64 x) : wrapI64 x = x := by
  obtain ⟨hlo, hhi⟩ := h
  rw [wrapI64, Int.bmod_def]
  split <;> omega

/-- Overflow never makes a length of time longer. -/
theorem wrapI64_le_self {x : ℤ} (h : 0 ≤ x) : wrapI64 x ≤ x := by
  rw [wrapI64, Int.bmod_def]
  split <;> omega

/-- Signed age against a reference clock; negative when the stamp is in the future. -/
def Timestamp.ageMillisFrom (ts now : Timestamp) : ℤ := wrapI64 (now - ts)

/-- The side of an order or of a trade's aggressor. -/
inductive Side where
  | buy
  | sell
  deriving DecidableEq, Repr

/-- How an order executes. -/
inductive OrderType where
  | limit
  | market
  | stopMarket
  | stopLimit
  | takeProfitMarket
  | takeProfitLimit
  deriving DecidableEq, Repr

/-- How long an order works. -/
inductive TimeInForce where
  | gtc
  | ioc
  | fok
  | postOnly
  deriving DecidableEq, Repr

/-- Which leg of a hedged position an order applies to. -/
inductive PositionSide where
  | both
  | long
  | short
  deriving DecidableEq, Repr

/-- Where an order is in its life. -/
inductive OrderStatus where
  | pending
  | new
  | partiallyFilled
  | filled
  | canceled
  | rejected
  | expired
  deriving DecidableEq, Repr

namespace OrderStatus

/-- Terminal states never change again. -/
def isTerminal : OrderStatus → Bool
  | filled | canceled | rejected | expired => true
  | _ => false

/-- States in which the order may still be working at the venue. -/
def isOpen : OrderStatus → Bool
  | pending | new | partiallyFilled => true
  | _ => false

/-- Rank used to reject out-of-order venue updates. -/
def rank : OrderStatus → ℕ
  | pending => 0
  | new => 1
  | partiallyFilled => 2
  | filled | canceled | rejected | expired => 3

/-- Whether `next` is a legal successor. -/
def canAdvanceTo (self next : OrderStatus) : Bool :=
  if self.isTerminal then false
  else decide (next.rank > self.rank) || (next.rank == self.rank && next.rank == 2)

/-- Every status is either open or terminal. -/
theorem isOpen_eq_not_isTerminal (s : OrderStatus) : s.isOpen = !s.isTerminal := by
  cases s <;> rfl

/-- A change of status is legal exactly when it climbs in rank: the same-rank successor of
the rule is a partial fill after a partial fill, which changes no status. -/
theorem canAdvanceTo_iff_rank_lt {s t : OrderStatus} (h : s ≠ t) :
    s.canAdvanceTo t ↔ s.rank < t.rank := by
  cases s <;> cases t <;> first | exact absurd rfl h | decide

end OrderStatus

/-- Client-generated order id. -/
abbrev ClientOrderId := String

/-- An order request, before the venue has seen it. -/
structure NewOrder (D : Type*) where
  clientId : ClientOrderId
  symbol : Symbol
  side : Side
  orderType : OrderType
  qty : D
  price : Option D
  triggerPrice : Option D
  tif : TimeInForce
  positionSide : PositionSide
  reduceOnly : Bool
  deriving DecidableEq

/-- A live or historical order as the core understands it. -/
structure Order (D : Type*) where
  clientId : ClientOrderId
  venueId : Option String
  symbol : Symbol
  side : Side
  orderType : OrderType
  status : OrderStatus
  qty : D
  filledQty : D
  price : Option D
  triggerPrice : Option D
  avgPrice : D
  tif : TimeInForce
  positionSide : PositionSide
  reduceOnly : Bool
  createdAt : Timestamp
  updatedAt : Timestamp
  deriving DecidableEq

/-- A single execution against an order. -/
structure Fill (D : Type*) where
  clientId : ClientOrderId
  symbol : Symbol
  /-- Venue trade id. -/
  tradeId : String
  side : Side
  price : D
  qty : D
  fee : D
  feeAsset : String
  /-- True when the fill added liquidity. -/
  isMaker : Bool
  ts : Timestamp
  deriving DecidableEq

end MoonCore
