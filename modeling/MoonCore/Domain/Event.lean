import MoonCore.Domain.Account
import MoonCore.Domain.Instrument
import MoonCore.Domain.Market

/-!
# The event bus vocabulary

What connectors publish and every consumer folds.
-/

namespace MoonCore

/-- Public data. -/
inductive MarketEvent (D : Type*) where
  | trade (trade : PublicTrade D)
  /-- Full book state; consumers treat it as a reset. -/
  | bookSnapshot (book : OrderBook D)
  | bookDelta (delta : BookDelta D)
  | candle (candle : Candle D)
  /-- Instrument metadata refreshed. -/
  | instruments (exchangeMarket : Symbol) (instruments : List (Instrument D))
  deriving DecidableEq

/-- The instrument an event concerns, when it concerns exactly one. -/
def MarketEvent.symbol {D : Type*} : MarketEvent D → Option Symbol
  | trade t => some t.symbol
  | bookSnapshot b => b.symbol
  | bookDelta d => some d.symbol
  | candle c => some c.symbol
  | instruments _ _ => none

/-- Private data. -/
inductive AccountEvent (D : Type*) where
  | orderUpdate (order : Order D)
  | fill (fill : Fill D)
  | balances (balances : List (Balance D))
  | positions (positions : List (Position D))
  deriving DecidableEq

/-- Connector health. -/
inductive ConnectionEvent where
  | connecting
  | ready
  | resyncing (reason : String)
  | disconnected (reason : String)
  deriving DecidableEq

/-- What an event is about. -/
inductive Payload (D : Type*) where
  | market (event : MarketEvent D)
  | account (event : AccountEvent D)
  | connection (event : ConnectionEvent)
  deriving DecidableEq

/-- Everything the core publishes, stamped with when it was produced. -/
structure Event (D : Type*) where
  at_ : Timestamp
  payload : Payload D
  deriving DecidableEq

namespace Event

variable {D : Type*}

/-- A public event. -/
def market (ts : Timestamp) (event : MarketEvent D) : Event D := ⟨ts, .market event⟩

/-- A health event. -/
def connection (ts : Timestamp) (event : ConnectionEvent) : Event D := ⟨ts, .connection event⟩

/-- True for events that must not be sent to an unauthenticated consumer. -/
def isPrivate (self : Event D) : Bool :=
  match self.payload with
  | .account _ => true
  | _ => false

/-- The print an event carries for a key. -/
def tradeIn (key : String) (self : Event D) : Option (PublicTrade D) :=
  match self.payload with
  | .market (.trade trade) => if trade.symbol.key = key then some trade else none
  | _ => none

@[simp]
theorem market_payload (ts : Timestamp) (event : MarketEvent D) :
    (market ts event).payload = .market event := rfl

@[simp]
theorem connection_payload (ts : Timestamp) (event : ConnectionEvent) :
    (connection ts event : Event D).payload = .connection event := rfl

end Event

end MoonCore
