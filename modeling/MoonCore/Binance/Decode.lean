import MoonCore.Binance.Connector
import MoonCore.ForMathlib.Json
import MoonCore.MarketData.BookTruth

/-!
# The venue's payloads

`binance::wire` and `decode`. A stream frame is text; what `serde_json` makes of it, and what
`rust_decimal` makes of a number written as a string, are parameters (`Formats`). `decode` picks the
two kinds of frames the connector knows and translates them: the taker is whoever was not the maker,
and the id of the update before is stated outright by one market and implied by the other.

`Venue.Sends` is a book update as the venue documents it, in either market's numbering;
`Venue.publishes_intoDomain` says that its translation is one of the changes book truth rests on.
-/

namespace MoonCore

namespace Json

/-- The value as a `u64`, if it is a whole number that fits. -/
def asU64 : Json → Option ℕ
  | .int n => if 0 ≤ n ∧ n < 2 ^ 64 then some n.toNat else none
  | _ => none

/-- The value as an `i64`, if it is a whole number that fits. -/
def asI64 : Json → Option ℤ
  | .int n => if IsI64 n then some n else none
  | _ => none

/-- The value as a boolean. -/
def asBool : Json → Option Bool
  | .bool b => some b
  | _ => none

end Json

/-- What the connector leaves to libraries. -/
structure Formats (D : Type) where
  /-- `serde_json::from_str`. -/
  json : String → Option Json
  /-- `rust_decimal::serde::str`. -/
  decimal : String → Option D

variable {D : Type}

/-- `["64000.10", "0.235"]`: numbers are strings throughout. -/
structure RawLevel (D : Type) where
  price : D
  qty : D

/-- A level of the venue, as one of a book. -/
def RawLevel.intoLevel (self : RawLevel D) : BookLevel D := ⟨self.price, self.qty⟩

/-- The levels of one side, in the order they were sent. -/
def levels (raw : List (RawLevel D)) : List (BookLevel D) := raw.map RawLevel.intoLevel

/-- A print, as the stream has it. -/
structure AggTrade (D : Type) where
  symbol : String
  aggId : ℕ
  price : D
  qty : D
  tradeTime : ℤ
  /-- True when the *buyer* was the maker. -/
  buyerIsMaker : Bool

/-- Binance reports who made the market; what is stored is who took it. -/
def AggTrade.intoDomain (self : AggTrade D) (symbol : Symbol) : PublicTrade D where
  symbol := symbol
  price := self.price
  qty := self.qty
  takerSide := if self.buyerIsMaker then .sell else .buy
  ts := self.tradeTime
  id := self.aggId

/-- A book update, as the stream has it. -/
structure DepthUpdate (D : Type) where
  symbol : String
  firstUpdateId : ℕ
  finalUpdateId : ℕ
  /-- Final update id of the *previous* event. USD-M futures only. -/
  prevFinalUpdateId : Option ℕ
  bids : List (RawLevel D)
  asks : List (RawLevel D)
  eventTime : ℤ

/-- The change of the book that an update states. -/
def DepthUpdate.intoDomain (self : DepthUpdate D) (symbol : Symbol) : BookDelta D where
  symbol := symbol
  -- futures state the previous final id in `pu`; spot guarantees that it is `U - 1`
  prevUpdateId := self.prevFinalUpdateId.getD (self.firstUpdateId - 1)
  lastUpdateId := self.finalUpdateId
  bids := levels self.bids
  asks := levels self.asks
  ts := self.eventTime

/-- The answer to a snapshot request. -/
structure DepthSnapshot (D : Type) where
  lastUpdateId : ℕ
  bids : List (RawLevel D)
  asks : List (RawLevel D)

/-- The book that a snapshot states, for the symbol it was asked for. -/
def DepthSnapshot.intoDomain (self : DepthSnapshot D) (symbol : Symbol) (ts : Timestamp) :
    OrderBook D where
  symbol := some symbol
  bids := levels self.bids
  asks := levels self.asks
  lastUpdateId := self.lastUpdateId
  ts := ts
  -- not yet joined to the delta stream
  synced := false

/-- What one stream frame turned out to be. -/
inductive Decoded (D : Type) where
  | trade (trade : PublicTrade D)
  | delta (delta : BookDelta D)

/-- The symbol a decoded frame is about. -/
def Decoded.symbol : Decoded D → Symbol
  | .trade print => print.symbol
  | .delta update => update.symbol

section Deserialize

variable (formats : Formats D)

/-- A number written as a string. -/
def decimalStr (value : Json) : Option D := value.asStr >>= formats.decimal

/-- A level is written as a pair of strings. -/
def RawLevel.fromValue : Json → Option (RawLevel D)
  | .arr [price, qty] => do return ⟨← decimalStr formats price, ← decimalStr formats qty⟩
  | _ => none

/-- The print, from the one-letter fields of its event. -/
def AggTrade.fromValue (value : Json) : Option (AggTrade D) := do
  return {
    symbol := ← value.get "s" >>= Json.asStr
    aggId := ← value.get "a" >>= Json.asU64
    price := ← value.get "p" >>= decimalStr formats
    qty := ← value.get "q" >>= decimalStr formats
    tradeTime := ← value.get "T" >>= Json.asI64
    buyerIsMaker := ← value.get "m" >>= Json.asBool }

/-- A field that may be absent or null. -/
def optU64 : Option Json → Option (Option ℕ)
  | none => some none
  | some .null => some none
  | some value => value.asU64.map some

/-- The levels of one side, of which each has to be well formed. -/
def rawLevels (value : Json) : Option (List (RawLevel D)) :=
  value.asArr >>= fun items => items.mapM (RawLevel.fromValue formats)

/-- The update, from the one-letter fields of its event. -/
def DepthUpdate.fromValue (value : Json) : Option (DepthUpdate D) := do
  return {
    symbol := ← value.get "s" >>= Json.asStr
    firstUpdateId := ← value.get "U" >>= Json.asU64
    finalUpdateId := ← value.get "u" >>= Json.asU64
    prevFinalUpdateId := ← optU64 (value.get "pu")
    bids := ← value.get "b" >>= rawLevels formats
    asks := ← value.get "a" >>= rawLevels formats
    eventTime := ← value.get "E" >>= Json.asI64 }

/-- Turn one stream frame into something the connector recognises; acknowledgements, unknown
stream types and whatever is no JSON are nothing. -/
def decode (text : String) (market : MarketKind) : Option (Decoded D) := do
  let value ← formats.json text
  match ← value.get "e" >>= Json.asStr with
  | "aggTrade" =>
    let raw ← AggTrade.fromValue formats value
    return .trade (raw.intoDomain ⟨.binance, market, raw.symbol⟩)
  | "depthUpdate" =>
    let raw ← DepthUpdate.fromValue formats value
    return .delta (raw.intoDomain ⟨.binance, market, raw.symbol⟩)
  | _ => none

end Deserialize

variable {formats : Formats D}

/-- Everything `decode` can make of a frame. -/
theorem decode_cases {text : String} {market : MarketKind} {decoded : Decoded D}
    (h : decode formats text market = some decoded) :
    ∃ value, formats.json text = some value ∧
      ((∃ raw, AggTrade.fromValue formats value = some raw ∧
        decoded = .trade (raw.intoDomain ⟨.binance, market, raw.symbol⟩)) ∨
      value.get "e" >>= Json.asStr = some "depthUpdate" ∧
        ∃ raw, DepthUpdate.fromValue formats value = some raw ∧
          decoded = .delta (raw.intoDomain ⟨.binance, market, raw.symbol⟩)) := by
  obtain ⟨value, hvalue, h⟩ := Option.bind_eq_some_iff.mp h
  obtain ⟨kind, hkind, h⟩ := Option.bind_eq_some_iff.mp h
  refine ⟨value, hvalue, ?_⟩
  split at h
  · obtain ⟨raw, hraw, h⟩ := Option.bind_eq_some_iff.mp h
    exact .inl ⟨raw, hraw, (Option.some.inj h).symm⟩
  · obtain ⟨raw, hraw, h⟩ := Option.bind_eq_some_iff.mp h
    exact .inr ⟨hkind, raw, hraw, (Option.some.inj h).symm⟩
  · cases h

/-- A connector sees symbols of its own market only. -/
theorem decode_market {text : String} {market : MarketKind} {decoded : Decoded D}
    (h : decode formats text market = some decoded) :
    decoded.symbol.exchange = .binance ∧ decoded.symbol.market = market := by
  obtain ⟨value, -, ⟨raw, -, rfl⟩ | ⟨-, raw, -, rfl⟩⟩ := decode_cases h
  · exact ⟨rfl, rfl⟩
  · exact ⟨rfl, rfl⟩

/-! ### What reaches a connector -/

/-- What a connector's socket task is handed, before it decodes it. -/
inductive Arrival (D : Type) where
  | connecting (now : Timestamp)
  | ready (now : Timestamp)
  /-- A text frame of the stream. -/
  | text (frame : String) (now : Timestamp)
  /-- The answer to a snapshot request; every request is for a symbol of the connector's market. -/
  | snapshot (ticker : String) (raw : DepthSnapshot D) (fetchedAt now : Timestamp)
  | failed (ticker : String)
  | disconnected (reason : String) (now : Timestamp)

/-- What the socket task makes of it; frames it does not know are dropped. -/
def Arrival.input (formats : Formats D) (market : MarketKind) : Arrival D → Option (Input D)
  | .connecting now => some (.connecting now)
  | .ready now => some (.ready now)
  | .text frame now =>
    match decode formats frame market with
    | some (.trade trade) => some (.trade trade now)
    | some (.delta delta) => some (.delta delta now)
    | none => none
  | .snapshot ticker raw fetchedAt now =>
    some (.fetched (raw.intoDomain ⟨.binance, market, ticker⟩ fetchedAt) now)
  | .failed ticker => some (.failed ⟨.binance, market, ticker⟩)
  | .disconnected reason now => some (.disconnected reason now)

/-! ### A venue that keeps its documentation -/

section Venue

variable [LinearOrder D] [Zero D]

/-- A book update as its market documents it: it carries every change after the update before it,
whose final id futures state and spot's own first id follows. -/
structure Venue.Sends (V : Venue D) (symbol : Symbol) (raw : DepthUpdate D) (prev : ℕ) : Prop where
  numbered : match symbol.market with
    | .spot => raw.prevFinalUpdateId = none ∧ raw.firstUpdateId = prev + 1
    | _ => raw.prevFinalUpdateId = some prev
  bids : Carries (V.bids symbol) prev raw.finalUpdateId (levels raw.bids)
  asks : Carries (V.asks symbol) prev raw.finalUpdateId (levels raw.asks)

/-- In either market's numbering, what a documented update is translated to carries the changes
after the id it names. -/
theorem Venue.publishes_intoDomain {V : Venue D} {symbol : Symbol} {raw : DepthUpdate D} {prev : ℕ}
    (h : V.Sends symbol raw prev) : V.Publishes (raw.intoDomain symbol) := by
  have hprev : (raw.intoDomain symbol).prevUpdateId = prev := by
    have hnumbered := h.numbered
    rw [DepthUpdate.intoDomain]
    split at hnumbered
    · rw [hnumbered.1, hnumbered.2]
      rfl
    · rw [hnumbered]
      rfl
  constructor
  · rw [hprev]
    exact h.bids
  · rw [hprev]
    exact h.asks

/-- What the venue hands over is what it documents: book updates that carry their changes, and
snapshots of the book at the id they name. Prints and everything else are free. -/
def Arrival.Truthful (V : Venue D) (formats : Formats D) (market : MarketKind) :
    Arrival D → Prop
  | .text frame _ => ∀ value raw, formats.json frame = some value →
      value.get "e" >>= Json.asStr = some "depthUpdate" →
      DepthUpdate.fromValue formats value = some raw →
        ∃ prev, V.Sends ⟨.binance, market, raw.symbol⟩ raw prev
  | .snapshot ticker raw _ _ =>
      levels raw.bids = V.bids ⟨.binance, market, ticker⟩ raw.lastUpdateId ∧
        levels raw.asks = V.asks ⟨.binance, market, ticker⟩ raw.lastUpdateId
  | _ => True

/-- A decoded input whose change or snapshot, if it has one, is the venue's. -/
def Venue.Gives (V : Venue D) : Input D → Prop
  | .delta delta _ => V.Publishes delta
  | .fetched snapshot _ => V.Answers snapshot
  | _ => True

/-- Decoding keeps what is documented. -/
theorem Arrival.Truthful.gives {V : Venue D} {market : MarketKind} {arrival : Arrival D}
    (h : arrival.Truthful V formats market) {input : Input D}
    (hinput : arrival.input formats market = some input) : V.Gives input := by
  cases arrival with
  | text frame now =>
    rw [Arrival.input] at hinput
    split at hinput
    · obtain rfl := Option.some.inj hinput
      trivial
    · rename_i delta hdecode
      obtain rfl := Option.some.inj hinput
      obtain ⟨value, hvalue, ⟨raw, -, hraw⟩ | ⟨hkind, raw, hparsed, hraw⟩⟩ := decode_cases hdecode
      · cases hraw
      · obtain ⟨prev, hsends⟩ := h value raw hvalue hkind hparsed
        obtain rfl : delta = _ := Decoded.delta.inj hraw
        exact Venue.publishes_intoDomain hsends
    · cases hinput
  | snapshot ticker raw fetchedAt now =>
    obtain rfl := Option.some.inj hinput
    exact ⟨rfl, _, rfl, h.1, h.2⟩
  | _ =>
    obtain rfl := Option.some.inj hinput
    trivial

end Venue

end MoonCore
