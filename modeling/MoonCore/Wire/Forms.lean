import MoonCore.ForMathlib.Serde
import MoonCore.Wire.Session

/-!
# The forms of the messages

The `Codec` of each message and of all it carries, by the derives and attributes of the types in
`domain`, `exchange` and `wire`. How decimals are printed and parsed is a parameter (`Decimals`).
-/

namespace MoonCore

open MsgPack

/-! ### Scalars -/

namespace Codec

/-- A `u16`. -/
def u16 : Codec UInt16 :=
  (nat (256 ^ 2) (by decide)).conv .ofNat UInt16.toNat fun _ => UInt16.ofNat_toNat

/-- A `u32`, as a number. -/
def u32 : Codec ℕ := nat (256 ^ 4) (by decide)

/-- A `u64`, as a number. -/
def u64 : Codec ℕ := nat (256 ^ 8) le_rfl

/-- A `u64`, as itself. -/
def nonce : Codec UInt64 := u64.conv .ofNat UInt64.toNat fun _ => UInt64.ofNat_toNat

end Codec

/-- How decimals are printed and parsed. -/
structure Decimals (D : Type*) where
  /-- The decimals the program's type holds. -/
  Valid : D → Prop
  decidable : DecidablePred Valid
  print : D → String
  parse : String → Option D
  parse_print : ∀ d, Valid d → parse (print d) = some d

/-- A decimal is written as its text. -/
def Decimals.codec {D : Type*} (decimals : Decimals D) : Codec D where
  Valid := decimals.Valid
  decidable := decimals.decidable
  encode d := .string (decimals.print d)
  decode value := value.text.bind decimals.parse
  fits _ _ := .string _
  decode_encode := decimals.parse_print

/-! ### The domain -/

/-- A venue, by its name. -/
def ExchangeId.codec : Codec ExchangeId :=
  (Variants.units [.binance, .bybit] ExchangeId.asStr fun e => by cases e <;> rfl).external

/-- A kind of market, by its name. -/
def MarketKind.codec : Codec MarketKind :=
  (Variants.units [.spot, .linearPerp, .inversePerp] MarketKind.asStr
    fun m => by cases m <;> rfl).external

/-- The side's name on the wire. -/
def Side.wireName : Side → String
  | .buy => "buy"
  | .sell => "sell"

/-- A side, by its name. -/
def Side.codec : Codec Side :=
  (Variants.units [.buy, .sell] Side.wireName fun s => by cases s <;> rfl).external

/-- The type's name on the wire. -/
def OrderType.wireName : OrderType → String
  | .limit => "limit"
  | .market => "market"
  | .stopMarket => "stop_market"
  | .stopLimit => "stop_limit"
  | .takeProfitMarket => "take_profit_market"
  | .takeProfitLimit => "take_profit_limit"

/-- An order's type, by its name. -/
def OrderType.codec : Codec OrderType :=
  (Variants.units
    [.limit, .market, .stopMarket, .stopLimit, .takeProfitMarket, .takeProfitLimit]
    OrderType.wireName fun t => by cases t <;> rfl).external

/-- How long an order works, on the wire. -/
def TimeInForce.wireName : TimeInForce → String
  | .gtc => "gtc"
  | .ioc => "ioc"
  | .fok => "fok"
  | .postOnly => "post_only"

/-- How long an order works, by its name. -/
def TimeInForce.codec : Codec TimeInForce :=
  (Variants.units [.gtc, .ioc, .fok, .postOnly] TimeInForce.wireName
    fun t => by cases t <;> rfl).external

/-- The leg's name on the wire. -/
def PositionSide.wireName : PositionSide → String
  | .both => "both"
  | .long => "long"
  | .short => "short"

/-- The leg of a position, by its name. -/
def PositionSide.codec : Codec PositionSide :=
  (Variants.units [.both, .long, .short] PositionSide.wireName
    fun s => by cases s <;> rfl).external

/-- The status' name on the wire. -/
def OrderStatus.wireName : OrderStatus → String
  | .pending => "pending"
  | .new => "new"
  | .partiallyFilled => "partially_filled"
  | .filled => "filled"
  | .canceled => "canceled"
  | .rejected => "rejected"
  | .expired => "expired"

/-- An order's status, by its name. -/
def OrderStatus.codec : Codec OrderStatus :=
  (Variants.units [.pending, .new, .partiallyFilled, .filled, .canceled, .rejected, .expired]
    OrderStatus.wireName fun s => by cases s <;> rfl).external

/-- The mode's name on the wire. -/
def MarginMode.wireName : MarginMode → String
  | .cross => "cross"
  | .isolated => "isolated"

/-- A margin mode, by its name. -/
def MarginMode.codec : Codec MarginMode :=
  (Variants.units [.cross, .isolated] MarginMode.wireName fun m => by cases m <;> rfl).external

/-- An instrument's symbol, as its three parts. -/
def Symbol.codec : Codec Symbol :=
  Fields.one "exchange" ExchangeId.codec
    |>.more "market" MarketKind.codec (by decide)
    |>.more "raw" .string (by decide)
    |>.record.conv (fun ((exchange, market), raw) => ⟨exchange, market, raw⟩)
      (fun s => ((s.exchange, s.market), s.raw)) fun _ => rfl

/-- How bars are cut, with its unit. -/
def Bucketing.codec : Codec Bucketing :=
  (Variants.newtype "Time" (Fields.one "interval_ms" .i64).record
    |>.or (.newtype "Ticks" (Fields.one "count" .u32).record) (by decide)
    |>.conv (Sum.elim .time .ticks)
      (fun
        | .time intervalMs => .inl intervalMs
        | .ticks count => .inr count)
      fun b => by cases b <;> rfl).external

/-- Connector health: two states by name, two with a reason. -/
def ConnectionEvent.codec : Codec ConnectionEvent :=
  (Variants.units [false, true] (fun ready => if ready then "Ready" else "Connecting")
      (fun ready => by cases ready <;> rfl)
    |>.or (.newtype "Resyncing" (Fields.one "reason" .string).record) (by decide)
    |>.or (.newtype "Disconnected" (Fields.one "reason" .string).record) (by decide)
    |>.conv
      (Sum.elim (Sum.elim (fun ready => if ready then .ready else .connecting) .resyncing)
        .disconnected)
      (fun
        | .connecting => .inl (.inl false)
        | .ready => .inl (.inl true)
        | .resyncing reason => .inl (.inr reason)
        | .disconnected reason => .inr reason)
      fun e => by cases e <;> rfl).external

/-- A subscription, by its kind. -/
def Subscription.codec : Codec Subscription :=
  (Variants.newtype "Trades" Symbol.codec
    |>.or (.newtype "Book" Symbol.codec) (by decide)
    |>.or (.newtype "Candles" (Fields.one "symbol" Symbol.codec
      |>.more "interval_ms" .i64 (by decide)
      |>.record)) (by decide)
    |>.conv
      (Sum.elim (Sum.elim .trades .book) fun (symbol, intervalMs) => .candles symbol intervalMs)
      (fun
        | .trades symbol => .inl (.inl symbol)
        | .book symbol => .inl (.inr symbol)
        | .candles symbol intervalMs => .inr (symbol, intervalMs))
      fun s => by cases s <;> rfl).external

section Market

variable {D : Type*} (decimals : Decimals D)

/-- A decimal that may be missing. -/
def Decimals.optional : Codec (Option D) := decimals.codec.option fun _ => nofun

/-- A print. -/
def PublicTrade.codec : Codec (PublicTrade D) :=
  Fields.one "symbol" Symbol.codec
    |>.more "price" decimals.codec (by decide)
    |>.more "qty" decimals.codec (by decide)
    |>.more "taker_side" Side.codec (by decide)
    |>.more "ts" .i64 (by decide)
    |>.more "id" .u64 (by decide)
    |>.record.conv
      (fun (((((symbol, price), qty), takerSide), ts), id) =>
        ⟨symbol, price, qty, takerSide, ts, id⟩)
      (fun t => (((((t.symbol, t.price), t.qty), t.takerSide), t.ts), t.id)) fun _ => rfl

/-- A level of a book. -/
def BookLevel.codec : Codec (BookLevel D) :=
  Fields.one "price" decimals.codec
    |>.more "qty" decimals.codec (by decide)
    |>.record.conv (fun (price, qty) => ⟨price, qty⟩) (fun level => (level.price, level.qty))
      fun _ => rfl

/-- A book. A symbol that may be missing is written as `nil`, and read where its field is missing
too. -/
def OrderBook.codec : Codec (OrderBook D) :=
  Fields.oneOr "symbol" none (Symbol.codec.option fun _ => nofun)
    |>.more "bids" (BookLevel.codec decimals).list (by decide)
    |>.more "asks" (BookLevel.codec decimals).list (by decide)
    |>.more "last_update_id" .u64 (by decide)
    |>.more "ts" .i64 (by decide)
    |>.and (.oneOr "synced" false .bool) (by decide)
    |>.record.conv
      (fun (((((symbol, bids), asks), lastUpdateId), ts), synced) =>
        ⟨symbol, bids, asks, lastUpdateId, ts, synced⟩)
      (fun b => (((((b.symbol, b.bids), b.asks), b.lastUpdateId), b.ts), b.synced)) fun _ => rfl

/-- An update of a book. -/
def BookDelta.codec : Codec (BookDelta D) :=
  Fields.one "symbol" Symbol.codec
    |>.more "prev_update_id" .u64 (by decide)
    |>.more "last_update_id" .u64 (by decide)
    |>.more "bids" (BookLevel.codec decimals).list (by decide)
    |>.more "asks" (BookLevel.codec decimals).list (by decide)
    |>.more "ts" .i64 (by decide)
    |>.record.conv
      (fun (((((symbol, prevUpdateId), lastUpdateId), bids), asks), ts) =>
        ⟨symbol, prevUpdateId, lastUpdateId, bids, asks, ts⟩)
      (fun d => (((((d.symbol, d.prevUpdateId), d.lastUpdateId), d.bids), d.asks), d.ts))
      fun _ => rfl

/-- A bar. -/
def Candle.codec : Codec (Candle D) :=
  Fields.one "symbol" Symbol.codec
    |>.more "open_time" .i64 (by decide)
    |>.more "bucketing" Bucketing.codec (by decide)
    |>.more "trades" .u32 (by decide)
    |>.more "open" decimals.codec (by decide)
    |>.more "high" decimals.codec (by decide)
    |>.more "low" decimals.codec (by decide)
    |>.more "close" decimals.codec (by decide)
    |>.more "volume" decimals.codec (by decide)
    |>.more "closed" .bool (by decide)
    |>.record.conv
      (fun (((((((((symbol, openTime), bucketing), trades), open_), high), low), close), volume),
          closed) =>
        ⟨symbol, openTime, bucketing, trades, open_, high, low, close, volume, closed⟩)
      (fun c => (((((((((c.symbol, c.openTime), c.bucketing), c.trades), c.open_), c.high), c.low),
        c.close), c.volume), c.closed))
      fun _ => rfl

/-- The venue's terms for an instrument. -/
def Instrument.codec : Codec (Instrument D) :=
  Fields.one "symbol" Symbol.codec
    |>.more "base" .string (by decide)
    |>.more "quote" .string (by decide)
    |>.more "margin_asset" .string (by decide)
    |>.more "tick_size" decimals.codec (by decide)
    |>.more "step_size" decimals.codec (by decide)
    |>.more "min_qty" decimals.codec (by decide)
    |>.more "min_notional" decimals.codec (by decide)
    |>.more "trading" .bool (by decide)
    |>.record.conv
      (fun ((((((((symbol, base), quote_), marginAsset), tickSize), stepSize), minQty),
          minNotional), trading) =>
        ⟨symbol, base, quote_, marginAsset, tickSize, stepSize, minQty, minNotional, trading⟩)
      (fun i => ((((((((i.symbol, i.base), i.quote_), i.marginAsset), i.tickSize), i.stepSize),
        i.minQty), i.minNotional), i.trading))
      fun _ => rfl

/-- Public data, by its kind. -/
def MarketEvent.codec : Codec (MarketEvent D) :=
  (Variants.newtype "Trade" (PublicTrade.codec decimals)
    |>.or (.newtype "BookSnapshot" (OrderBook.codec decimals)) (by decide)
    |>.or (.newtype "BookDelta" (BookDelta.codec decimals)) (by decide)
    |>.or (.newtype "Candle" (Candle.codec decimals)) (by decide)
    |>.or (.newtype "Instruments" (Fields.one "exchange_market" Symbol.codec
      |>.more "instruments" (Instrument.codec decimals).list (by decide)
      |>.record)) (by decide)
    |>.conv
      (Sum.elim (Sum.elim (Sum.elim (Sum.elim .trade .bookSnapshot) .bookDelta) .candle)
        fun (exchangeMarket, listed) => .instruments exchangeMarket listed)
      (fun
        | .trade print => .inl (.inl (.inl (.inl print)))
        | .bookSnapshot book => .inl (.inl (.inl (.inr book)))
        | .bookDelta delta => .inl (.inl (.inr delta))
        | .candle bar => .inl (.inr bar)
        | .instruments exchangeMarket listed => .inr (exchangeMarket, listed))
      fun e => by cases e <;> rfl).external

/-! ### The account -/

/-- An order. What may be missing is read where its field is missing too. -/
def Order.codec : Codec (Order D) :=
  Fields.one "client_id" .string
    |>.and (.oneOr "venue_id" none (Codec.string.option fun _ => nofun)) (by decide)
    |>.more "symbol" Symbol.codec (by decide)
    |>.more "side" Side.codec (by decide)
    |>.more "order_type" OrderType.codec (by decide)
    |>.more "status" OrderStatus.codec (by decide)
    |>.more "qty" decimals.codec (by decide)
    |>.more "filled_qty" decimals.codec (by decide)
    |>.and (.oneOr "price" none decimals.optional) (by decide)
    |>.and (.oneOr "trigger_price" none decimals.optional) (by decide)
    |>.more "avg_price" decimals.codec (by decide)
    |>.more "tif" TimeInForce.codec (by decide)
    |>.more "position_side" PositionSide.codec (by decide)
    |>.more "reduce_only" .bool (by decide)
    |>.more "created_at" .i64 (by decide)
    |>.more "updated_at" .i64 (by decide)
    |>.record.conv
      (fun (((((((((((((((clientId, venueId), symbol), side), orderType), status), qty),
          filledQty), price), triggerPrice), avgPrice), tif), positionSide), reduceOnly),
          createdAt), updatedAt) =>
        ⟨clientId, venueId, symbol, side, orderType, status, qty, filledQty, price, triggerPrice,
          avgPrice, tif, positionSide, reduceOnly, createdAt, updatedAt⟩)
      (fun o => (((((((((((((((o.clientId, o.venueId), o.symbol), o.side), o.orderType), o.status),
        o.qty), o.filledQty), o.price), o.triggerPrice), o.avgPrice), o.tif), o.positionSide),
        o.reduceOnly), o.createdAt), o.updatedAt))
      fun _ => rfl

/-- An execution. -/
def Fill.codec : Codec (Fill D) :=
  Fields.one "client_id" .string
    |>.more "symbol" Symbol.codec (by decide)
    |>.more "trade_id" .string (by decide)
    |>.more "side" Side.codec (by decide)
    |>.more "price" decimals.codec (by decide)
    |>.more "qty" decimals.codec (by decide)
    |>.more "fee" decimals.codec (by decide)
    |>.more "fee_asset" .string (by decide)
    |>.more "is_maker" .bool (by decide)
    |>.more "ts" .i64 (by decide)
    |>.record.conv
      (fun (((((((((clientId, symbol), tradeId), side), price), qty), fee), feeAsset), isMaker),
          ts) =>
        ⟨clientId, symbol, tradeId, side, price, qty, fee, feeAsset, isMaker, ts⟩)
      (fun f => (((((((((f.clientId, f.symbol), f.tradeId), f.side), f.price), f.qty), f.fee),
        f.feeAsset), f.isMaker), f.ts))
      fun _ => rfl

/-- A balance. -/
def Balance.codec : Codec (Balance D) :=
  Fields.one "asset" .string
    |>.more "free" decimals.codec (by decide)
    |>.more "locked" decimals.codec (by decide)
    |>.record.conv (fun ((asset, free), locked) => ⟨asset, free, locked⟩)
      (fun b => ((b.asset, b.free), b.locked)) fun _ => rfl

/-- A position. -/
def Position.codec : Codec (Position D) :=
  Fields.one "symbol" Symbol.codec
    |>.more "side" PositionSide.codec (by decide)
    |>.more "qty" decimals.codec (by decide)
    |>.more "entry_price" decimals.codec (by decide)
    |>.more "mark_price" decimals.codec (by decide)
    |>.more "unrealized_pnl" decimals.codec (by decide)
    |>.more "leverage" decimals.codec (by decide)
    |>.more "margin_mode" MarginMode.codec (by decide)
    |>.and (.oneOr "liquidation_price" none decimals.optional) (by decide)
    |>.more "updated_at" .i64 (by decide)
    |>.record.conv
      (fun (((((((((symbol, side), qty), entryPrice), markPrice), unrealizedPnl), leverage),
          marginMode), liquidationPrice), updatedAt) =>
        ⟨symbol, side, qty, entryPrice, markPrice, unrealizedPnl, leverage, marginMode,
          liquidationPrice, updatedAt⟩)
      (fun p => (((((((((p.symbol, p.side), p.qty), p.entryPrice), p.markPrice), p.unrealizedPnl),
        p.leverage), p.marginMode), p.liquidationPrice), p.updatedAt))
      fun _ => rfl

/-- Private data, by its kind. -/
def AccountEvent.codec : Codec (AccountEvent D) :=
  (Variants.newtype "OrderUpdate" (Order.codec decimals)
    |>.or (.newtype "Fill" (Fill.codec decimals)) (by decide)
    |>.or (.newtype "Balances" (Balance.codec decimals).list) (by decide)
    |>.or (.newtype "Positions" (Position.codec decimals).list) (by decide)
    |>.conv (Sum.elim (Sum.elim (Sum.elim .orderUpdate .fill) .balances) .positions)
      (fun
        | .orderUpdate order => .inl (.inl (.inl order))
        | .fill execution => .inl (.inl (.inr execution))
        | .balances held => .inl (.inr held)
        | .positions held => .inr held)
      fun e => by cases e <;> rfl).external

/-! ### Events -/

/-- What an event is about, by its kind. -/
def Payload.codec : Codec (Payload D) :=
  (Variants.newtype "Market" (MarketEvent.codec decimals)
    |>.or (.newtype "Account" (AccountEvent.codec decimals)) (by decide)
    |>.or (.newtype "Connection" ConnectionEvent.codec) (by decide)
    |>.conv (Sum.elim (Sum.elim .market .account) .connection)
      (fun
        | .market event => .inl (.inl event)
        | .account event => .inl (.inr event)
        | .connection event => .inr event)
      fun p => by cases p <;> rfl).external

/-- An event and when it was produced. -/
def Event.codec : Codec (Event D) :=
  Fields.one "at" .i64
    |>.more "payload" (Payload.codec decimals) (by decide)
    |>.record.conv (fun (at_, payload) => ⟨at_, payload⟩) (fun e => (e.at_, e.payload)) fun _ => rfl

end Market

/-! ### The messages -/

/-- The code's name on the wire. -/
def ErrorCode.wireName : ErrorCode → String
  | .protocolMismatch => "protocol_mismatch"
  | .unauthorized => "unauthorized"
  | .notAuthenticated => "not_authenticated"
  | .malformed => "malformed"
  | .tooLarge => "too_large"

/-- A code, by its name. -/
def ErrorCode.codec : Codec ErrorCode :=
  (Variants.units [.protocolMismatch, .unauthorized, .notAuthenticated, .malformed, .tooLarge]
    ErrorCode.wireName fun c => by cases c <;> rfl).external

/-- The messages of a terminal and what each holds. -/
def ClientMsg.variants : Variants ["hello", "subscribe", "unsubscribe", "ping"] ClientMsg :=
  Variants.newtype "hello" (Fields.one "protocol" .u16
      |>.more "token" .string (by decide)
      |>.record)
    |>.or (.newtype "subscribe" Subscription.codec.list) (by decide)
    |>.or (.newtype "unsubscribe" Subscription.codec.list) (by decide)
    |>.or (.newtype "ping" .nonce) (by decide)
    |>.conv
      (Sum.elim (Sum.elim (Sum.elim (fun (protocol, token) => .hello protocol token) .subscribe)
        .unsubscribe) .ping)
      (fun
        | .hello protocol token => .inl (.inl (.inl (protocol, token)))
        | .subscribe subs => .inl (.inl (.inr subs))
        | .unsubscribe subs => .inl (.inr subs)
        | .ping nonce => .inr nonce)
      fun m => by cases m <;> rfl

/-- `#[serde(tag = "t", content = "d")]` -/
def ClientMsg.codec : Codec ClientMsg := ClientMsg.variants.adjacent "t" "d" (by decide)

section

variable {D : Type*} (decimals : Decimals D)

/-- The messages of the core and what each holds. -/
def ServerMsg.variants : Variants ["welcome", "event", "pong", "failed"] (ServerMsg D) :=
  Variants.newtype "welcome" (Fields.one "protocol" .u16).record
    |>.or (.newtype "event" (Event.codec decimals)) (by decide)
    |>.or (.newtype "pong" .nonce) (by decide)
    |>.or (.newtype "failed" (Fields.one "code" ErrorCode.codec
      |>.more "message" .string (by decide)
      |>.record)) (by decide)
    |>.conv
      (Sum.elim (Sum.elim (Sum.elim .welcome .event) .pong)
        fun (code, message) => .failed code message)
      (fun
        | .welcome protocol => .inl (.inl (.inl protocol))
        | .event published => .inl (.inl (.inr published))
        | .pong nonce => .inl (.inr nonce)
        | .failed code message => .inr (code, message))
      fun m => by cases m <;> rfl

/-- `#[serde(tag = "t", content = "d")]` -/
def ServerMsg.codec : Codec (ServerMsg D) :=
  (ServerMsg.variants decimals).adjacent "t" "d" (by decide)

end

end MoonCore
