import MoonCore.MarketData.Books
import MoonCore.MarketData.Fold

/-!
# The connector's socket task

`binance`, from the decoded frame on. A `Connector` owns a `BookSet` and a `CandleSet` and
publishes one list of events per input: the bars of a print and then the print; a delta that
may be forwarded, or the whole book when it has just become usable; a snapshot that joined;
its own health. On a disconnect the books are forgotten and the bars are kept.

Inputs may come in any order. The clock is read once per input, and the staleness watchdog,
which publishes health events only, is left out.
-/

namespace MoonCore

/-- Chart bars are cut by print count. -/
def candleBucketing : Bucketing := .ticks 25

/-- The state of the socket task. -/
structure Connector (D : Type*) where
  books : BookSet D
  candles : CandleSet D

/-- What reaches the socket task, stamped with the local clock. -/
inductive Input (D : Type*) where
  | connecting (now : Timestamp)
  | ready (now : Timestamp)
  | trade (trade : PublicTrade D) (now : Timestamp)
  | delta (delta : BookDelta D) (now : Timestamp)
  /-- A snapshot fetch answered. -/
  | fetched (snapshot : OrderBook D) (now : Timestamp)
  /-- A snapshot fetch failed. -/
  | failed (symbol : Symbol)
  /-- The socket died. -/
  | disconnected (reason : String) (now : Timestamp)

variable {D : Type*}

/-- The bars consumers must redraw after a print. -/
def Update.bars : Update D → List (Candle D)
  | .formed candle => [candle]
  | .closed last next => [last, next]
  | .ignored => []

/-- The health event that goes with a snapshot request. -/
def Need.notice (now : Timestamp) : Need → List (Event D)
  | .snapshot symbol =>
    [Event.connection now (.resyncing ("rebuilding book for " ++ symbol.key))]
  | .nothing => []

theorem Need.mem_notice {now : Timestamp} {need : Need} {event : Event D}
    (h : event ∈ need.notice now) : ∃ health, event = Event.connection now health := by
  cases need with
  | nothing => exact absurd h List.not_mem_nil
  | snapshot symbol => exact ⟨_, List.mem_singleton.mp h⟩

namespace Connector

/-- A connector that has seen nothing. -/
def new (bucketing : Bucketing) (capacity : ℕ) (cooldownMs : ℤ) : Connector D :=
  ⟨.new cooldownMs, .new bucketing capacity⟩

variable [LinearOrder D] [Zero D]

/-- Feed one book update through the maintainer, forwarding only what is safe to forward. -/
def onDelta (self : Connector D) (delta : BookDelta D) (now : Timestamp) :
    Connector D × List (Event D) :=
  let (books, outcome) := self.books.onDelta delta now
  let published :=
    if outcome.attached then
      -- consumers have no copy to update
      match books.book delta.symbol.key with
      | some book => [Event.market now (.bookSnapshot book)]
      | none => []
    else if outcome.forward then [Event.market now (.bookDelta delta)]
    else []
  ({ self with books := books }, published ++ outcome.need.notice now)

/-- Install a fetched snapshot and publish the book once it has joined the stream. -/
def onFetched (self : Connector D) (snapshot : OrderBook D) (now : Timestamp) :
    Connector D × List (Event D) :=
  match self.books.installSnapshot snapshot now with
  | (books, some joined) =>
    ({ self with books := books }, [Event.market now (.bookSnapshot joined)])
  | (books, none) => ({ self with books := books }, [])

variable [Add D]

/-- Fold a print into its bar, then pass the print on. -/
def onTrade (self : Connector D) (trade : PublicTrade D) (now : Timestamp) :
    Connector D × List (Event D) :=
  let (candles, update) := self.candles.onTrade trade
  ({ self with candles := candles },
    update.bars.map (fun candle => Event.market now (.candle candle)) ++
      [Event.market now (.trade trade)])

/-- One input. -/
def step (self : Connector D) : Input D → Connector D × List (Event D)
  | .connecting now => (self, [Event.connection now .connecting])
  | .ready now => (self, [Event.connection now .ready])
  | .trade trade now => self.onTrade trade now
  | .delta delta now => self.onDelta delta now
  | .fetched snapshot now => self.onFetched snapshot now
  | .failed symbol => ({ self with books := self.books.snapshotFailed symbol }, [])
  | .disconnected reason now =>
    -- sequence numbers do not survive a reconnect, so neither may the books
    ({ self with books := self.books.reset }, [Event.connection now (.disconnected reason)])

/-- Any sequence of inputs. -/
def machine : Machine (Connector D) (Input D) (List (Event D)) := ⟨step⟩

/-- Everything a run publishes, in order. -/
def published (self : Connector D) (inputs : List (Input D)) : List (Event D) :=
  (machine.outputs self inputs).flatten

end Connector

end MoonCore
