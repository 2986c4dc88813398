import MoonCore.Exchange.Subscription
import MoonCore.MarketData.Fold

/-!
# The core's shared read-model

`core::state`. Every published event is folded into `MarketState` before it is broadcast;
a session is handed what the state holds for its subscriptions. The state keeps the books
and the bars by the two rules of the event fold, and the last `tapeHistory` prints of each
instrument.
-/

namespace MoonCore

/-- Candles retained per instrument for late subscribers. -/
def history : ℕ := 600

/-- Prints retained per instrument. -/
def tapeHistory : ℕ := 4000

/-- The read-model. -/
structure MarketState (D : Type*) where
  books : Books D
  candles : Bars D
  tape : String → List (PublicTrade D)

namespace MarketState

variable {D : Type*} [LinearOrder D] [Zero D]

/-- Nothing published yet. -/
def new : MarketState D := ⟨fun _ => none, fun _ => [], fun _ => []⟩

/-- Replace the matching bar, or append a new one. -/
def foldCandle (self : MarketState D) (candle : Candle D) : MarketState D :=
  let key := candle.symbol.key
  { self with
    candles := Function.update self.candles key (foldBar history (self.candles key) candle) }

/-- Fold one event into the read-model. -/
def apply (self : MarketState D) (event : Event D) : MarketState D :=
  match event.payload with
  | .market (.candle candle) => self.foldCandle candle
  | .market (.trade trade) =>
    let key := trade.symbol.key
    { self with
      tape := Function.update self.tape key (pushBounded tapeHistory (self.tape key) trade) }
  | .market market => { self with books := foldBook self.books market }
  | _ => self

/-- Candle history for a session's subscriptions, oldest first. -/
def candlesFor (self : MarketState D) (subs : List Subscription) : List (Candle D) :=
  (subscribedKeys subs).flatMap self.candles

/-- Print history for a session's subscriptions, oldest first. -/
def tapeFor (self : MarketState D) (subs : List Subscription) : List (PublicTrade D) :=
  (subscribedKeys subs).flatMap self.tape

/-- Current books for a session's subscriptions; only synced ones. -/
def snapshotsFor (self : MarketState D) (subs : List Subscription) : List (OrderBook D) :=
  ((subscribedKeys subs).filterMap self.books).filter OrderBook.synced

/-- The read-model as a consumer of the event stream. -/
def consumer : Machine (MarketState D) (Event D) Unit := ⟨fun self event => (self.apply event, ())⟩

/-! ### The parts of the state -/

/-- The books of the read-model are the fold of the events into books. -/
theorem apply_books (self : MarketState D) (event : Event D) :
    (self.apply event).books = foldBooks self.books event := by
  rcases event with ⟨ts, market | account | connection⟩
  · cases market <;> rfl
  · rfl
  · rfl

/-- The bars of the read-model are the fold of the events into bars. -/
theorem apply_candles (self : MarketState D) (event : Event D) :
    (self.apply event).candles = foldBars history self.candles event := by
  rcases event with ⟨ts, market | account | connection⟩
  · cases market <;> rfl
  · rfl
  · rfl

theorem foldl_apply_books (self : MarketState D) (events : List (Event D)) :
    (events.foldl apply self).books = events.foldl foldBooks self.books := by
  induction events generalizing self with
  | nil => rfl
  | cons event events ih => rw [List.foldl_cons, ih, apply_books, List.foldl_cons]

theorem foldl_apply_candles (self : MarketState D) (events : List (Event D)) :
    (events.foldl apply self).candles = events.foldl (foldBars history) self.candles := by
  induction events generalizing self with
  | nil => rfl
  | cons event events ih => rw [List.foldl_cons, ih, apply_candles, List.foldl_cons]

/-- The read-model's tape changes with the prints of its key only. -/
theorem apply_tape (self : MarketState D) (event : Event D) (key : String) :
    (self.apply event).tape key =
      match event.tradeIn key with
      | some trade => pushBounded tapeHistory (self.tape key) trade
      | none => self.tape key := by
  rcases event with ⟨ts, market | account | health⟩
  · cases market with
    | trade trade =>
      simp only [apply, Event.tradeIn, Function.update_apply]
      by_cases hkey : trade.symbol.key = key
      · simp only [hkey, if_true]
      · simp only [hkey, Ne.symm hkey, if_false]
    | _ => rfl
  · rfl
  · rfl

/-- The read-model's tape is the last of the prints it has folded. -/
theorem foldl_apply_tape (events : List (Event D)) (key : String) :
    (events.foldl apply .new).tape key =
      (events.filterMap (Event.tradeIn key)).rtake tapeHistory := by
  induction events using List.reverseRecOn with
  | nil => exact (List.rtake_nil _).symm
  | append_singleton events event ih =>
    rw [List.foldl_append, List.foldl_cons, List.foldl_nil, apply_tape, ih,
      List.filterMap_append, List.filterMap_cons, List.filterMap_nil]
    cases event.tradeIn key with
    | none => rw [List.append_nil]
    | some trade => exact pushBounded_rtake _ _ _

omit [LinearOrder D] [Zero D] in
/-- A book is handed out exactly when it is held, synced, under a subscribed key. -/
theorem mem_snapshotsFor {self : MarketState D} {subs : List Subscription} {b : OrderBook D} :
    b ∈ self.snapshotsFor subs ↔
      b.synced = true ∧ ∃ s ∈ subs, self.books s.symbol.key = some b := by
  rw [snapshotsFor, List.mem_filter, List.mem_filterMap, and_comm]
  refine and_congr_right fun _ => ⟨?_, ?_⟩
  · rintro ⟨key, hkey, hb⟩
    obtain ⟨s, hs, rfl⟩ := mem_subscribedKeys.mp hkey
    exact ⟨s, hs, hb⟩
  · rintro ⟨s, hs, hb⟩
    exact ⟨s.symbol.key, mem_subscribedKeys.mpr ⟨s, hs, rfl⟩, hb⟩

end MarketState

end MoonCore
