import MoonCore.MarketData.Fold
import MoonCore.Wire.Session

/-!
# The terminal's copy

`terminal::feed`. What a terminal makes of the events it receives: books and bars by the two
rules of the event fold, a tape of the most recent prints of each instrument, newest first, and
the last thing the core said about its own health. The log panel is left out.
-/

namespace MoonCore

/-- Trades kept per instrument for the tape. -/
def tapeDepth : ℕ := 4000

/-- Candles retained per instrument. -/
def candleDepth : ℕ := 900

/-- What the UI reads. -/
structure FeedState (D : Type*) where
  books : Books D
  /-- How many prints arrived. -/
  trades : String → ℕ
  /-- Most recent trades first. -/
  tape : String → List (PublicTrade D)
  candles : Bars D
  coreNote : Option String

namespace FeedState

variable {D : Type*} [LinearOrder D] [Zero D]

/-- What a terminal shows before it has heard anything. -/
def new : FeedState D := ⟨fun _ => none, fun _ => 0, fun _ => [], fun _ => [], none⟩

/-- The note a health event leaves. -/
def note (self : FeedState D) : ConnectionEvent → FeedState D
  | .resyncing reason => { self with coreNote := some reason }
  | .ready => { self with coreNote := none }
  | .disconnected reason => { self with coreNote := some ("core lost its venue feed: " ++ reason) }
  | .connecting => self

/-- Fold one event into the copy. -/
def apply (self : FeedState D) (event : Event D) : FeedState D :=
  match event.payload with
  | .market (.trade trade) =>
    let key := trade.symbol.key
    { self with
      trades := Function.update self.trades key (self.trades key + 1)
      tape := Function.update self.tape key ((trade :: self.tape key).take tapeDepth) }
  | .market (.candle candle) =>
    let key := candle.symbol.key
    { self with
      candles := Function.update self.candles key
        (foldBar candleDepth (self.candles key) candle) }
  | .market (.bookDelta delta) =>
    let books := foldBook self.books (.bookDelta delta)
    -- a book that was there and is gone was torn, and the panel says so
    if (self.books delta.symbol.key).isSome && (books delta.symbol.key).isNone then
      { self with
        books := books
        coreNote := some (delta.symbol.key ++ " desynced, waiting for a snapshot") }
    else { self with books := books }
  | .market market => { self with books := foldBook self.books market }
  | .connection health => self.note health
  | .account _ => self

/-- The books of a lost connection describe a stream that no longer exists. -/
def dropBooks (self : FeedState D) : FeedState D := { self with books := fun _ => none }

/-- The books of the copy are the fold of the events into books. -/
theorem apply_books (self : FeedState D) (event : Event D) :
    (self.apply event).books = foldBooks self.books event := by
  rcases event with ⟨ts, market | account | health⟩
  · cases market with
    | bookDelta delta =>
      simp only [apply, foldBooks]
      split_ifs <;> rfl
    | _ => rfl
  · rfl
  · cases health <;> rfl

/-- The tape of an instrument changes with its own prints only. -/
theorem apply_tape (self : FeedState D) (event : Event D) (key : String) :
    (self.apply event).tape key =
      match event.tradeIn key with
      | some trade => (trade :: self.tape key).take tapeDepth
      | none => self.tape key := by
  rcases event with ⟨ts, market | account | health⟩
  · cases market with
    | trade trade =>
      simp only [apply, Event.tradeIn, Function.update_apply]
      by_cases hkey : trade.symbol.key = key
      · simp only [hkey, if_true]
      · simp only [hkey, Ne.symm hkey, if_false]
    | bookDelta delta =>
      simp only [apply]
      split_ifs <;> rfl
    | _ => rfl
  · rfl
  · cases health <;> rfl

end FeedState

end MoonCore
