import Mathlib.Data.Int.Order.Basic
import MoonCore.Domain.Market
import MoonCore.ForMathlib.Bounded
import MoonCore.Machine.Run

/-!
# Building candles from the trade tape

`marketdata::candles`. A `CandleSet` keeps a bounded series of bars per symbol key and folds
each print into the last bar or rolls the series over to a new one: by the clock
(`foldTime`) or by the number of prints (`foldTicks`).

`Folded` says once what a print can do to the series of its symbol. The bars of a time
series open at strictly increasing times; those of a tick series do so only as far as the
prints that open them come later than the bar before (`OpensLater`).
-/

namespace MoonCore

/-- Candles retained per instrument. -/
def defaultCapacity : ℕ := 1200

/-- What feeding a trade in produced. -/
inductive Update (D : Type*) where
  /-- The forming candle changed. -/
  | formed (candle : Candle D)
  /-- A bucket ended. -/
  | closed (closed opened : Candle D)
  /-- Older than the candle currently forming. -/
  | ignored
  deriving DecidableEq

/-- Live candle series, one per instrument. -/
structure CandleSet (D : Type*) where
  bucketing : Bucketing
  capacity : ℕ
  capacity_pos : 0 < capacity
  series : String → List (Candle D)

variable {D : Type*}

/-- A degenerate bucketing is clamped: an interval or a count below one becomes one. -/
def Bucketing.clamp : Bucketing → Bucketing
  | .time intervalMs => .time (max intervalMs 1)
  | .ticks count => .ticks (max count 1)

/-- Whether a bar of one print is complete. -/
def Bucketing.completeAtOne : Bucketing → Bool
  | .time _ => false
  | .ticks count => decide (1 ≥ count)

/-- Replace the newest bar of a series. -/
def setBack (series : List (Candle D)) (candle : Candle D) : List (Candle D) :=
  series.dropLast ++ [candle]

@[simp]
theorem setBack_concat (series : List (Candle D)) (last candle : Candle D) :
    setBack (series ++ [last]) candle = series ++ [candle] := by
  rw [setBack, List.dropLast_concat]

namespace Candle

/-- Fold a print into the bar currently forming; the print counter is a 32-bit one. -/
def extend [LinearOrder D] [Add D] (self : Candle D) (trade : PublicTrade D) : Candle D :=
  { self with
    high := max self.high trade.price
    low := min self.low trade.price
    close := trade.price
    volume := self.volume + trade.qty
    trades := (self.trades + 1) % 2 ^ 32 }

/-- The bar a print opens. -/
def opening (trade : PublicTrade D) (openTime : Timestamp) (bucketing : Bucketing) : Candle D where
  symbol := trade.symbol
  openTime := openTime
  bucketing := bucketing
  trades := 1
  open_ := trade.price
  high := trade.price
  low := trade.price
  close := trade.price
  volume := trade.qty
  -- a one-tick bar is complete the instant it exists
  closed := bucketing.completeAtOne

end Candle

namespace CandleSet

/-- No bars yet. -/
def new (bucketing : Bucketing) (capacity : ℕ) : CandleSet D where
  bucketing := bucketing.clamp
  capacity := max capacity 1
  capacity_pos := Nat.lt_of_lt_of_le Nat.one_pos (Nat.le_max_right capacity 1)
  series _ := []

/-- Replace the series under a key. -/
def put (self : CandleSet D) (key : String) (series : List (Candle D)) : CandleSet D :=
  { self with series := Function.update self.series key series }

/-- Close whatever was forming and start a new bar on this print. -/
def roll (self : CandleSet D) (trade : PublicTrade D) (openTime : Timestamp) :
    CandleSet D × Update D :=
  let key := trade.symbol.key
  let series := self.series key
  let opened := Candle.opening trade openTime self.bucketing
  match series.getLast? with
  | some previous =>
    let closed := { previous with closed := true }
    (self.put key (pushBounded self.capacity (setBack series closed) opened), .closed closed opened)
  | none => (self.put key (pushBounded self.capacity series opened), .formed opened)

variable [LinearOrder D] [Add D]

/-- Time bars: the clock decides where one bar ends and the next begins. -/
def foldTime (self : CandleSet D) (trade : PublicTrade D) (intervalMs : ℤ) :
    CandleSet D × Update D :=
  let key := trade.symbol.key
  let openTime := wrapI64 (trade.ts - trade.ts % intervalMs)
  let series := self.series key
  match series.getLast? with
  | some current =>
    -- a trade older than the forming bar would rewrite history already drawn
    if openTime < current.openTime then (self, .ignored)
    else if openTime = current.openTime then
      let candle := current.extend trade
      (self.put key (setBack series candle), .formed candle)
    else self.roll trade openTime
  | none => self.roll trade openTime

/-- Tick bars: the print count decides, and the clock says nothing. -/
def foldTicks (self : CandleSet D) (trade : PublicTrade D) (count : ℕ) :
    CandleSet D × Update D :=
  let key := trade.symbol.key
  let series := self.series key
  match series.getLast? with
  | some current =>
    if !current.closed && decide (current.trades < count) then
      let candle := current.extend trade
      -- filling the last slot ends the bar there and then
      let candle := if candle.trades ≥ count then { candle with closed := true } else candle
      (self.put key (setBack series candle), .formed candle)
    else self.roll trade trade.ts
  | none => self.roll trade trade.ts

/-- Fold one trade into its bar. -/
def onTrade (self : CandleSet D) (trade : PublicTrade D) : CandleSet D × Update D :=
  match self.bucketing with
  | .time intervalMs => self.foldTime trade intervalMs
  | .ticks count => self.foldTicks trade count

/-- A print that opens a tick bar behind another bar is stamped later than that bar's first
print. Time bars are exempt: the clock opens them in order. -/
def OpensLater (self : CandleSet D) (trade : PublicTrade D) : Prop :=
  match self.bucketing, (self.series trade.symbol.key).getLast? with
  | .ticks count, some current =>
    current.closed = true ∨ count ≤ current.trades → current.openTime < trade.ts
  | _, _ => True

section Put

omit [LinearOrder D] [Add D]

@[simp]
theorem put_series (self : CandleSet D) (key k : String) (series : List (Candle D)) :
    (self.put key series).series k = if k = key then series else self.series k := by
  change Function.update self.series key series k = _
  rw [Function.update_apply]

@[simp]
theorem put_capacity (self : CandleSet D) (key : String) (series : List (Candle D)) :
    (self.put key series).capacity = self.capacity := rfl

/-- Rolling an empty series. -/
theorem roll_nil {self : CandleSet D} {trade : PublicTrade D} {openTime : Timestamp}
    (h : self.series trade.symbol.key = []) :
    self.roll trade openTime =
      (self.put trade.symbol.key
        (pushBounded self.capacity [] (Candle.opening trade openTime self.bucketing)),
        .formed (Candle.opening trade openTime self.bucketing)) := by
  simp only [roll, h, List.getLast?_nil]

/-- Rolling a series that has a bar. -/
theorem roll_concat {self : CandleSet D} {trade : PublicTrade D} {openTime : Timestamp}
    {init : List (Candle D)} {last : Candle D}
    (h : self.series trade.symbol.key = init ++ [last]) :
    self.roll trade openTime =
      (self.put trade.symbol.key
        (pushBounded self.capacity (init ++ [{ last with closed := true }])
          (Candle.opening trade openTime self.bucketing)),
        .closed { last with closed := true } (Candle.opening trade openTime self.bucketing)) := by
  simp only [roll, h, List.getLast?_concat, setBack_concat]

end Put

/-- Everything a print can do to a set: nothing, redraw the last bar of its symbol, open the
symbol's first bar, or close the last bar and open the next. Only the last of these can break
the order of opening times, and `OpensLater` says when it does not. -/
inductive Folded (self : CandleSet D) (trade : PublicTrade D) : CandleSet D × Update D → Prop
  | ignored (later : self.OpensLater trade) : Folded self trade (self, .ignored)
  | redrawn (later : self.OpensLater trade) {init : List (Candle D)} {last last' : Candle D}
      (series : self.series trade.symbol.key = init ++ [last]) (symbol : last'.symbol = last.symbol)
      (openTime : last'.openTime = last.openTime) :
      Folded self trade (self.put trade.symbol.key (init ++ [last']), .formed last')
  | first (later : self.OpensLater trade) {opened : Candle D}
      (series : self.series trade.symbol.key = []) (symbol : opened.symbol = trade.symbol) :
      Folded self trade
        (self.put trade.symbol.key (pushBounded self.capacity [] opened), .formed opened)
  | rolled {init : List (Candle D)} {last last' opened : Candle D}
      (later : self.OpensLater trade ↔ last.openTime < opened.openTime)
      (series : self.series trade.symbol.key = init ++ [last]) (symbol : last'.symbol = last.symbol)
      (openTime : last'.openTime = last.openTime) (symbol' : opened.symbol = trade.symbol) :
      Folded self trade
        (self.put trade.symbol.key (pushBounded self.capacity (init ++ [last']) opened),
          .closed last' opened)

variable {self : CandleSet D} {trade : PublicTrade D}

omit [LinearOrder D] [Add D] in
/-- The first bar of a symbol, whichever way bars are cut. -/
theorem folded_roll_nil (h : self.series trade.symbol.key = []) (openTime : Timestamp) :
    Folded self trade (self.roll trade openTime) := by
  have hlater : self.OpensLater trade := by
    rw [OpensLater, h, List.getLast?_nil]
    split <;> trivial
  rw [roll_nil h]
  exact .first hlater h rfl

omit [LinearOrder D] [Add D] in
theorem folded_roll_concat {init : List (Candle D)} {last : Candle D}
    (h : self.series trade.symbol.key = init ++ [last]) {openTime : Timestamp}
    (hlater : self.OpensLater trade ↔ last.openTime < openTime) :
    Folded self trade (self.roll trade openTime) := by
  rw [roll_concat h]
  exact .rolled hlater h rfl rfl rfl

/-- Time bars open in order, whatever the prints' stamps. -/
theorem folded_foldTime {intervalMs : ℤ} (hb : self.bucketing = .time intervalMs) :
    Folded self trade (self.foldTime trade intervalMs) := by
  have hlater : self.OpensLater trade := by simp only [OpensLater, hb]
  rcases List.eq_nil_or_concat' (self.series trade.symbol.key) with hnil | ⟨init, last, hlast⟩
  · simp only [foldTime, hnil, List.getLast?_nil]
    exact folded_roll_nil hnil _
  · simp only [foldTime, hlast, List.getLast?_concat, setBack_concat]
    split_ifs with hlt heq
    · exact .ignored hlater
    · exact .redrawn hlater hlast rfl rfl
    · have hgt := lt_of_le_of_ne (not_lt.mp hlt) (Ne.symm heq)
      exact folded_roll_concat hlast ⟨fun _ => hgt, fun _ => hlater⟩

/-- Tick bars open in the order of the prints. -/
theorem folded_foldTicks {count : ℕ} (hb : self.bucketing = .ticks count) :
    Folded self trade (self.foldTicks trade count) := by
  rcases List.eq_nil_or_concat' (self.series trade.symbol.key) with hnil | ⟨init, last, hlast⟩
  · simp only [foldTicks, hnil, List.getLast?_nil]
    exact folded_roll_nil hnil _
  · have hlater : self.OpensLater trade ↔
        (last.closed = true ∨ count ≤ last.trades → last.openTime < trade.ts) := by
      simp only [OpensLater, hb, hlast, List.getLast?_concat]
    simp only [foldTicks, hlast, List.getLast?_concat, setBack_concat]
    split_ifs with hroom hfull
    all_goals simp only [Bool.and_eq_true, Bool.not_eq_true', decide_eq_true_eq] at hroom
    · refine .redrawn (hlater.mpr fun hfull => ?_) hlast rfl rfl
      grind
    · refine .redrawn (hlater.mpr fun hfull => ?_) hlast rfl rfl
      grind
    · refine folded_roll_concat hlast (hlater.trans ⟨fun h => h ?_, fun h _ => h⟩)
      grind

/-- What folding a print does. -/
theorem folded_onTrade (self : CandleSet D) (trade : PublicTrade D) :
    Folded self trade (self.onTrade trade) := by
  rcases hb : self.bucketing with intervalMs | count
  · rw [onTrade, hb]
    exact folded_foldTime hb
  · rw [onTrade, hb]
    exact folded_foldTicks hb

section Frame

omit [LinearOrder D] [Add D]

variable {result : CandleSet D × Update D}

/-- A print touches the series of its own symbol only. -/
theorem Folded.series_ne (h : Folded self trade result) {key : String}
    (hkey : key ≠ trade.symbol.key) : result.1.series key = self.series key := by
  cases h <;> simp [hkey]

/-- The capacity never changes. -/
theorem Folded.capacity_eq (h : Folded self trade result) :
    result.1.capacity = self.capacity := by
  cases h <;> rfl

/-- Nor does the way bars are cut. -/
theorem Folded.bucketing_eq (h : Folded self trade result) :
    result.1.bucketing = self.bucketing := by
  cases h <;> rfl

end Frame

/-! ### Runs -/

/-- Folding a tape. -/
def machine : Machine (CandleSet D) (PublicTrade D) (Update D) := ⟨onTrade⟩

theorem bucketing_run (self : CandleSet D) (tape : List (PublicTrade D)) :
    (machine.run self tape).bucketing = self.bucketing := by
  refine Machine.run_invariant (I := fun s : CandleSet D => s.bucketing = self.bucketing)
    (fun s trade hs => ?_) rfl tape
  exact (folded_onTrade s trade).bucketing_eq.trans hs

theorem capacity_run (self : CandleSet D) (tape : List (PublicTrade D)) :
    (machine.run self tape).capacity = self.capacity := by
  refine Machine.run_invariant (I := fun s : CandleSet D => s.capacity = self.capacity)
    (fun s trade hs => ?_) rfl tape
  exact (folded_onTrade s trade).capacity_eq.trans hs

/-- Another symbol's print. -/
theorem series_next_of_ne (self : CandleSet D) {trade : PublicTrade D} {symbol : Symbol}
    (h : trade.symbol ≠ symbol) :
    (machine.next self trade).series symbol.key = self.series symbol.key :=
  (folded_onTrade self trade).series_ne fun hkey => h (Symbol.key_injective hkey.symm)

end CandleSet

end MoonCore
