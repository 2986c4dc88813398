import Mathlib.Algebra.BigOperators.Group.List.Basic
import MoonCore.ForMathlib.Groups
import MoonCore.MarketData.Candles

/-!
# The bars are the groups of the prints

What a candle series is for, without the folding: the prints of a symbol are cut into groups,
by the slice of the clock they fall into (`groupsOf`) or by their number (`chunks`), and each
group is one bar, which sums it up (`Summarises`). The series a `CandleSet` holds is the bars of
the last groups, as many as the capacity says:

* `timeSeries_run` for time bars, prints behind the latest slice left out;
* `tickSeries_run` for tick bars.
-/

namespace MoonCore

variable {D : Type*} [LinearOrder D]

theorem max?_concat {l : List D} {m : D} (h : l.max? = some m) (a : D) :
    (l ++ [a]).max? = some (max m a) := by
  rcases l with - | ⟨x, xs⟩
  · exact absurd h (by simp)
  · rw [List.max?_cons'] at h
    rw [List.cons_append, List.max?_cons', List.foldl_append, Option.some.inj h]
    rfl

theorem min?_concat {l : List D} {m : D} (h : l.min? = some m) (a : D) :
    (l ++ [a]).min? = some (min m a) := by
  rcases l with - | ⟨x, xs⟩
  · exact absurd h (by simp)
  · rw [List.min?_cons'] at h
    rw [List.cons_append, List.min?_cons', List.foldl_append, Option.some.inj h]
    rfl

variable [AddMonoid D]

/-- The bar sums the prints up; their number is held in 32 bits. -/
structure Summarises (prints : List (PublicTrade D)) (bar : Candle D) : Prop where
  open_ : (prints.map PublicTrade.price).head? = some bar.open_
  close : (prints.map PublicTrade.price).getLast? = some bar.close
  high : (prints.map PublicTrade.price).max? = some bar.high
  low : (prints.map PublicTrade.price).min? = some bar.low
  volume : (prints.map PublicTrade.qty).sum = bar.volume
  trades : bar.trades = prints.length % 2 ^ 32

/-- A bar sums up the print that opens it. -/
theorem summarises_opening (trade : PublicTrade D) (openTime : Timestamp) (bucketing : Bucketing) :
    Summarises [trade] (Candle.opening trade openTime bucketing) :=
  ⟨rfl, rfl, rfl, rfl, by simp [Candle.opening], rfl⟩

/-- Folding a print into a bar adds it to what the bar sums up. -/
theorem Summarises.extend {prints : List (PublicTrade D)} {bar : Candle D}
    (h : Summarises prints bar) (trade : PublicTrade D) :
    Summarises (prints ++ [trade]) (bar.extend trade) := by
  obtain ⟨hopen, hclose, hhigh, hlow, hvolume, htrades⟩ := h
  refine ⟨?_, ?_, ?_, ?_, ?_, ?_⟩
  · rw [List.map_append, List.head?_append, hopen]
    rfl
  · rw [List.map_append, List.map_singleton, List.getLast?_concat]
    rfl
  · rw [List.map_append, List.map_singleton, max?_concat hhigh]
    rfl
  · rw [List.map_append, List.map_singleton, min?_concat hlow]
    rfl
  · rw [List.map_append, List.map_singleton, List.sum_append, List.sum_singleton, hvolume]
    rfl
  · change (bar.trades + 1) % 2 ^ 32 = _
    rw [htrades, Nat.mod_add_mod, List.length_append, List.length_singleton]

theorem Summarises.ne_nil {prints : List (PublicTrade D)} {bar : Candle D}
    (h : Summarises prints bar) : prints ≠ [] := by
  rintro rfl
  exact absurd h.open_ (by simp)

/-- Closing a bar leaves what it sums up. -/
theorem Summarises.of_closed {prints : List (PublicTrade D)} {bar : Candle D}
    (h : Summarises prints bar) : Summarises prints { bar with closed := true } :=
  ⟨h.open_, h.close, h.high, h.low, h.volume, h.trades⟩

namespace CandleSet

variable {symbol : Symbol}

/-- The prints of one symbol. -/
def tapeOf (symbol : Symbol) (tape : List (PublicTrade D)) : List (PublicTrade D) :=
  tape.filter fun trade => trade.symbol = symbol

omit [LinearOrder D] [AddMonoid D] in
theorem tapeOf_concat (symbol : Symbol) (tape : List (PublicTrade D)) (trade : PublicTrade D) :
    tapeOf symbol (tape ++ [trade]) =
      tapeOf symbol tape ++ if trade.symbol = symbol then [trade] else [] := by
  rw [tapeOf, List.filter_append, tapeOf]
  congr 1
  split_ifs with hsym <;> simp [hsym]

/-- The series of a symbol after a run, from what a print of the symbol does to it: no other print
touches it. -/
theorem series_run {start : CandleSet D} {symbol : Symbol}
    {P : List (PublicTrade D) → List (Candle D) → Prop} (hstart : P [] (start.series symbol.key))
    {tape : List (PublicTrade D)}
    (hstep : ∀ trade ∈ tape, trade.symbol = symbol → ∀ self : CandleSet D,
      self.bucketing = start.bucketing → self.capacity = start.capacity →
        ∀ prints, P prints (self.series symbol.key) →
          P (prints ++ [trade]) ((onTrade self trade).1.series symbol.key)) :
    P (tapeOf symbol tape) ((machine.run start tape).series symbol.key) := by
  induction tape using List.reverseRecOn with
  | nil => exact hstart
  | append_singleton tape trade ih =>
    have hseries := ih fun t ht => hstep t (List.mem_append_left _ ht)
    rw [Machine.run_concat, tapeOf_concat]
    split_ifs with hsym
    · exact hstep trade (by simp) hsym _ (bucketing_run start tape) (capacity_run start tape) _
        hseries
    · rw [List.append_nil, series_next_of_ne _ hsym]
      exact hseries

/-! ### Time bars -/

/-- The slice of the clock a print falls into. -/
def slice (intervalMs : ℤ) (trade : PublicTrade D) : ℤ := trade.ts / intervalMs

/-- A bar of one slice of the clock. -/
structure TimeBar (intervalMs : ℤ) (symbol : Symbol) (prints : List (PublicTrade D))
    (bar : Candle D) : Prop extends Summarises prints bar where
  symbol_eq : bar.symbol = symbol
  bucketing_eq : bar.bucketing = .time intervalMs
  openTime_eq : ∀ trade ∈ prints, bar.openTime = intervalMs * slice intervalMs trade

/-- The series shows the last groups, all but the newest of them closed. -/
structure TimeSeries (intervalMs : ℤ) (symbol : Symbol) (capacity : ℕ)
    (groups : List (List (PublicTrade D))) (series : List (Candle D)) : Prop where
  bars : ShowsLast (TimeBar intervalMs symbol) capacity groups series
  closed : ∀ bar ∈ series.dropLast, bar.closed = true
  forming : ∀ bar ∈ series.getLast?, bar.closed = false

section TimeSeries

variable {intervalMs : ℤ} {capacity : ℕ} {groups : List (List (PublicTrade D))}
  {prints prints' : List (PublicTrade D)} {init : List (Candle D)} {last bar : Candle D}

/-- A bar that is open joins closed ones. -/
theorem timeSeries_concat
    (hbars : ShowsLast (TimeBar intervalMs symbol) capacity groups (init ++ [bar]))
    (hclosed : ∀ bar ∈ init, bar.closed = true) (hopen : bar.closed = false) :
    TimeSeries intervalMs symbol capacity groups (init ++ [bar]) := by
  refine ⟨hbars, by rwa [List.dropLast_concat], ?_⟩
  rw [List.getLast?_concat]
  intro b hb
  obtain rfl := Option.some.inj hb
  exact hopen

theorem TimeSeries.closed_init
    (h : TimeSeries intervalMs symbol capacity groups (init ++ [last])) :
    ∀ bar ∈ init, bar.closed = true := by
  have hclosed := h.closed
  rwa [List.dropLast_concat] at hclosed

theorem TimeSeries.forming_last
    (h : TimeSeries intervalMs symbol capacity groups (init ++ [last])) : last.closed = false :=
  h.forming last (by rw [List.getLast?_concat]; rfl)

/-- The first group of a symbol has begun. -/
theorem timeSeries_singleton (hcap : 0 < capacity) (hbar : TimeBar intervalMs symbol prints' bar)
    (hopen : bar.closed = false) :
    TimeSeries intervalMs symbol capacity [prints'] [bar] := by
  have hbars := (showsLast_nil_iff.mpr rfl :
    ShowsLast (TimeBar (D := D) intervalMs symbol) capacity [] []).push hbar
  rw [pushBounded_nil hcap] at hbars
  exact @timeSeries_concat _ _ _ _ _ _ _ [] _ hbars (by simp) hopen

/-- The newest group has grown, and so has its bar. -/
theorem TimeSeries.redraw (hcap : 0 < capacity)
    (h : TimeSeries intervalMs symbol capacity (groups ++ [prints]) (init ++ [last]))
    (hbar : TimeBar intervalMs symbol prints' bar) (hopen : bar.closed = false) :
    TimeSeries intervalMs symbol capacity (groups ++ [prints']) (init ++ [bar]) :=
  timeSeries_concat (h.bars.replace hcap hbar) h.closed_init hopen

/-- A group is finished and the next one has begun: its bar is closed and the next one opened. -/
theorem TimeSeries.roll (hcap : 0 < capacity)
    (h : TimeSeries intervalMs symbol capacity (groups ++ [prints]) (init ++ [last]))
    (hbar : TimeBar intervalMs symbol prints' bar) (hopen : bar.closed = false) :
    TimeSeries intervalMs symbol capacity (groups ++ [prints] ++ [prints'])
      (pushBounded capacity (init ++ [{ last with closed := true }]) bar) := by
  have hlast : TimeBar intervalMs symbol prints last :=
    ((showsLast_concat_iff hcap).mp h.bars).2
  have hclosing : TimeBar intervalMs symbol prints { last with closed := true } :=
    ⟨hlast.toSummarises.of_closed, hlast.symbol_eq, hlast.bucketing_eq, hlast.openTime_eq⟩
  have hbars := (h.bars.replace hcap hclosing).push hbar
  rw [pushBounded_eq_concat hcap] at hbars ⊢
  refine timeSeries_concat hbars (fun b hb => ?_) hopen
  obtain hb | hb := List.mem_append.mp (rtake_subset hb)
  · exact h.closed_init b hb
  · rw [List.mem_singleton.mp hb]

omit [LinearOrder D] [AddMonoid D] in
/-- The opening time the code computes is the start of the print's slice. -/
theorem openTime_eq {trade : PublicTrade D} (h : IsI64 (intervalMs * slice intervalMs trade)) :
    wrapI64 (trade.ts - trade.ts % intervalMs) = intervalMs * slice intervalMs trade := by
  have hstart : trade.ts - trade.ts % intervalMs = intervalMs * slice intervalMs trade := by
    rw [Int.emod_def, slice, sub_sub_cancel]
  rw [hstart, wrapI64_of_isI64 h]

/-- A print folded into the series of its symbol. -/
theorem TimeSeries.fold {self : CandleSet D} {trade : PublicTrade D} (hpos : 0 < intervalMs)
    (hb : self.bucketing = .time intervalMs)
    (hfits : IsI64 (intervalMs * slice intervalMs trade))
    (h : TimeSeries intervalMs trade.symbol self.capacity (groupsOf (slice intervalMs) prints)
      (self.series trade.symbol.key)) :
    TimeSeries intervalMs trade.symbol self.capacity
      (groupsOf (slice intervalMs) (prints ++ [trade]))
      ((self.foldTime trade intervalMs).1.series trade.symbol.key) := by
  have hcap := self.capacity_pos
  have hopening : TimeBar intervalMs trade.symbol [trade]
      (Candle.opening trade (intervalMs * slice intervalMs trade) self.bucketing) :=
    ⟨summarises_opening _ _ _, rfl, hb, fun t ht => by rw [List.mem_singleton.mp ht]; rfl⟩
  have hforming : (Candle.opening trade (intervalMs * slice intervalMs trade)
      self.bucketing).closed = false := by rw [hb]; rfl
  rcases List.eq_nil_or_concat' (groupsOf (slice intervalMs) prints) with hnil | ⟨gs, g, hgs⟩
  · -- the symbol's first print
    have hprints : prints = [] := by
      by_contra hne
      exact groupsOf_ne_nil hne hnil
    have hseries : self.series trade.symbol.key = [] := showsLast_nil_iff.mp (hnil ▸ h.bars)
    simp only [foldTime, hseries, List.getLast?_nil, roll_nil hseries, openTime_eq hfits,
      put_series, if_true, pushBounded_nil hcap]
    rw [hprints, List.nil_append, groupsOf_singleton]
    exact timeSeries_singleton hcap hopening hforming
  · rw [hgs] at h
    obtain ⟨init, last, hseries, hlast⟩ := h.bars.exists_concat hcap
    rw [hseries] at h
    obtain ⟨b, hbg⟩ : ∃ b, b ∈ g := List.exists_mem_of_ne_nil g fun hg =>
      (isGrouping_groupsOf (slice intervalMs) prints).nil_notMem (by simp [hgs, hg])
    have hlastTime : last.openTime = intervalMs * slice intervalMs b := hlast.openTime_eq b hbg
    rw [groupsOf_concat hgs hbg trade]
    simp only [foldTime, hseries, List.getLast?_concat, setBack_concat, openTime_eq hfits,
      hlastTime, Int.mul_lt_mul_left hpos, Int.mul_eq_mul_left_iff hpos.ne']
    split_ifs with hlt heq
    · -- behind the forming bar
      rwa [hseries]
    -- in the slice of the forming bar
    · rw [put_series, if_pos rfl]
      refine h.redraw hcap ⟨hlast.toSummarises.extend trade, hlast.symbol_eq,
        hlast.bucketing_eq, fun t ht => ?_⟩ h.forming_last
      obtain ht | ht := List.mem_append.mp ht
      · exact hlast.openTime_eq t ht
      · rw [List.mem_singleton.mp ht, heq]
        exact hlastTime
    -- in a later slice
    · rw [roll_concat hseries, put_series, if_pos rfl]
      exact h.roll hcap hopening hforming

end TimeSeries

/-- The series of a symbol after a run, by the clock. -/
theorem timeSeries_run {intervalMs : ℤ} (hpos : 0 < intervalMs) (capacity : ℕ) (symbol : Symbol)
    {tape : List (PublicTrade D)}
    (hfits : ∀ trade ∈ tape, IsI64 (intervalMs * slice intervalMs trade)) :
    TimeSeries intervalMs symbol (max capacity 1)
      (groupsOf (slice intervalMs) (tapeOf symbol tape))
      ((machine.run (new (.time intervalMs) capacity) tape).series symbol.key) := by
  have hclamp : Bucketing.clamp (.time intervalMs) = .time intervalMs :=
    congrArg Bucketing.time (max_eq_left hpos)
  refine series_run (P := fun prints => TimeSeries intervalMs symbol (max capacity 1)
    (groupsOf (slice intervalMs) prints))
    ⟨showsLast_nil_iff.mpr rfl, by simp [new], by simp [new]⟩ ?_
  rintro trade htrade rfl self hb hcap prints hseries
  have htime : self.bucketing = .time intervalMs := hb.trans hclamp
  rw [show max capacity 1 = self.capacity from hcap.symm] at hseries ⊢
  rw [onTrade, htime]
  exact hseries.fold hpos htime (hfits trade htrade)

/-- **Time bars are the groups of the tape.** The series of a symbol is the bars of the last groups
of its prints by the slice of the clock they fall into, prints behind the latest slice left out;
its bars open at strictly increasing multiples of the interval, and all but the last are closed.
The number of prints in a bar is held in 32 bits. -/
theorem time_bars_eq_groups {intervalMs : ℤ} (hpos : 0 < intervalMs) {capacity : ℕ}
    (hcap : 0 < capacity) {tape : List (PublicTrade D)}
    (hfits : ∀ trade ∈ tape, IsI64 (intervalMs * slice intervalMs trade)) (symbol : Symbol) :
    List.Forall₂ (TimeBar intervalMs symbol)
        ((groupsOf (slice intervalMs) (tapeOf symbol tape)).rtake capacity)
        ((machine.run (new (.time intervalMs) capacity) tape).series symbol.key) ∧
      ((machine.run (new (.time intervalMs) capacity) tape).series symbol.key).Pairwise
        (fun before after => before.openTime < after.openTime) ∧
      (∀ bar ∈ (machine.run (new (.time intervalMs) capacity) tape).series symbol.key,
        intervalMs ∣ bar.openTime) ∧
      (∀ bar ∈ ((machine.run (new (.time intervalMs) capacity) tape).series symbol.key).dropLast,
        bar.closed = true) ∧
      ∀ bar ∈ ((machine.run (new (.time intervalMs) capacity) tape).series symbol.key).getLast?,
        bar.closed = false := by
  obtain ⟨hbars, hclosed, hopen⟩ := timeSeries_run hpos capacity symbol hfits
  rw [ShowsLast, max_eq_left hcap] at hbars
  refine ⟨hbars, ?_, fun bar hbar => ?_, hclosed, hopen⟩
  · have hinc := (isGrouping_groupsOf (slice intervalMs) (tapeOf symbol tape)).increasing.sublist
      (rtake_suffix _ capacity).sublist
    refine pairwise_of_forall₂ hbars (fun g g' bar bar' hg hg' hlt => ?_) hinc
    obtain ⟨t, ht⟩ := List.exists_mem_of_ne_nil g hg.ne_nil
    obtain ⟨t', ht'⟩ := List.exists_mem_of_ne_nil g' hg'.ne_nil
    rw [hg.openTime_eq t ht, hg'.openTime_eq t' ht']
    exact (Int.mul_lt_mul_left hpos).mpr (hlt t ht t' ht')
  · obtain ⟨g, -, hg⟩ := exists_mem_of_forall₂ hbars hbar
    obtain ⟨t, ht⟩ := List.exists_mem_of_ne_nil g hg.ne_nil
    exact ⟨_, hg.openTime_eq t ht⟩

/-- A print of the fixed runs. -/
def onePrint (ts : Timestamp) (id : ℕ) : PublicTrade ℤ := ⟨btcusdt, 100, 2, .buy, ts, id⟩

theorem time_bars_eq_groups_early :
    List.Forall₂ (TimeBar 1000 btcusdt)
      ((groupsOf (slice 1000) (tapeOf btcusdt [onePrint (-1) 1, onePrint 5 2, onePrint (-2) 3,
        onePrint 999 4])).rtake 2)
      ((machine.run (new (.time 1000) 2) [onePrint (-1) 1, onePrint 5 2, onePrint (-2) 3,
        onePrint 999 4]).series btcusdt.key) ∧
    groupsOf (slice 1000) (tapeOf btcusdt [onePrint (-1) 1, onePrint 5 2, onePrint (-2) 3,
        onePrint 999 4]) = [[onePrint (-1) 1], [onePrint 5 2, onePrint 999 4]] := by
  refine ⟨(time_bars_eq_groups (by decide) (by decide) (fun trade htrade => ?_) btcusdt).1,
    by decide⟩
  simp only [List.mem_cons, List.not_mem_nil, or_false] at htrade
  rcases htrade with rfl | rfl | rfl | rfl <;> decide

/-- As many prints in one slice as the counter of a bar has values: it says none. -/
theorem trades_counter_wraps :
    ¬ List.Forall₂ (fun prints bar => TimeBar 1000 btcusdt prints bar ∧ bar.trades = prints.length)
      ((groupsOf (slice 1000) (tapeOf btcusdt (List.replicate (2 ^ 32) (onePrint 5 2)))).rtake 1)
      ((machine.run (new (.time 1000) 1) (List.replicate (2 ^ 32) (onePrint 5 2))).series
        btcusdt.key) := by
  intro h
  have hlen : 2 ^ 32 - 1 + 1 = 2 ^ 32 := by decide
  have htape : tapeOf btcusdt (List.replicate (2 ^ 32) (onePrint 5 2)) =
      List.replicate (2 ^ 32 - 1 + 1) (onePrint 5 2) := by
    rw [tapeOf, List.filter_replicate, if_pos (by decide), hlen]
  rw [htape, groupsOf_replicate] at h
  have hone : [List.replicate (2 ^ 32 - 1 + 1) (onePrint 5 2)].rtake 1 =
      [] ++ [List.replicate (2 ^ 32 - 1 + 1) (onePrint 5 2)] := rfl
  rw [hone] at h
  obtain ⟨init, bar, -, -, hbar, hcount⟩ := exists_concat_of_forall₂ h
  have hmod := hbar.trades
  rw [hcount, List.length_replicate] at hmod
  exact absurd hmod (by decide)

/-! ### Tick bars -/

/-- A bar of `count` prints or, if it is the newest, of fewer. -/
structure TickBar (count : ℕ) (symbol : Symbol) (prints : List (PublicTrade D)) (bar : Candle D) :
    Prop extends Summarises prints bar where
  symbol_eq : bar.symbol = symbol
  bucketing_eq : bar.bucketing = .ticks count
  openTime_eq : (prints.map PublicTrade.ts).head? = some bar.openTime
  trades_eq : bar.trades = prints.length
  closed_iff : bar.closed = true ↔ prints.length = count

section TickBar

variable {count : ℕ} {prints : List (PublicTrade D)} {bar : Candle D} {trade : PublicTrade D}

theorem tickBar_opening (hpos : 0 < count) (trade : PublicTrade D) :
    TickBar count trade.symbol [trade] (Candle.opening trade trade.ts (.ticks count)) := by
  refine ⟨summarises_opening _ _ _, rfl, rfl, rfl, rfl, ?_⟩
  have hclosed : (Candle.opening trade trade.ts (.ticks count)).closed = decide (1 ≥ count) := rfl
  rw [hclosed, decide_eq_true_eq, List.length_singleton]
  omega

/-- A bar with room takes a print, and is closed when that fills it. -/
theorem TickBar.extend {symbol : Symbol} (hcount : count < 2 ^ 32)
    (h : TickBar count symbol prints bar) (hroom : prints.length < count) :
    TickBar count symbol (prints ++ [trade])
      (if (bar.extend trade).trades ≥ count then { bar.extend trade with closed := true }
        else bar.extend trade) := by
  have htrades : (bar.extend trade).trades = prints.length + 1 := by
    change (bar.trades + 1) % 2 ^ 32 = _
    rw [h.trades_eq, Nat.mod_eq_of_lt (by omega)]
  have hlen : (prints ++ [trade]).length = prints.length + 1 := by simp
  have htime : ((prints ++ [trade]).map PublicTrade.ts).head? = some bar.openTime := by
    rw [List.map_append, List.head?_append, h.openTime_eq]
    rfl
  have hopen : bar.closed = false := by
    rw [← Bool.not_eq_true, h.closed_iff]
    omega
  have hsum := h.toSummarises.extend trade
  split_ifs with hfull
  · rw [htrades] at hfull
    exact ⟨hsum.of_closed, h.symbol_eq, h.bucketing_eq, htime, htrades.trans hlen.symm,
      iff_of_true rfl (by omega)⟩
  · rw [htrades] at hfull
    refine ⟨hsum, h.symbol_eq, h.bucketing_eq, htime, htrades.trans hlen.symm, ?_⟩
    exact iff_of_false (by rw [show (bar.extend trade).closed = bar.closed from rfl, hopen]; simp)
      (by omega)

/-- The bar a series shows last has room exactly when the code takes it to have. -/
theorem TickBar.room_iff {symbol : Symbol} (h : TickBar count symbol prints bar) :
    (!bar.closed && decide (bar.trades < count)) = true ↔ prints.length < count := by
  rw [Bool.and_eq_true, decide_eq_true_eq, h.trades_eq, Bool.not_eq_true', ← Bool.not_eq_true,
    h.closed_iff]
  omega

/-- What a print does to the tick series of its symbol, and what is sent for it. -/
theorem foldTicks_spec {self : CandleSet D} (hpos : 0 < count) (hcount : count < 2 ^ 32)
    (hb : self.bucketing = .ticks count)
    (h : ShowsLast (TickBar count trade.symbol) self.capacity (chunks count prints)
      (self.series trade.symbol.key)) :
    ShowsLast (TickBar count trade.symbol) self.capacity (chunks count (prints ++ [trade]))
        ((self.foldTicks trade count).1.series trade.symbol.key) ∧
      ∃ bar, ((self.foldTicks trade count).1.series trade.symbol.key).getLast? = some bar ∧
        (((prints = [] ∨ ¬ count ∣ prints.length) ∧
            (self.foldTicks trade count).2 = .formed bar) ∨
          (prints ≠ [] ∧ count ∣ prints.length) ∧
            ∃ previous, (self.foldTicks trade count).2 = .closed previous bar ∧
              (self.series trade.symbol.key).getLast? = some previous ∧
              previous.closed = true) := by
  have hcap := self.capacity_pos
  have hopening := tickBar_opening hpos trade
  rw [← hb] at hopening
  rcases List.eq_nil_or_concat' (chunks count prints) with hnil | ⟨gs, g, hgs⟩
  · -- the symbol's first print
    have hprints : prints = [] := by rw [← flatten_chunks hpos prints, hnil, List.flatten_nil]
    have hseries : self.series trade.symbol.key = [] := showsLast_nil_iff.mp (hnil ▸ h)
    simp only [foldTicks, hseries, List.getLast?_nil, roll_nil hseries, put_series, if_true,
      pushBounded_nil hcap]
    refine ⟨?_, _, rfl, .inl ⟨.inl hprints, rfl⟩⟩
    have hbars := (showsLast_nil_iff.mpr rfl : ShowsLast (TickBar count trade.symbol)
      self.capacity [] []).push hopening
    rw [pushBounded_nil hcap] at hbars
    rwa [hprints, List.nil_append, chunks_of_length_le (by simp) hpos]
  · rw [hgs] at h
    obtain ⟨init, last, hseries, hlast⟩ := h.exists_concat hcap
    rw [hseries] at h
    have hle : g.length ≤ count := (isChunking_chunks hpos prints).length_le g (by simp [hgs])
    have hdvd := length_lt_iff_not_dvd hpos hgs
    have hprints : prints ≠ [] := by
      rintro rfl
      rw [chunks_nil hpos] at hgs
      exact absurd hgs.symm (by simp)
    rw [chunks_concat hpos hgs trade]
    simp only [foldTicks, hseries, List.getLast?_concat, setBack_concat]
    -- The code looks at the bar's counter, the reference at the length of the chunk.
    by_cases hroom : g.length < count
    · rw [if_pos hroom, if_pos (hlast.room_iff.mpr hroom)]
      simp only [put_series, if_true]
      refine ⟨h.replace hcap (hlast.extend hcount hroom), _, ?_, .inl ⟨.inr (hdvd.mp hroom), rfl⟩⟩
      rw [List.getLast?_concat]
    · have hclosed : last.closed = true := hlast.closed_iff.mpr (by omega)
      -- A bar is closed as soon as it is full, so the roll has nothing left to close.
      have hsame : { last with closed := true } = last := by
        rw [← hclosed]
      rw [if_neg hroom, if_neg fun hcode => hroom (hlast.room_iff.mp hcode),
        roll_concat hseries, hsame]
      simp only [put_series, if_true]
      have hfull : count ∣ prints.length := not_not.mp (mt hdvd.mpr hroom)
      refine ⟨h.push hopening, _, ?_, .inr ⟨⟨hprints, hfull⟩, last, rfl, rfl, hclosed⟩⟩
      rw [pushBounded_eq_concat hcap, List.getLast?_concat]

end TickBar

/-- The series of a symbol after a run, by the number of prints. -/
theorem tickSeries_run {count : ℕ} (hpos : 0 < count) (hcount : count < 2 ^ 32) (capacity : ℕ)
    (symbol : Symbol) (tape : List (PublicTrade D)) :
    ShowsLast (TickBar count symbol) (max capacity 1) (chunks count (tapeOf symbol tape))
      ((machine.run (new (.ticks count) capacity) tape).series symbol.key) := by
  have hclamp : Bucketing.clamp (.ticks count) = .ticks count :=
    congrArg Bucketing.ticks (max_eq_left hpos)
  refine series_run (P := fun prints => ShowsLast (TickBar count symbol) (max capacity 1)
    (chunks count prints)) (chunks_nil hpos ▸ showsLast_nil_iff.mpr rfl) ?_
  rintro trade - rfl self hb hcap prints hseries
  have hticks : self.bucketing = .ticks count := hb.trans hclamp
  rw [show max capacity 1 = self.capacity from hcap.symm] at hseries ⊢
  rw [onTrade, hticks]
  exact (foldTicks_spec hpos hcount hticks hseries).1

/-- **Tick bars are the chunks of the tape.** The series of a symbol is the bars of its prints cut
into groups of `count`, a bar closed exactly when it is full. What is sent for a print is the bar
that is then the last one; and exactly where the prints before it fill their bars, if there are
any, it is sent after the bar before it, which is closed. -/
theorem tick_bars_eq_chunks {count : ℕ} (hpos : 0 < count) (hcount : count < 2 ^ 32) {capacity : ℕ}
    (hcap : 0 < capacity) (tape : List (PublicTrade D)) :
    (∀ symbol, List.Forall₂ (TickBar count symbol)
        ((chunks count (tapeOf symbol tape)).rtake capacity)
        ((machine.run (new (.ticks count) capacity) tape).series symbol.key)) ∧
    ∀ pre trade post, tape = pre ++ trade :: post →
      let before := machine.run (new (.ticks count) capacity) pre
      let prints := tapeOf trade.symbol pre
      ∃ bar, ((machine.next before trade).series trade.symbol.key).getLast? = some bar ∧
        (((prints = [] ∨ ¬ count ∣ prints.length) ∧ machine.out before trade = .formed bar) ∨
          (prints ≠ [] ∧ count ∣ prints.length) ∧
            ∃ previous, machine.out before trade = .closed previous bar ∧
              (before.series trade.symbol.key).getLast? = some previous ∧
              previous.closed = true) := by
  constructor
  · intro symbol
    have hbars := tickSeries_run hpos hcount capacity symbol tape
    rwa [max_eq_left hcap] at hbars
  · intro pre trade post _ before prints
    have hb : (machine.run (new (.ticks count) capacity) pre).bucketing = .ticks count :=
      (bucketing_run (new (.ticks count) capacity) pre).trans
        (congrArg Bucketing.ticks (max_eq_left hpos))
    have honTrade : machine.step (machine.run (new (.ticks count) capacity) pre) trade =
        (machine.run (new (.ticks count) capacity) pre).foldTicks trade count := by
      change onTrade _ trade = _
      rw [onTrade, hb]
    have hseries := tickSeries_run hpos hcount capacity trade.symbol pre
    rw [show max capacity 1 = _ from (capacity_run (new (.ticks count) capacity) pre).symm]
      at hseries
    rw [Machine.out, Machine.next, honTrade]
    exact (foldTicks_spec hpos hcount hb hseries).2

/-- Three prints, two to a bar: the third one rolls. -/
theorem tick_bars_eq_chunks_three :
    List.Forall₂ (TickBar 2 btcusdt)
      ((chunks 2 (tapeOf btcusdt [onePrint 1 1, onePrint 2 2, onePrint 3 3])).rtake 5)
      ((machine.run (new (.ticks 2) 5) [onePrint 1 1, onePrint 2 2, onePrint 3 3]).series
        btcusdt.key) ∧
    chunks 2 (tapeOf btcusdt [onePrint 1 1, onePrint 2 2, onePrint 3 3]) =
      [[onePrint 1 1, onePrint 2 2], [onePrint 3 3]] ∧
    ∃ previous bar, machine.out (machine.run (new (.ticks 2) 5) [onePrint 1 1, onePrint 2 2])
      (onePrint 3 3) = .closed previous bar ∧ previous.closed = true := by
  have h := @tick_bars_eq_chunks ℤ _ _ 2 (by decide) (by decide) 5 (by decide)
    [onePrint 1 1, onePrint 2 2, onePrint 3 3]
  refine ⟨h.1 btcusdt, by decide, ?_⟩
  obtain ⟨bar, -, ⟨hroom, -⟩ | ⟨-, previous, hout, -, hclosed⟩⟩ :=
    h.2 [onePrint 1 1, onePrint 2 2] (onePrint 3 3) [] rfl
  · exact absurd hroom (by decide)
  · exact ⟨previous, bar, hout, hclosed⟩

end CandleSet

end MoonCore
