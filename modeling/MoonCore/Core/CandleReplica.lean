import MoonCore.Core.Pump

/-!
# The bars of the read-model

The connector tells its bars apart by their position in the series, the read-model by their
opening times. The two agree as long as every bar opens later than the one before it, and
`candle_replica_iff` says that this is exact: the read-model holds the last `history` bars of
the connector's series throughout a run if and only if every print that opens a tick bar
behind another is stamped later than that bar's first print. Time bars always qualify.

The proof follows one print: `Folded.replica_iff` for the four things a print can do, with the
opening times of the series as the invariant (`Ordered`).
-/

namespace MoonCore

variable {D : Type*}

/-- The bars of a series belong to the symbol they are stored under and open in order. -/
structure OrderedSeries (key : String) (series : List (Candle D)) : Prop where
  keyed : ∀ candle ∈ series, candle.symbol.key = key
  sorted : series.Pairwise fun a b => a.openTime < b.openTime

/-- Every series of a set is ordered. -/
def Ordered (set : CandleSet D) : Prop := ∀ key, OrderedSeries key (set.series key)

/-- The read-model's bars are the last `history` bars of the connector's series. -/
def Replica (set : CandleSet D) (bars : Bars D) : Prop :=
  ∀ key, bars key = (set.series key).rtake history

/-- Bars of one symbol reach that symbol's series only. -/
theorem foldl_foldBars {depth : ℕ} (now : Timestamp) {key : String} {candles : List (Candle D)}
    (h : ∀ candle ∈ candles, candle.symbol.key = key) (bars : Bars D) :
    (candles.map fun candle => Event.market now (.candle candle)).foldl (foldBars depth) bars =
      Function.update bars key (candles.foldl (foldBar depth) (bars key)) := by
  induction candles generalizing bars with
  | nil => exact (Function.update_eq_self key bars).symm
  | cons candle candles ih =>
    have hkey : candle.symbol.key = key := h candle List.mem_cons_self
    have hone : foldBars depth bars (Event.market now (.candle candle)) =
        Function.update bars key (foldBar depth (bars key) candle) := by
      rw [← hkey]
      rfl
    rw [List.map_cons, List.foldl_cons, hone, ih fun c hc => h c (List.mem_cons_of_mem candle hc),
      Function.update_idem, Function.update_self, List.foldl_cons]

namespace OrderedSeries

variable {key : String} {series : List (Candle D)} {last candle : Candle D}

theorem singleton (h : candle.symbol.key = key) : OrderedSeries key [candle] :=
  ⟨by simpa using h, List.pairwise_singleton _ _⟩

theorem suffix {series' : List (Candle D)} (h : OrderedSeries key series)
    (hsuffix : series' <:+ series) : OrderedSeries key series' :=
  ⟨fun c hc => h.keyed c (hsuffix.subset hc), h.sorted.sublist hsuffix.sublist⟩

/-- The last bar may be replaced by one that opens with it. -/
theorem redraw (h : OrderedSeries key (series ++ [last])) (hsym : candle.symbol = last.symbol)
    (htime : candle.openTime = last.openTime) : OrderedSeries key (series ++ [candle]) := by
  obtain ⟨hkeyed, hsorted⟩ := h
  simp only [List.forall_mem_append, List.forall_mem_singleton] at hkeyed
  simp only [List.pairwise_append, List.pairwise_singleton, List.forall_mem_singleton] at hsorted
  constructor
  · simp only [List.forall_mem_append, List.forall_mem_singleton]
    exact ⟨hkeyed.1, by rw [hsym]; exact hkeyed.2⟩
  · simp only [List.pairwise_append, List.pairwise_singleton, List.forall_mem_singleton]
    exact ⟨hsorted.1, trivial, fun a ha => htime ▸ hsorted.2.2 a ha⟩

/-- A bar that opens after the last one may follow it. -/
theorem concat (h : OrderedSeries key (series ++ [last])) (hsym : candle.symbol.key = key)
    (htime : last.openTime < candle.openTime) :
    OrderedSeries key (series ++ [last] ++ [candle]) := by
  constructor
  · rw [List.forall_mem_append]
    exact ⟨h.keyed, by simpa using hsym⟩
  · refine List.pairwise_append.mpr ⟨h.sorted, List.pairwise_singleton _ _, fun a ha b hb => ?_⟩
    obtain rfl := List.mem_singleton.mp hb
    rcases List.mem_append.mp ha with ha | ha
    · exact lt_trans ((List.pairwise_append.mp h.sorted).2.2 a ha last (by simp)) htime
    · exact List.mem_singleton.mp ha ▸ htime

end OrderedSeries

namespace CandleSet

variable {self : CandleSet D} {trade : PublicTrade D} {result : CandleSet D × Update D}

/-- The bars a print redraws are its symbol's. -/
theorem Folded.bars_keyed (h : Folded self trade result) (hself : Ordered self) :
    ∀ candle ∈ result.2.bars, candle.symbol.key = trade.symbol.key := by
  cases h with
  | ignored => simp [Update.bars]
  | redrawn _ series symbol =>
    have hlast : _ = trade.symbol.key := (hself _).keyed _ (series ▸ List.mem_concat_self)
    simpa [Update.bars, symbol] using hlast
  | first _ _ symbol => simp [Update.bars, symbol]
  | rolled _ series symbol _ symbol' =>
    have hlast : _ = trade.symbol.key := (hself _).keyed _ (series ▸ List.mem_concat_self)
    simpa [Update.bars, symbol, symbol'] using hlast

/-- A print that opens no bar behind its predecessor keeps the series ordered. -/
theorem Folded.ordered (h : Folded self trade result) (hself : Ordered self)
    (hlater : self.OpensLater trade) : Ordered result.1 := by
  have hother : ∀ key, key ≠ trade.symbol.key → result.1.series key = self.series key :=
    fun key => h.series_ne
  have hlast : OrderedSeries trade.symbol.key (result.1.series trade.symbol.key) := by
    have hseries := hself trade.symbol.key
    cases h with
    | ignored => exact hseries
    | redrawn _ series symbol openTime =>
      rw [series] at hseries
      rw [put_series, if_pos rfl]
      exact hseries.redraw symbol openTime
    | first _ _ symbol =>
      rw [put_series, if_pos rfl]
      exact (OrderedSeries.singleton (congrArg Symbol.key symbol)).suffix
        (pushBounded_suffix self.capacity [] _)
    | rolled later series symbol openTime symbol' =>
      rw [series] at hseries
      rw [put_series, if_pos rfl]
      refine OrderedSeries.suffix ?_ (pushBounded_suffix self.capacity _ _)
      exact (hseries.redraw symbol openTime).concat (congrArg Symbol.key symbol')
        (openTime ▸ later.mp hlater)
  intro key
  rcases eq_or_ne key trade.symbol.key with rfl | hkey
  · exact hlast
  · rw [hother key hkey]
    exact hself key

/-- **One print.** If the read-model's bars are the last of an ordered series, they are again
after the bars of the print are folded in exactly when a bar that was opened opens later. -/
theorem Folded.replica_iff (h : Folded self trade result) (hself : Ordered self)
    (hcap : history ≤ self.capacity) :
    result.2.bars.foldl (foldBar history) ((self.series trade.symbol.key).rtake history) =
      (result.1.series trade.symbol.key).rtake history ↔ self.OpensLater trade := by
  have hone : 1 ≤ history := by decide
  have htwo : 1 ≤ history - 1 := by decide
  have hsplit : ∀ (init : List (Candle D)) (last : Candle D),
      (init ++ [last]).rtake history = init.rtake (history - 1) ++ [last] :=
    fun init last => rtake_append hone
  cases h with
  | ignored later => simp [Update.bars, later]
  | redrawn later series symbol openTime =>
    simp only [Update.bars, series, hsplit, List.foldl_cons, List.foldl_nil,
      foldBar_redraw openTime, put_series, if_true, later]
  | first later series symbol =>
    simp only [Update.bars, series, List.rtake_nil, List.foldl_cons, List.foldl_nil, foldBar_nil,
      put_series, if_true, rtake_pushBounded hcap, later]
  | @rolled init last last' opened later series symbol openTime symbol' =>
    have hsorted := (hself trade.symbol.key).sorted
    rw [series] at hsorted
    rw [later, series, hsplit]
    simp only [Update.bars, List.foldl_cons, List.foldl_nil, foldBar_redraw openTime, put_series,
      if_true, rtake_pushBounded hcap, hsplit]
    have hpush : pushBounded history (init.rtake (history - 1) ++ [last']) opened =
        init.rtake (history - 2) ++ [last'] ++ [opened] := by
      rw [pushBounded_eq_concat hone, rtake_append htwo, List.length_singleton,
        rtake_rtake (Nat.sub_le _ 1), Nat.sub_sub]
    rcases lt_trichotomy last.openTime opened.openTime with hlt | heq | hgt
    · simp only [foldBar_append (openTime ▸ hlt), hlt]
    · -- the new bar overwrote the closed one, which is nowhere else
      rw [foldBar_redraw (heq.symm.trans openTime.symm), hpush]
      refine iff_of_false (fun hsame => ?_) heq.not_lt
      have hinit := (List.append_inj' hsame rfl).1
      have hmem : last' ∈ init.rtake (history - 1) := hinit ▸ List.mem_concat_self
      have hbefore := (List.pairwise_append.mp hsorted).2.2 last' (rtake_subset hmem) last (by simp)
      exact absurd (openTime ▸ hbefore) (lt_irrefl _)
    · -- the new bar was dropped
      rw [foldBar_drop (openTime ▸ hgt), hpush]
      refine iff_of_false (fun hsame => ?_) hgt.not_gt
      have hlast := (List.append_inj' hsame rfl).2
      obtain rfl : last' = opened := by simpa using hlast
      exact absurd (openTime ▸ hgt) (lt_irrefl _)

end CandleSet

/-! ### Whole runs -/

/-- Events without a bar leave the bars alone. -/
theorem foldl_foldBars_of_forall {depth : ℕ} {events : List (Event D)}
    (h : ∀ event ∈ events, ∀ candle, event.payload ≠ .market (.candle candle)) (bars : Bars D) :
    events.foldl (foldBars depth) bars = bars := by
  induction events generalizing bars with
  | nil => rfl
  | cons event events ih =>
    have hone : foldBars depth bars event = bars := by
      rw [foldBars]
      split
      · exact absurd ‹_› (h event List.mem_cons_self _)
      · rfl
    rw [List.foldl_cons, hone, ih fun e he => h e (List.mem_cons_of_mem event he)]

section Runs

variable [LinearOrder D] [Zero D] [Add D]

/-- The stamp of a print that opens a tick bar behind another is later than that bar's first
print; other inputs are free. -/
def Connector.InOrder (self : Connector D) : Input D → Prop
  | .trade trade _ => self.candles.OpensLater trade
  | _ => True

/-- Inputs other than prints neither touch the bars nor publish one. -/
theorem Connector.step_bars {self : Connector D} {input : Input D}
    (h : ∀ trade now, input ≠ .trade trade now) :
    (self.step input).1.candles = self.candles ∧
      ∀ event ∈ (self.step input).2, ∀ candle, event.payload ≠ .market (.candle candle) := by
  cases input with
  | trade trade now => exact absurd rfl (h trade now)
  | delta delta now =>
    refine ⟨rfl, fun event hevent candle => ?_⟩
    rcases List.mem_append.mp hevent with hmem | hmem
    · split_ifs at hmem
      · split at hmem
        · simp [List.mem_singleton.mp hmem]
        · simp at hmem
      · simp [List.mem_singleton.mp hmem]
      · simp at hmem
    · obtain ⟨health, rfl⟩ := Need.mem_notice hmem
      simp
  | fetched snapshot now =>
    simp only [Connector.step, Connector.onFetched]
    split
    · simp
    · simp
  | _ => simp [Connector.step]

/-- One print, seen by the bars of the core. -/
theorem core_next_trade_candles (s : Connector D × MarketState D) (trade : PublicTrade D)
    (now : Timestamp) (hordered : Ordered s.1.candles) :
    (core.next s (.trade trade now)).2.candles =
      Function.update s.2.candles trade.symbol.key
        ((s.1.candles.onTrade trade).2.bars.foldl (foldBar history)
          (s.2.candles trade.symbol.key)) := by
  have hkeyed := (s.1.candles.folded_onTrade trade).bars_keyed hordered
  rw [core_next_candles, ← foldl_foldBars now hkeyed]
  change List.foldl _ _ (_ ++ [_]) = _
  rw [List.foldl_append]
  rfl

/-- One input of the core, seen by the bars: they stay a replica exactly when the input is in
order. -/
theorem replica_step {s : Connector D × MarketState D} (hordered : Ordered s.1.candles)
    (hcap : history ≤ s.1.candles.capacity) (hreplica : Replica s.1.candles s.2.candles)
    (input : Input D) :
    Replica (core.next s input).1.candles (core.next s input).2.candles ↔ s.1.InOrder input := by
  by_cases htrade : ∃ trade now, input = .trade trade now
  · obtain ⟨trade, now, rfl⟩ := htrade
    have hfolded := s.1.candles.folded_onTrade trade
    have hone := hfolded.replica_iff hordered hcap
    rw [← hreplica trade.symbol.key] at hone
    rw [core_next_trade_candles s trade now hordered]
    change Replica (s.1.candles.onTrade trade).1 _ ↔ s.1.candles.OpensLater trade
    refine ⟨fun h => hone.mp ?_, fun hlater key => ?_⟩
    · have hkey := h trade.symbol.key
      rwa [Function.update_self] at hkey
    · rcases eq_or_ne key trade.symbol.key with rfl | hkey
      · rw [Function.update_self]
        exact hone.mpr hlater
      · rw [Function.update_of_ne hkey, hfolded.series_ne hkey]
        exact hreplica key
  · have hother : ∀ trade now, input ≠ .trade trade now :=
      fun trade now heq => htrade ⟨trade, now, heq⟩
    obtain ⟨hcandles, hevents⟩ := s.1.step_bars hother
    have hfree : s.1.InOrder input := by
      cases input with
      | trade trade now => exact absurd rfl (hother trade now)
      | _ => trivial
    refine iff_of_true ?_ hfree
    rw [core_next_candles, foldl_foldBars_of_forall hevents]
    exact hcandles ▸ hreplica

/-- The core's series are ordered and long enough to be replicated. -/
def Replicable (s : Connector D × MarketState D) : Prop :=
  Ordered s.1.candles ∧ history ≤ s.1.candles.capacity

/-- One input in order keeps the series ordered, and their capacity. -/
theorem replicable_step {s : Connector D × MarketState D} {input : Input D}
    (hinput : s.1.InOrder input) (h : Replicable s) : Replicable (core.next s input) := by
  by_cases htrade : ∃ trade now, input = .trade trade now
  · obtain ⟨trade, now, rfl⟩ := htrade
    have hfolded := s.1.candles.folded_onTrade trade
    exact ⟨hfolded.ordered h.1 hinput, hfolded.capacity_eq ▸ h.2⟩
  · have hother : ∀ trade now, input ≠ .trade trade now :=
      fun trade now heq => htrade ⟨trade, now, heq⟩
    have hcandles : (core.next s input).1.candles = s.1.candles := (s.1.step_bars hother).1
    rwa [Replicable, hcandles]

/-- **Candle replica.** However bars are cut, the read-model holds the last `history` bars of
each of the connector's series after every prefix of a run exactly when every print of the run
is in order. -/
theorem candle_replica_iff (bucketing : Bucketing) (capacity : ℕ) (hcap : history ≤ capacity)
    (cooldownMs : ℤ) (inputs : List (Input D)) :
    (∀ k, Replica (core.run (coreStart bucketing capacity cooldownMs) (inputs.take k)).1.candles
        (core.run (coreStart bucketing capacity cooldownMs) (inputs.take k)).2.candles) ↔
      core.Along (fun s input => s.1.InOrder input) (coreStart bucketing capacity cooldownMs)
        inputs := by
  have hstart : Replicable (coreStart bucketing capacity cooldownMs : Connector D × _) := by
    constructor
    · exact fun _ => ⟨by simp [coreStart, Connector.new, CandleSet.new], .nil⟩
    · exact hcap.trans (Nat.le_max_left capacity 1)
  refine Machine.forall_take_iff_along (fun s => Replica s.1.candles s.2.candles) Replicable
    ?_ ?_ hstart ?_ inputs
  · exact fun s input hs _ hinput => replicable_step hinput hs
  · exact fun s input hs hreplica => replica_step hs.1 hs.2 hreplica input
  · exact fun _ => (List.rtake_nil history).symm

end Runs

/-- Two prints of one instrument, one after the other. -/
private def prints (ts ts' : Timestamp) : List (Input ℤ) :=
  [.trade ⟨btcusdt, 100, 1, .buy, ts, 1⟩ ts, .trade ⟨btcusdt, 101, 1, .sell, ts', 2⟩ ts']

/-- Bars of one print each, opened a millisecond apart, are all replicated. -/
theorem candle_replica_iff_apart :
    Replica (core.run (coreStart (.ticks 1) 600 1000) (prints 5 6)).1.candles
      (core.run (coreStart (.ticks 1) 600 1000) (prints 5 6)).2.candles := by
  have halong : core.Along (fun s input => s.1.InOrder input)
      (coreStart (.ticks 1) 600 1000) (prints 5 6) :=
    ⟨trivial, fun _ => by decide, trivial⟩
  exact (candle_replica_iff (.ticks 1) 600 le_rfl 1000 (prints 5 6)).mpr halong 2

/-- Two prints of the same millisecond make two bars of one print each in the connector and one
in the read-model. -/
theorem not_candle_replica_together :
    ¬ Replica (core.run (coreStart (.ticks 1) 600 1000) (prints 5 5)).1.candles
      (core.run (coreStart (.ticks 1) 600 1000) (prints 5 5)).2.candles := by
  intro h
  have hlength := congrArg List.length (h btcusdt.key)
  revert hlength
  decide +kernel

end MoonCore
