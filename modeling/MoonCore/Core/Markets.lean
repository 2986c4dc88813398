import MoonCore.Binance.Decode
import MoonCore.Core.CandleReplica
import MoonCore.Machine.View
import MoonCore.MarketData.CatchUp

/-!
# Many markets in one core

`core::main` connects once per configured market; every connector publishes into one channel, and
one pump folds what arrives into one read-model. The same ticker exists on several markets, so what
keeps them apart is the market in every symbol a connector decodes.

`Markets.apart`: whatever order the connectors are served in, what the read-model holds for a
symbol of a market, once the pump has caught up, is what a core with that market alone holds.
-/

namespace MoonCore

variable {D : Type}

/-- A symbol of one market of the venue. -/
def Symbol.OfMarket (market : MarketKind) (symbol : Symbol) : Prop :=
  symbol.exchange = .binance ∧ symbol.market = market

/-- An event that concerns no instrument, or one of a market. -/
def Event.OfMarket (market : MarketKind) (event : Event D) : Prop :=
  ∀ payload symbol, event.payload = .market payload → payload.symbol = some symbol →
    symbol.OfMarket market

/-- An input that concerns no instrument, or one of a market. -/
def Input.OfMarket (market : MarketKind) : Input D → Prop
  | .trade print _ => print.symbol.OfMarket market
  | .delta update _ => update.symbol.OfMarket market
  | .fetched snapshot _ => ∀ symbol, snapshot.symbol = some symbol → symbol.OfMarket market
  | _ => True

/-- Whatever reaches a connector concerns its market. -/
theorem Arrival.ofMarket {formats : Formats D} {market : MarketKind} {arrival : Arrival D}
    {input : Input D} (h : arrival.input formats market = some input) : input.OfMarket market := by
  cases arrival with
  | text frame now =>
    rw [Arrival.input] at h
    split at h
    · rename_i trade hdecode
      obtain rfl := Option.some.inj h
      exact decode_market hdecode
    · rename_i delta hdecode
      obtain rfl := Option.some.inj h
      exact decode_market hdecode
    · cases h
  | snapshot ticker raw fetchedAt now =>
    obtain rfl := Option.some.inj h
    rintro symbol hsymbol
    obtain rfl := Option.some.inj hsymbol
    exact ⟨rfl, rfl⟩
  | _ =>
    obtain rfl := Option.some.inj h
    trivial

/-! ### What a connector publishes -/

/-- A connector's books and bars are those of the symbols they are filed under. -/
structure Connector.Filed (connector : Connector D) : Prop where
  books : BookSet.Every BookSet.Kept connector.books
  bars : ∀ key, ∀ candle ∈ connector.candles.series key, candle.symbol.key = key

/-- The bars of a print, and what it leaves of the series, are filed under its symbol. -/
theorem CandleSet.Folded.filed {self : CandleSet D} {trade : PublicTrade D}
    {result : CandleSet D × Update D} (h : CandleSet.Folded self trade result)
    (hself : ∀ key, ∀ candle ∈ self.series key, candle.symbol.key = key) :
    (∀ key, ∀ candle ∈ result.1.series key, candle.symbol.key = key) ∧
      ∀ candle ∈ result.2.bars, candle.symbol.key = trade.symbol.key := by
  have hput : ∀ series : List (Candle D),
      (∀ candle ∈ series, candle.symbol.key = trade.symbol.key) →
      ∀ key, ∀ candle ∈ (self.put trade.symbol.key series).series key, candle.symbol.key = key := by
    intro series hseries key candle hmem
    rw [put_series] at hmem
    split_ifs at hmem with hkey
    · exact hkey ▸ hseries candle hmem
    · exact hself key candle hmem
  have hpushed : ∀ (series : List (Candle D)) (opened : Candle D),
      (∀ candle ∈ series, candle.symbol.key = trade.symbol.key) →
      opened.symbol = trade.symbol →
      ∀ candle ∈ pushBounded self.capacity series opened,
        candle.symbol.key = trade.symbol.key := by
    intro series opened hseries hopened candle hmem
    have hin := (pushBounded_suffix self.capacity series opened).subset hmem
    rcases List.mem_append.mp hin with hold | hnew
    · exact hseries candle hold
    · rw [List.mem_singleton.mp hnew, hopened]
  cases h with
  | ignored => exact ⟨hself, by simp [Update.bars]⟩
  | @redrawn later init last last' series symbol =>
    have hseries := hself trade.symbol.key
    rw [series] at hseries
    have hlast : last'.symbol.key = trade.symbol.key := by
      rw [symbol]
      exact hseries last List.mem_concat_self
    refine ⟨hput _ fun candle hmem => ?_, by simpa [Update.bars] using hlast⟩
    rcases List.mem_append.mp hmem with hold | hnew
    · exact hseries candle (List.mem_append_left _ hold)
    · exact List.mem_singleton.mp hnew ▸ hlast
  | first _ series symbol =>
    exact ⟨hput _ (hpushed [] _ (by simp) symbol), by simp [Update.bars, symbol]⟩
  | @rolled init last last' opened later series symbol openTime symbol' =>
    have hseries := hself trade.symbol.key
    rw [series] at hseries
    have hlast : last'.symbol.key = trade.symbol.key := by
      rw [symbol]
      exact hseries last List.mem_concat_self
    have hclosed : ∀ candle ∈ init ++ [last'], candle.symbol.key = trade.symbol.key := by
      intro candle hmem
      rcases List.mem_append.mp hmem with hold | hnew
      · exact hseries candle (List.mem_append_left _ hold)
      · exact List.mem_singleton.mp hnew ▸ hlast
    refine ⟨hput _ (hpushed _ _ hclosed symbol'), ?_⟩
    simpa [Update.bars, symbol'] using hlast

section Steps

variable [LinearOrder D] [Zero D] [Add D]

/-- A connector that is given its market publishes its market. -/
theorem Connector.Filed.step {self : Connector D} (h : self.Filed) {market : MarketKind}
    {input : Input D} (hinput : input.OfMarket market) :
    (self.step input).1.Filed ∧ ∀ event ∈ (self.step input).2, event.OfMarket market := by
  have hhealth : ∀ now health, Event.OfMarket market (Event.connection now health : Event D) :=
    fun now health payload symbol hpayload => by simp at hpayload
  have hstep : ∀ op, BookSet.Every BookSet.Kept (BookSet.machine.next self.books op) :=
    fun op => BookSet.stable_kept.step trivial h.books
  have hshown : ∀ {books : BookSet D} {b : OrderBook D} {symbol : Symbol} {now : Timestamp},
      BookSet.Every BookSet.Kept books → books.book symbol.key = some b →
      symbol.OfMarket market → Event.OfMarket market (Event.market now (.bookSnapshot b)) := by
    intro books b symbol now hkept hb hsymbol payload shown hpayload hshown
    obtain rfl : MarketEvent.bookSnapshot b = payload := by simpa using hpayload
    obtain ⟨entry, hentry, hbook, -⟩ := BookSet.book_eq_some.mp hb
    obtain ⟨held, hheld, hkey⟩ := (hkept _ _ hentry).book_symbol b hbook
    obtain rfl : held = shown := Option.some.inj (hheld.symm.trans hshown)
    rw [Symbol.key_inj] at hkey
    rwa [hkey]
  cases input with
  | delta delta now =>
    refine ⟨⟨hstep (.delta delta now), h.bars⟩, fun event hevent => ?_⟩
    rcases List.mem_append.mp hevent with hmem | hmem
    · split_ifs at hmem
      · split at hmem
        · rename_i book hbook
          obtain rfl := List.mem_singleton.mp hmem
          exact hshown (hstep (.delta delta now)) hbook hinput
        · cases hmem
      · obtain rfl := List.mem_singleton.mp hmem
        intro payload symbol hpayload hsymbol
        obtain rfl : MarketEvent.bookDelta delta = payload := by simpa using hpayload
        obtain rfl := Option.some.inj hsymbol
        exact hinput
      · cases hmem
    · obtain ⟨health, rfl⟩ := Need.mem_notice hmem
      exact hhealth now health
  | fetched snapshot now =>
    have hnext := hstep (.snapshot snapshot now)
    change BookSet.Every _ (self.books.installSnapshot snapshot now).1 at hnext
    have hjoined := @BookSet.book_of_installSnapshot D _ _ self.books snapshot
    rw [Connector.step, Connector.onFetched]
    split
    · rename_i books joined hinstall
      rw [hinstall] at hnext
      refine ⟨⟨hnext, h.bars⟩, fun event hevent => ?_⟩
      obtain rfl := List.mem_singleton.mp hevent
      obtain ⟨symbol, hsymbol, hbook⟩ := @hjoined joined now (by rw [hinstall])
      rw [hinstall] at hbook
      exact hshown hnext hbook (hinput symbol hsymbol)
    · rename_i books hinstall
      rw [hinstall] at hnext
      exact ⟨⟨hnext, h.bars⟩, by simp⟩
  | trade trade now =>
    obtain ⟨hbars, hupdate⟩ := (self.candles.folded_onTrade trade).filed h.bars
    refine ⟨⟨h.books, hbars⟩, fun event hevent => ?_⟩
    rcases List.mem_append.mp hevent with hmem | hmem
    · obtain ⟨candle, hcandle, rfl⟩ := List.mem_map.mp hmem
      intro payload symbol hpayload hsymbol
      obtain rfl : MarketEvent.candle candle = payload := by simpa using hpayload
      obtain rfl := Option.some.inj hsymbol
      rw [Symbol.key_injective (hupdate candle hcandle)]
      exact hinput
    · obtain rfl := List.mem_singleton.mp hmem
      intro payload symbol hpayload hsymbol
      obtain rfl : MarketEvent.trade trade = payload := by simpa using hpayload
      obtain rfl := Option.some.inj hsymbol
      exact hinput
  | failed symbol => exact ⟨⟨hstep (.failed symbol), h.bars⟩, by simp [Connector.step]⟩
  | disconnected reason now =>
    refine ⟨⟨hstep .reset, h.bars⟩, fun event hevent => ?_⟩
    obtain rfl := List.mem_singleton.mp hevent
    exact hhealth now _
  | connecting now =>
    refine ⟨h, fun event hevent => ?_⟩
    obtain rfl := List.mem_singleton.mp hevent
    exact hhealth now _
  | ready now =>
    refine ⟨h, fun event hevent => ?_⟩
    obtain rfl := List.mem_singleton.mp hevent
    exact hhealth now _

end Steps

/-! ### What a read-model keeps under one key -/

/-- Two read-models that agree on everything about one key. -/
structure SameAt (key : String) (a b : MarketState D) : Prop where
  books : a.books key = b.books key
  candles : a.candles key = b.candles key
  tape : a.tape key = b.tape key

section Fold

variable [LinearOrder D] [Zero D] {key : String}

/-- Read-models that agree on a key still do after the same event. -/
theorem SameAt.apply {a b : MarketState D} (h : SameAt key a b) (event : Event D) :
    SameAt key (a.apply event) (b.apply event) where
  books := by rw [MarketState.apply_books, MarketState.apply_books, foldBooks_apply,
    foldBooks_apply, h.books]
  candles := by rw [MarketState.apply_candles, MarketState.apply_candles, foldBars_apply,
    foldBars_apply, h.candles]
  tape := by rw [MarketState.apply_tape, MarketState.apply_tape, h.tape]

/-- An event of another market changes nothing under the key of a symbol. -/
theorem SameAt.apply_left {symbol : Symbol} {a b : MarketState D} (h : SameAt symbol.key a b)
    {market : MarketKind} {event : Event D} (hevent : event.OfMarket market)
    (hother : ¬ symbol.OfMarket market) : SameAt symbol.key (a.apply event) b := by
  have hne : ∀ payload s, event.payload = .market payload → payload.symbol = some s →
      s.key ≠ symbol.key := by
    intro payload s hpayload hs hkey
    exact hother (Symbol.key_injective hkey ▸ hevent payload s hpayload hs)
  constructor
  · rw [← h.books, MarketState.apply_books, foldBooks_apply]
    rcases foldAt_cases event symbol.key with ⟨-, hfold⟩ | ⟨book, s, hbook, hs, hkey, -⟩ |
      ⟨delta, hdelta, hkey, -⟩
    · exact hfold _
    · exact absurd hkey (hne _ s hbook hs)
    · exact absurd hkey (hne _ delta.symbol hdelta rfl)
  · rw [← h.candles, MarketState.apply_candles, foldBars_apply]
    cases hcandle : event.candleIn symbol.key with
    | none => rfl
    | some candle =>
      obtain ⟨hpayload, hkey⟩ := Event.candleIn_eq_some hcandle
      exact absurd hkey (hne _ candle.symbol hpayload rfl)
  · rw [← h.tape, MarketState.apply_tape]
    obtain ⟨ts, payload⟩ := event
    rcases payload with market | account | health
    · cases market with
      | trade trade =>
        have hkey : ¬ trade.symbol.key = symbol.key := hne _ trade.symbol rfl rfl
        simp only [Event.tradeIn, if_neg hkey]
      | _ => rfl
    · rfl
    · rfl

theorem SameAt.foldl {a b : MarketState D} (h : SameAt key a b) (events : List (Event D)) :
    SameAt key (events.foldl MarketState.apply a) (events.foldl MarketState.apply b) := by
  induction events generalizing a b with
  | nil => exact h
  | cons event events ih => exact ih (h.apply event)

theorem SameAt.foldl_left {symbol : Symbol} {a b : MarketState D} (h : SameAt symbol.key a b)
    {market : MarketKind} (hother : ¬ symbol.OfMarket market) {events : List (Event D)}
    (hevents : ∀ event ∈ events, event.OfMarket market) :
    SameAt symbol.key (events.foldl MarketState.apply a) b := by
  induction events generalizing a with
  | nil => exact h
  | cons event events ih =>
    have hfirst := h.apply_left (hevents event List.mem_cons_self) hother
    exact ih hfirst fun e he => hevents e (List.mem_cons_of_mem event he)

end Fold

/-! ### Many markets -/

/-- The connectors, one for each market the configuration lists (a market listed twice has two),
the channel they share, and the read-model. -/
structure Markets (markets : List MarketKind) (D : Type) where
  connectors : Fin markets.length → Connector D
  /-- Published, and not taken by the pump yet. -/
  channel : List (Event D)
  state : MarketState D

/-- What can happen next. -/
inductive MarketsMove (markets : List MarketKind) (D : Type) where
  /-- A connector's socket task is handed something. -/
  | arrival (i : Fin markets.length) (arrival : Arrival D)
  /-- The pump takes an event. -/
  | fold

namespace Markets

variable {markets : List MarketKind} [LinearOrder D] [Zero D] [Add D]

omit [LinearOrder D] [Zero D] [Add D] in
/-- A core that has just started. -/
def start (markets : List MarketKind) (bucketing : Bucketing) (capacity : ℕ) (cooldownMs : ℤ) :
    Markets markets D :=
  ⟨fun _ => .new bucketing capacity cooldownMs, [], .new⟩

/-- One move. -/
def step (formats : Formats D) (s : Markets markets D) : MarketsMove markets D → Markets markets D
  | .arrival i arrival =>
    match arrival.input formats markets[i] with
    | some input =>
      let (connector, events) := (s.connectors i).step input
      { s with
        connectors := Function.update s.connectors i connector
        channel := s.channel ++ events }
    | none => s
  | .fold =>
    match s.channel with
    | event :: channel => { s with channel := channel, state := s.state.apply event }
    | [] => s

/-- The connectors and the pump, in any order. -/
def machine (markets : List MarketKind) (formats : Formats D) :
    Machine (Markets markets D) (MarketsMove markets D) Unit :=
  ⟨fun s move => (s.step formats move, ())⟩

@[simp] theorem machine_next (formats : Formats D) (s : Markets markets D)
    (move : MarketsMove markets D) :
    (machine markets formats).next s move = s.step formats move := rfl

/-- The read-model once the pump has caught up. -/
def settled (s : Markets markets D) : MarketState D := s.channel.foldl MarketState.apply s.state

omit [LinearOrder D] [Zero D] [Add D] in
/-- The inputs of one connector. -/
def own (formats : Formats D) (i : Fin markets.length) :
    MarketsMove markets D → Option (Input D)
  | .arrival j arrival => if j = i then arrival.input formats markets[i] else none
  | .fold => none

/-- The core with one connector alone: the same connector, and the same read-model under the keys
of its market's symbols. -/
structure Apart (i : Fin markets.length) (s : Markets markets D)
    (alone : Connector D × MarketState D) : Prop where
  connector : s.connectors i = alone.1
  filed : ∀ j, (s.connectors j).Filed
  same : ∀ symbol : Symbol, symbol.OfMarket markets[i] → SameAt symbol.key s.settled alone.2

/-- Taking an event from the channel settles nothing new. -/
theorem settled_fold (formats : Formats D) (s : Markets markets D) :
    (s.step formats .fold).settled = s.settled := by
  obtain ⟨connectors, channel, state⟩ := s
  cases channel <;> rfl

/-- One connector's input, seen by the whole core. -/
theorem step_arrival {formats : Formats D} {s : Markets markets D} {i : Fin markets.length}
    {arrival : Arrival D} {input : Input D} (h : arrival.input formats markets[i] = some input) :
    (s.step formats (.arrival i arrival)).connectors =
        Function.update s.connectors i ((s.connectors i).step input).1 ∧
      (s.step formats (.arrival i arrival)).settled =
        ((s.connectors i).step input).2.foldl MarketState.apply s.settled := by
  simp only [step, h, settled, List.foldl_append, and_self]

/-- The other markets are only in the way. -/
theorem tracks (formats : Formats D) {i : Fin markets.length}
    (hlone : ∀ j : Fin markets.length, markets[j] = markets[i] → j = i) :
    (machine markets formats).Tracks core (Apart i) (own formats i) where
  mine s alone move input h hown := by
    rw [machine_next, core_next]
    cases move with
    | fold => cases hown
    | arrival j arrival =>
      simp only [own] at hown
      split_ifs at hown with hj
      subst hj
      obtain ⟨hconnectors, hsettled⟩ := step_arrival (s := s) hown
      obtain ⟨hfiled, -⟩ := (h.filed j).step (Arrival.ofMarket hown)
      refine ⟨?_, fun other => ?_, fun symbol hsymbol => ?_⟩
      · rw [hconnectors, Function.update_self, h.connector]
      · rw [hconnectors, Function.update_apply]
        split_ifs
        · exact hfiled
        · exact h.filed other
      · rw [hsettled, h.connector]
        exact (h.same symbol hsymbol).foldl _
  others s alone move h hown := by
    rw [machine_next]
    cases move with
    | fold =>
      refine ⟨?_, ?_, fun symbol hsymbol => ?_⟩
      · obtain ⟨connectors, channel, state⟩ := s
        cases channel <;> exact h.connector
      · obtain ⟨connectors, channel, state⟩ := s
        cases channel <;> exact h.filed
      · rw [settled_fold]
        exact h.same symbol hsymbol
    | arrival j arrival =>
      cases hinput : arrival.input formats markets[j] with
      | none =>
        have hkept : s.step formats (.arrival j arrival) = s := by simp only [step, hinput]
        rwa [hkept]
      | some input =>
        have hj : j ≠ i := by
          rintro rfl
          rw [own, if_pos rfl, hinput] at hown
          cases hown
        obtain ⟨hconnectors, hsettled⟩ := step_arrival (s := s) hinput
        obtain ⟨hfiled, hevents⟩ := (h.filed j).step (Arrival.ofMarket hinput)
        refine ⟨?_, fun other => ?_, fun symbol hsymbol => ?_⟩
        · rw [hconnectors, Function.update_of_ne hj.symm, h.connector]
        · rw [hconnectors, Function.update_apply]
          split_ifs
          · exact hfiled
          · exact h.filed other
        · have hother : ¬ symbol.OfMarket markets[j] :=
            fun hboth => hj (hlone j (hboth.2.symm.trans hsymbol.2))
          rw [hsettled]
          exact (h.same symbol hsymbol).foldl_left hother hevents

/-- **Markets do not mix.** However the connectors' frames, snapshots, failures and reconnects are
interleaved, and whatever the pump has got to, the connector of a market that is listed once is
the one of a core with that market alone, and for every ticker of the market the read-model, once
the pump has caught up, has that core's book, bars and tape. -/
theorem apart (markets : List MarketKind) (formats : Formats D) (bucketing : Bucketing)
    (capacity : ℕ) (cooldownMs : ℤ) (moves : List (MarketsMove markets D)) (ticker : String)
    (i : Fin markets.length)
    (hlone : ∀ j : Fin markets.length, markets[j] = markets[i] → j = i) :
    let s := (machine markets formats).run (start markets bucketing capacity cooldownMs) moves
    let alone := core.run (coreStart bucketing capacity cooldownMs)
      (moves.filterMap (own formats i))
    let key := Symbol.key ⟨.binance, markets[i], ticker⟩
    s.connectors i = alone.1 ∧ s.settled.books key = alone.2.books key ∧
      s.settled.candles key = alone.2.candles key ∧ s.settled.tape key = alone.2.tape key := by
  intro s alone key
  have hstart : Apart i (start markets bucketing capacity cooldownMs : Markets markets D)
      (coreStart bucketing capacity cooldownMs) := by
    refine ⟨rfl, fun j => ⟨BookSet.every_new cooldownMs, ?_⟩, fun symbol _ => ⟨rfl, rfl, rfl⟩⟩
    exact fun key candle hmem => absurd hmem List.not_mem_nil
  have hrun := (tracks formats hlone).run hstart moves
  have hsame := hrun.same ⟨.binance, markets[i], ticker⟩ ⟨rfl, rfl⟩
  exact ⟨hrun.connector, hsame.books, hsame.candles, hsame.tape⟩

/-- A print of the ticker, in either market. -/
private def printValue : Json :=
  .obj [("e", .str "aggTrade"), ("s", .str "BTCUSDT"), ("a", .int 7), ("p", .str "100"),
    ("q", .str "2"), ("T", .int 5), ("m", .bool true)]

/-- The codecs, at the texts of that frame. -/
private def printFormats : Formats ℤ where
  json text := if text = "print" then some printValue else none
  decimal text := if text = "100" then some 100 else if text = "2" then some 2 else none

/-- Two prints on spot around one on the perpetual. -/
private def sameTicker : List (MarketsMove [.spot, .linearPerp] ℤ) :=
  [.arrival 0 (.text "print" 6), .arrival 1 (.text "print" 7), .fold, .fold,
    .arrival 0 (.text "print" 8)]

/-- The perpetual's tape has the one print it would have without spot. -/
theorem apart_sameTicker :
    let s := (machine _ printFormats).run (start _ (.ticks 25) 1200 1000) sameTicker
    let key := Symbol.key ⟨.binance, .linearPerp, "BTCUSDT"⟩
    (s.settled.tape key).length = 1 ∧
      s.settled.tape key = (core.run (coreStart (.ticks 25) 1200 1000)
        (sameTicker.filterMap (own printFormats 1))).2.tape key := by
  intro s key
  obtain ⟨-, -, -, htape⟩ := apart [.spot, .linearPerp] printFormats (.ticks 25) 1200 1000
    sameTicker "BTCUSDT" 1 (by decide)
  exact ⟨by decide +kernel, htape⟩

end Markets

end MoonCore
