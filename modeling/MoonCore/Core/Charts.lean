import MoonCore.Core.Terminals
import MoonCore.MarketData.CatchUp

/-!
# The chart of a terminal

What a terminal draws is the read-model's bars, received three ways: handed over whole after every
message of the terminal, streamed one update at a time, and streamed again where the queue still
held what the hand-over already contained. A terminal keeps its bars over a reconnect, so that a
hand-over also lands on the bars of an earlier session.

`Charted` is the invariant of a terminal that never lags: whatever part of what is on the way it
has taken, it is behind the read-model's series (`Behind`), and once it has taken it all it has
caught up (`EndsWith`). `Hub.chart` is the result for every terminal of the core.
-/

namespace MoonCore

variable {D : Type*}

/-- Of what is filed under some keys, one key's part is whole or absent. -/
theorem filter_flatMap_filed {α : Type*} {f : String → List α} {keyOf : α → String}
    (hfiled : ∀ key, ∀ a ∈ f key, keyOf a = key) {keys : List String} (hkeys : keys.Nodup)
    (key : String) :
    ((keys.flatMap f).filter fun a => keyOf a = key) = if key ∈ keys then f key else [] := by
  induction keys with
  | nil => rfl
  | cons k keys ih =>
    obtain ⟨hk, hkeys⟩ := List.nodup_cons.mp hkeys
    rw [List.flatMap_cons, List.filter_append, ih hkeys]
    by_cases heq : k = key
    · subst heq
      have hall : ((f k).filter fun a => keyOf a = k) = f k :=
        List.filter_eq_self.mpr fun a ha => decide_eq_true (hfiled k a ha)
      rw [hall, if_neg hk, List.append_nil, if_pos List.mem_cons_self]
    · have hnone : ((f k).filter fun a => keyOf a = key) = [] :=
        List.filter_eq_nil_iff.mpr fun a ha => by
          rw [decide_eq_true_eq, hfiled k a ha]
          exact heq
      rw [hnone, List.nil_append]
      simp only [List.mem_cons, Ne.symm heq, false_or]

/-- A beginning of two lists in a row ends in the first or goes on into the second. -/
theorem prefix_append_cases {α : Type*} {l as bs : List α} (h : l <+: as ++ bs) :
    l <+: as ∨ ∃ more, more <+: bs ∧ l = as ++ more := by
  obtain ⟨rest, hrest⟩ := h
  rcases List.append_eq_append_iff.mp hrest with ⟨more, hmore, -⟩ | ⟨more, hmore, hbs⟩
  · exact .inl ⟨more, hmore.symm⟩
  · exact .inr ⟨more, ⟨rest, hbs.symm⟩, hmore⟩

/-- A session wants the bars of the instruments it subscribed to, and of no other. -/
theorem Session.wants_candle {self : Session} {event : Event D} {key : String}
    {candle : Candle D} (h : event.candleIn key = some candle) :
    self.wants event = true ↔ key ∈ subscribedKeys self.subscriptions := by
  obtain ⟨hpayload, rfl⟩ := Event.candleIn_eq_some h
  have hreceive : self.mayReceive event = true := by
    rw [Session.mayReceive, Event.isPrivate, hpayload]
    simp
  rw [Session.wants, hreceive, hpayload, mem_subscribedKeys]
  simp only [Bool.not_true, Bool.false_eq_true, if_false, MarketEvent.symbol, List.any_eq_true,
    decide_eq_true_eq]
  refine exists_congr fun sub => and_congr_right fun _ => ?_
  exact ⟨congrArg Symbol.key, fun hkey => Symbol.key_injective hkey⟩

section

variable [LinearOrder D] [Zero D]

/-- The bars of the copy are the fold of the events into bars. -/
theorem FeedState.apply_candles (self : FeedState D) (event : Event D) :
    (self.apply event).candles = foldBars candleDepth self.candles event := by
  rcases event with ⟨ts, market | account | health⟩
  · cases market with
    | bookDelta delta =>
      simp only [apply]
      split_ifs <;> rfl
    | _ => rfl
  · rfl
  · cases health <;> rfl

end

namespace Fanout

variable {s : Fanout D} {first : Connector D} {key : String}

/-- The bars of a key that the terminal has still to take. -/
def coming (key : String) (s : Fanout D) : List (Candle D) :=
  (events s.wire ++
    match s.session with
    | some session => s.pending.filter session.wants
    | none => []).filterMap (Event.candleIn key)

/-- The bars of a key among events that a session wants: all of them, or none. -/
theorem filterMap_wants (session : Session) (key : String) (waiting : List (Event D)) :
    (waiting.filter session.wants).filterMap (Event.candleIn key) =
      if key ∈ subscribedKeys session.subscriptions then waiting.filterMap (Event.candleIn key)
      else [] := by
  induction waiting with
  | nil => split_ifs <;> rfl
  | cons event waiting ih =>
    cases hcandle : event.candleIn key with
    | none =>
      rw [List.filterMap_cons_none hcandle, ← ih, List.filter_cons]
      split_ifs
      · rw [List.filterMap_cons_none hcandle]
      · rfl
    | some candle =>
      rw [List.filterMap_cons_some hcandle, List.filter_cons]
      by_cases hkey : key ∈ subscribedKeys session.subscriptions
      · rw [if_pos ((Session.wants_candle hcandle).mpr hkey), List.filterMap_cons_some hcandle, ih,
          if_pos hkey, if_pos hkey]
      · rw [if_neg (mt (Session.wants_candle hcandle).mp hkey), ih, if_neg hkey, if_neg hkey]

section

variable [LinearOrder D] [Zero D] [Add D]

/-- The read-model's bars are those of the events folded so far. -/
theorem Pumped.candles_eq (h : Pumped first s) (key : String) :
    s.state.candles key =
      (s.folded.filterMap (Event.candleIn key)).foldl (foldBar history) [] := by
  rw [h.state_eq, MarketState.foldl_apply_candles, foldl_foldBars_apply]
  rfl

theorem Pumped.seriesOf (h : Pumped first s) (key : String) :
    SeriesOf history (s.folded.filterMap (Event.candleIn key)) (s.state.candles key) := by
  rw [h.candles_eq]
  exact seriesOf_foldl history _

/-- The read-model's bars are filed under their own keys. -/
theorem Pumped.filed_candles (h : Pumped first s) (key : String) :
    ∀ candle ∈ s.state.candles key, candle.symbol.key = key := fun candle hmem => by
  obtain ⟨event, -, hevent⟩ := List.mem_filterMap.mp ((h.seriesOf key).subset hmem)
  exact (Event.candleIn_eq_some hevent).2

/-- What a hand-over contains of a key: the read-model's bars, if the key is subscribed to. -/
theorem Pumped.candles_handOver (h : Pumped first s) (subs : List Subscription)
    (now : Timestamp) (key : String) :
    (handOver s.state subs now).filterMap (Event.candleIn key) =
      if key ∈ subscribedKeys subs then s.state.candles key else [] := by
  have htrades : ((s.state.tapeFor subs).map fun trade =>
      Event.market now (.trade trade)).filterMap (Event.candleIn key) = [] := by
    simp [Event.candleIn]
  have hbooks : ((s.state.snapshotsFor subs).map fun book =>
      Event.market now (.bookSnapshot book)).filterMap (Event.candleIn key) = [] := by
    simp [Event.candleIn]
  have hcandles : ∀ candles : List (Candle D),
      (candles.map fun candle => Event.market now (.candle candle)).filterMap
          (Event.candleIn key) =
        candles.filter fun candle => candle.symbol.key = key := by
    intro candles
    rw [List.filterMap_map, ← List.filterMap_eq_filter]
    refine List.filterMap_congr fun candle _ => ?_
    by_cases hkey : candle.symbol.key = key <;>
      simp [Event.candleIn, Option.guard, hkey]
  rw [handOver, List.filterMap_append, List.filterMap_append, htrades, hbooks, hcandles,
    List.nil_append, List.append_nil, MarketState.candlesFor]
  exact filter_flatMap_filed (fun k => h.filed_candles k) (nodup_subscribedKeys subs) key

private theorem history_pos : 0 < history := by decide

/-! ### The invariant -/

/-- The terminal is behind the read-model's bars of the key, whatever part of what is coming it has
taken, and has caught up once it has taken it all. -/
structure Charted (key : String) (s : Fanout D) : Prop where
  behind : ∀ seen, seen <+: s.coming key →
    Behind (s.state.candles key) (seen.foldl (foldBar candleDepth) (s.feed.candles key))
  caughtUp : ∀ session, s.session = some session →
    key ∈ subscribedKeys session.subscriptions →
      EndsWith (s.state.candles key)
        ((s.coming key).foldl (foldBar candleDepth) (s.feed.candles key))

omit [LinearOrder D] [Zero D] [Add D] in
theorem charted_start (bucketing : Bucketing) (capacity : ℕ) (cooldownMs : ℤ) (key : String) :
    Charted key (start bucketing capacity cooldownMs : Fanout D) where
  behind seen hseen := by
    rw [List.prefix_nil.mp hseen]
    exact .nil
  caughtUp session hsession := by cases hsession

omit [LinearOrder D] [Zero D] [Add D] in
/-- What is coming, and what it is coming to, decide. -/
theorem Charted.congr {t : Fanout D} (h : Charted key s)
    (hstate : t.state.candles key = s.state.candles key)
    (hfeed : t.feed.candles key = s.feed.candles key)
    (hsession : t.session = s.session) (hcoming : t.coming key = s.coming key) :
    Charted key t where
  behind seen hseen := by
    rw [hstate, hfeed]
    exact h.behind seen (hcoming ▸ hseen)
  caughtUp session hopen hkey := by
    rw [hstate, hfeed, hcoming]
    exact h.caughtUp session (hsession ▸ hopen) hkey

omit [LinearOrder D] [Zero D] [Add D] in
/-- With nobody subscribed it is enough to have received less. -/
theorem Charted.cut {t : Fanout D} (h : Charted key s) (hstate : t.state = s.state)
    (hfeed : t.feed.candles key = s.feed.candles key)
    (hsession : ∀ session, t.session = some session →
      key ∉ subscribedKeys session.subscriptions)
    (hcoming : t.coming key <+: s.coming key) : Charted key t where
  behind seen hseen := by
    rw [hstate, hfeed]
    exact h.behind seen (hseen.trans hcoming)
  caughtUp session hopen hkey := absurd hkey (hsession session hopen)

omit [LinearOrder D] [Zero D] [Add D] in
/-- The bars coming to a session: those sent, and those waiting that it wants. -/
theorem coming_of_session {session : Session} (h : s.session = some session) :
    s.coming key = (events s.wire).filterMap (Event.candleIn key) ++
      if key ∈ subscribedKeys session.subscriptions then
        s.pending.filterMap (Event.candleIn key) else [] := by
  rw [coming, h, List.filterMap_append, ← filterMap_wants]

omit [LinearOrder D] [Zero D] [Add D] in
theorem coming_of_none (h : s.session = none) :
    s.coming key = (events s.wire).filterMap (Event.candleIn key) := by
  rw [coming, h, List.append_nil]

omit [LinearOrder D] [Zero D] [Add D] in
/-- Nothing comes to a terminal that has not subscribed and has nothing on its socket. -/
theorem coming_eq_nil (hwire : s.wire = [])
    (hsession : ∀ session, s.session = some session →
      key ∉ subscribedKeys session.subscriptions) : s.coming key = [] := by
  rcases hopen : s.session with - | session
  · rw [coming_of_none hopen, hwire]
    rfl
  · rw [coming_of_session hopen, if_neg (hsession session hopen), hwire]
    rfl

/-- A message is answered: the read-model's bars come before what is still waiting, which they
already contain. -/
theorem Charted.answer (h : Charted key s) (hpumped : Pumped first s) {session after : Session}
    (hsession : s.session = some session) {reply : ServerMsg D}
    (hreply : ∀ event, reply ≠ .event event) (now : Timestamp) :
    Charted key
      { s with
        session := some after
        wire := s.wire ++ reply :: (handOver s.state after.subscriptions now).map .event } := by
  set bars := s.state.candles key with hbars
  set sent := (events s.wire).filterMap (Event.candleIn key) with hsent
  have hseries := hpumped.seriesOf key
  have hlen : bars.length ≤ candleDepth := hseries.length_le.trans (by decide)
  -- before the hand-over, the terminal has taken some of what had been sent
  have hbefore : ∀ seen, seen <+: sent →
      Behind bars (seen.foldl (foldBar candleDepth) (s.feed.candles key)) := fun seen hseen =>
    h.behind seen (hseen.trans (by
      rw [coming_of_session hsession]
      exact List.prefix_append _ _))
  have hcoming : coming key
      { s with
        session := some after
        wire := s.wire ++ reply :: (handOver s.state after.subscriptions now).map .event } =
      sent ++ if key ∈ subscribedKeys after.subscriptions then
        bars ++ s.pending.filterMap (Event.candleIn key) else [] := by
    rw [coming_of_session rfl]
    simp only [events_append, events_reply hreply, events_map_event, List.filterMap_append,
      hpumped.candles_handOver, ← hsent, ← hbars]
    split_ifs
    · rw [List.append_assoc]
      rfl
    · rw [List.append_nil]
  by_cases hkey : key ∈ subscribedKeys after.subscriptions
  · rw [if_pos hkey] at hcoming
    have hcaught := (hbefore sent List.prefix_rfl).catchUp hseries.inTime hlen
    obtain ⟨gone, hgone⟩ := hpumped.pending
    have hfolded : (gone.filterMap (Event.candleIn key) ++
        s.pending.filterMap (Event.candleIn key)).foldl (foldBar history) [] = bars := by
      rw [← List.filterMap_append, ← hgone, hbars, hpumped.candles_eq]
    obtain ⟨hagain, hsame⟩ := @EndsWith.again D candleDepth _ _ history hcaught history_pos _ _
      hfolded
    constructor
    · intro seen hseen
      rw [hcoming] at hseen
      rcases prefix_append_cases hseen with hold | ⟨more, hmore, rfl⟩
      · exact hbefore seen hold
      · rw [List.foldl_append]
        rcases prefix_append_cases hmore with hhanded | ⟨queued, hqueued, rfl⟩
        · exact (hbefore sent List.prefix_rfl).handing hseries.inTime hlen hhanded
        · rw [List.foldl_append]
          exact hagain queued hqueued
    · intro session' _ _
      rw [hcoming, List.foldl_append, List.foldl_append, hsame]
      exact hcaught
  · rw [if_neg hkey, List.append_nil] at hcoming
    constructor
    · intro seen hseen
      exact hbefore seen (hcoming ▸ hseen)
    · intro session' hopen hkey'
      obtain rfl := Option.some.inj hopen
      exact absurd hkey' hkey

/-- The pump folds an event: the bar it may carry is the newest of the read-model, and the last one
to come to the terminal. -/
theorem Charted.pump (h : Charted key s) (hpumped : Pumped first s) {event : Event D}
    {channel : List (Event D)} (hheld : s.held = none) :
    Charted key
      { s with
        channel := channel
        state := s.state.apply event
        held := some event
        folded := s.folded ++ [event] } := by
  set t : Fanout D :=
    { s with
      channel := channel
      state := s.state.apply event
      held := some event
      folded := s.folded ++ [event] } with ht
  have hbars : t.state.candles key =
      ((event.candleIn key).toList).foldl (foldBar history) (s.state.candles key) := by
    rw [ht, MarketState.apply_candles, foldBars_apply]
  have hpending : t.pending = s.pending ++ [event] := by
    simp only [ht, Fanout.pending, hheld, Option.toList_some, Option.toList_none, List.append_nil]
  have hcoming : ∀ session, s.session = some session →
      t.coming key = s.coming key ++
        if key ∈ subscribedKeys session.subscriptions then (event.candleIn key).toList else [] := by
    intro session hsession
    have hwire : t.wire = s.wire := rfl
    rw [coming_of_session (s := t) hsession, coming_of_session hsession, hpending, hwire]
    split_ifs
    · rw [List.filterMap_append, List.append_assoc, List.filterMap_cons, List.filterMap_nil]
      cases event.candleIn key <;> rfl
    · simp only [List.append_nil]
  have hnone : s.session = none → t.coming key = s.coming key := fun hsession => by
    rw [coming_of_none (s := t) hsession, coming_of_none hsession]
  cases hcandle : event.candleIn key with
  | none =>
    rw [hcandle] at hbars hcoming
    refine h.congr hbars rfl rfl ?_
    rcases hsession : s.session with - | session
    · exact hnone hsession
    · rw [hcoming session hsession]
      split_ifs <;> exact List.append_nil _
  | some candle =>
    rw [hcandle, Option.toList_some] at hbars hcoming
    rw [List.foldl_cons, List.foldl_nil] at hbars
    have htime := (hpumped.seriesOf key).inTime
    have hold : ∀ seen, seen <+: s.coming key →
        Behind (t.state.candles key) (seen.foldl (foldBar candleDepth) (s.feed.candles key)) :=
      fun seen hseen => by
        rw [hbars]
        exact (h.behind seen hseen).fold htime history_pos candle
    have hnew : ∀ session, s.session = some session →
        key ∈ subscribedKeys session.subscriptions →
          EndsWith (t.state.candles key)
            ((s.coming key ++ [candle]).foldl (foldBar candleDepth) (s.feed.candles key)) := by
      intro session hsession hkey
      rw [hbars, List.foldl_append]
      exact (h.caughtUp session hsession hkey).fold history_pos (by decide) candle
    constructor
    · intro seen hseen
      rcases hsession : s.session with - | session
      · exact hold seen (hnone hsession ▸ hseen)
      · rw [hcoming session hsession] at hseen
        split_ifs at hseen with hkey
        · rcases List.prefix_concat_iff.mp hseen with rfl | hbefore
          · exact (hnew session hsession hkey).behind
          · exact hold seen hbefore
        · exact hold seen (by rwa [List.append_nil] at hseen)
    · intro session hsession hkey
      rw [hcoming session hsession, if_pos hkey]
      exact hnew session hsession hkey

omit [Add D] in
/-- The terminal takes an event. -/
theorem Charted.receive (h : Charted key s) {event : Event D} {wire : List (ServerMsg D)}
    (hwire : s.wire = .event event :: wire) :
    Charted key { s with wire := wire, feed := s.feed.apply event } := by
  set t : Fanout D := { s with wire := wire, feed := s.feed.apply event } with ht
  have hcoming : s.coming key = (event.candleIn key).toList ++ t.coming key := by
    have hevents : events s.wire = event :: events wire := by
      rw [hwire]
      rfl
    rw [coming, coming, hevents, List.cons_append, List.filterMap_cons]
    cases event.candleIn key <;> rfl
  have hfeed : ∀ seen : List (Candle D),
      seen.foldl (foldBar candleDepth) (t.feed.candles key) =
        ((event.candleIn key).toList ++ seen).foldl (foldBar candleDepth)
          (s.feed.candles key) := fun seen => by
    rw [List.foldl_append, ht, FeedState.apply_candles, foldBars_apply]
  constructor
  · intro seen hseen
    rw [hfeed]
    exact h.behind _ (hcoming ▸ (List.prefix_append_right_inj _).mpr hseen)
  · intro session hsession hkey
    rw [hfeed, ← hcoming]
    exact h.caughtUp session hsession hkey

/-- One move that is no lag. -/
theorem Charted.next (h : Charted key s) (hpumped : Pumped first s) (auth : Auth)
    {move : Move D} (hmove : move.isLag = false) :
    Charted key ((machine auth).next s move) := by
  refine next_of_steps fun after hsteps => ?_
  -- both ends of a connection are gone, and a new session has no subscriptions yet
  have hgone : ∀ t : Fanout D, t.state = s.state → t.feed.candles = s.feed.candles →
      t.wire = [] → (∀ session, t.session = some session → session.subscriptions = []) →
        Charted key t := by
    intro t hstate hfeed hwire hsession
    have hnone : ∀ session, t.session = some session →
        key ∉ subscribedKeys session.subscriptions := fun session hopen => by
      rw [hsession session hopen]
      simp
    refine h.cut hstate (congrFun hfeed key) hnone ?_
    rw [coming_eq_nil hwire hnone]
    exact List.nil_prefix
  cases hsteps with
  | rest => exact h
  | venue input => exact h.congr rfl rfl rfl rfl
  | fold hheld hchannel => exact h.pump hpumped hheld
  | @broadcast event session hheld hsession =>
    refine h.congr rfl rfl rfl ?_
    simp only [coming, Fanout.pending, hheld, Option.toList_some, Option.toList_none,
      List.append_nil]
  | unheard hheld hsession =>
    refine h.congr rfl rfl rfl ?_
    simp only [coming, hsession]
  | connect =>
    refine hgone _ rfl rfl rfl fun session hsession => ?_
    rw [← Option.some.inj hsession]
    rfl
  | @answer session after msg reply hsession hreceive hreply now =>
    exact h.answer hpumped hsession hreply now
  | @close session msg reply hsession hreply now =>
    refine h.cut rfl rfl (by simp) ?_
    rw [coming_of_none rfl, coming_of_session hsession, events_append, events_reply hreply]
    simp only [events, List.filterMap_nil, List.append_nil]
    exact List.prefix_append _ _
  | @stream session event queue hsession hqueue hwants =>
    refine h.congr rfl rfl rfl ?_
    simp only [coming, hsession, Fanout.pending, hqueue, events_append, List.cons_append,
      List.filter_cons, hwants, if_true, List.append_assoc]
    rfl
  | @skip session event queue hsession hqueue hwants =>
    refine h.congr rfl rfl rfl ?_
    simp [coming, hsession, Fanout.pending, hqueue, hwants]
  | lag => cases hmove
  | receive hwire => exact h.receive hwire
  | refused hwire => exact hgone _ rfl rfl rfl (by simp [hangUp])
  | @ignore msg wire hwire hmsg =>
    refine h.congr rfl rfl rfl ?_
    simp only [coming, hwire, events_reply hmsg]
    rfl
  | disconnect => exact hgone _ rfl rfl rfl (by simp [hangUp])

/-- A whole run without a lag. -/
theorem charted_run (auth : Auth) (bucketing : Bucketing) (capacity : ℕ) (cooldownMs : ℤ)
    (key : String) {moves : List (Move D)} (hmoves : ∀ move ∈ moves, move.isLag = false) :
    Charted key ((machine auth).run (start bucketing capacity cooldownMs) moves) := by
  induction moves using List.reverseRecOn with
  | nil => exact charted_start bucketing capacity cooldownMs key
  | append_singleton moves move ih =>
    rw [Machine.run_concat]
    refine Charted.next (ih fun m hm => hmoves m (List.mem_append_left _ hm))
      (pumped_run auth bucketing capacity cooldownMs moves) auth ?_
    exact hmoves move (List.mem_append_right _ (List.mem_singleton_self move))

end

end Fanout

namespace Hub

variable {ι : Type*} [DecidableEq ι] [LinearOrder D] [Zero D] [Add D]

/-- **The chart.** In every run of the core with any number of terminals, a terminal that never
lags is behind the read-model's bars of every instrument at every moment, over any number of
connections: nothing it shows before its last bar is missing or out of date. Once nothing is on the
way to it, the last bars it shows of an instrument it subscribes to are the read-model's. -/
theorem chart (auth : Auth) (bucketing : Bucketing) (capacity : ℕ) (cooldownMs : ℤ)
    (moves : List (HubMove ι D)) (i : ι)
    (hlag : ∀ missed now, .terminal i (.lag missed now) ∉ moves) (symbol : Symbol) :
    let h := (machine ι auth).run (start ι bucketing capacity cooldownMs) moves
    Behind (h.state.candles symbol.key) ((h.terminals i).feed.candles symbol.key) ∧
      (h.Settled i → ∀ session, (h.terminals i).session = some session →
        (∃ sub ∈ session.subscriptions, sub.symbol = symbol) →
          h.state.candles symbol.key <:+ (h.terminals i).feed.candles symbol.key) := by
  intro h
  have hview : h.view i = _ := view_run auth i (start ι bucketing capacity cooldownMs) moves
  have hmoves : ∀ move ∈ moves.filterMap (own i), move.isLag = false := fun move hmove => by
    obtain ⟨hubMove, hmem, hown⟩ := List.mem_filterMap.mp hmove
    cases hubMove with
    | terminal j own =>
      obtain ⟨rfl, rfl⟩ : j = i ∧ own.alone = move := by simpa [Hub.own] using hown
      cases own with
      | lag missed now => exact absurd hmem (hlag missed now)
      | _ => rfl
    | _ =>
      obtain rfl := Option.some.inj hown
      rfl
  have hcharted : Fanout.Charted symbol.key (h.view i) := by
    rw [hview]
    exact Fanout.charted_run auth bucketing capacity cooldownMs symbol.key hmoves
  refine ⟨hcharted.behind [] List.nil_prefix, ?_⟩
  rintro ⟨hwire, hqueue, hheld⟩ session hsession ⟨sub, hsub, rfl⟩
  have hkey : sub.symbol.key ∈ subscribedKeys session.subscriptions :=
    mem_subscribedKeys.mpr ⟨sub, hsub, rfl⟩
  have hnothing : (h.view i).coming sub.symbol.key = [] := by
    simp [Fanout.coming, view, hsession, Fanout.pending, hwire, hqueue, hheld, Fanout.events]
  have hcaught := hcharted.caughtUp session hsession hkey
  rw [hnothing] at hcaught
  exact hcaught.suffix

/-- What reaches a terminal that says hello and subscribes. -/
private def joining (received : ℕ) : List (HubMove Unit ℤ) :=
  [.terminal () .connect, .terminal () (.client (.ok (.hello 2 "t")) 7),
    .terminal () (.client (.ok (.subscribe [.trades btcusdt])) 8)] ++
    List.replicate received (.terminal () .receive)

/-- A print, and the pump's work on the events it makes. -/
private def printed (id events : ℕ) : List (HubMove Unit ℤ) :=
  .venue (.trade ⟨btcusdt, 100, 1, .buy, id, id⟩ id) ::
    (List.replicate events [.fold, .broadcast, .terminal () .stream, .terminal () .receive]).flatten

/-- One bar is handed over, one is streamed, and one opens while the terminal is away. -/
private def threeBars : List (HubMove Unit ℤ) :=
  printed 1 2 ++ joining 4 ++ printed 2 3 ++ [.terminal () .disconnect] ++ printed 3 3 ++ joining 8

/-- The terminal ends up with the read-model's three bars. -/
theorem chart_threeBars :
    let h := (machine Unit ⟨"t"⟩).run (start Unit (.ticks 1) 1200 1000) threeBars
    (h.state.candles btcusdt.key).length = 3 ∧
      h.state.candles btcusdt.key <:+ (h.terminals ()).feed.candles btcusdt.key := by
  intro h
  have hlag : ∀ missed now, HubMove.terminal () (.lag missed now) ∉ threeBars := by
    simp [threeBars, printed, joining]
  have hsettled : (h.terminals ()).wire = [] ∧ (h.terminals ()).queue = [] ∧ h.held = none := by
    decide +kernel
  have hsession : (h.terminals ()).session = some ⟨true, [.trades btcusdt]⟩ := by decide +kernel
  obtain ⟨-, hchart⟩ := chart ⟨"t"⟩ (.ticks 1) 1200 1000 threeBars () hlag btcusdt
  exact ⟨by decide +kernel,
    hchart hsettled _ hsession ⟨.trades btcusdt, List.mem_singleton_self _, rfl⟩⟩

end Hub

end MoonCore
