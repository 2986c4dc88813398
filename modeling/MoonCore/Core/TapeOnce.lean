import Mathlib.Data.Int.Order.Basic
import Mathlib.Data.List.Nodup
import MoonCore.Core.Fanout

/-!
# A print on the tape, once

The terminal's tape survives a reconnect, and prints reach it twice over: in the history handed
over after every message, and live. Nothing on the way compares ids. `Fanout.HandsOverNew` says
that a hand-over repeats none of the prints the terminal has or is about to get, and while that
is so no tape holds an id twice.
-/

namespace MoonCore

variable {D : Type*}

/-- The venue's ids of the prints some events carry for a key. -/
def printIds (key : String) (events : List (Event D)) : List ℕ :=
  (events.filterMap (Event.tradeIn key)).map PublicTrade.id

theorem printIds_append (key : String) (events later : List (Event D)) :
    printIds key (events ++ later) = printIds key events ++ printIds key later := by
  rw [printIds, List.filterMap_append, List.map_append]
  rfl

/-- A sublist of the events carries a sublist of the prints. -/
theorem printIds_sublist (key : String) {events later : List (Event D)}
    (h : events.Sublist later) : (printIds key events).Sublist (printIds key later) :=
  (h.filterMap _).map _

namespace Fanout

/-- The prints a message of the terminal makes the session hand over. -/
def handed (auth : Auth) (s : Fanout D) : Move D → List (PublicTrade D)
  | .client msg _ =>
    match s.session with
    | some session =>
      let (after, reaction) : Session × Reaction D := session.receive auth msg
      if reaction.close then [] else s.state.tapeFor after.subscriptions
    | none => []
  | _ => []

/-- What the terminal has still to receive, unless the connection drops it. -/
def onWay (s : Fanout D) : List (Event D) := events s.wire ++ s.pending

/-- The ids on the terminal's tape. -/
def tapeIds (s : Fanout D) (key : String) : List ℕ := (s.feed.tape key).map PublicTrade.id

/-- A hand-over repeats no print the terminal has or is about to get. -/
def HandsOverNew (auth : Auth) (s : Fanout D) (move : Move D) : Prop :=
  ∀ trade ∈ s.handed auth move,
    trade.id ∉ s.tapeIds trade.symbol.key ++ printIds trade.symbol.key s.onWay

instance (auth : Auth) (s : Fanout D) (move : Move D) : Decidable (HandsOverNew auth s move) := by
  unfold HandsOverNew
  infer_instance

end Fanout

/-- The print the venue delivers with a move. -/
def Move.delivered : Move D → Option (Symbol × ℕ)
  | .venue (.trade trade _) => some (trade.symbol, trade.id)
  | _ => none

/-! ### What is handed over -/

theorem printIds_cons (key : String) (event : Event D) (events : List (Event D)) :
    printIds key (event :: events) =
      (event.tradeIn key).toList.map PublicTrade.id ++ printIds key events := by
  rw [printIds, printIds, List.filterMap_cons]
  cases event.tradeIn key <;> rfl

theorem tradeIn_eq_some {event : Event D} {key : String} {trade : PublicTrade D}
    (h : event.tradeIn key = some trade) : trade.symbol.key = key := by
  obtain ⟨ts, market | account | health⟩ := event
  · cases market with
    | trade trade' =>
      simp only [Event.tradeIn] at h
      split_ifs at h with hkey
      rw [← Option.some.inj h]
      exact hkey
    | _ => cases h
  · cases h
  · cases h

/-- The prints of a key among those handed over. -/
theorem printIds_handOver (state : MarketState D) (subs : List Subscription) (now : Timestamp)
    (key : String) :
    printIds key (handOver state subs now) =
      ((state.tapeFor subs).filter fun trade => trade.symbol.key = key).map PublicTrade.id := by
  have hcandles : printIds key ((state.candlesFor subs).map fun candle =>
      Event.market now (.candle candle)) = [] := by
    simp [printIds, Event.tradeIn]
  have hbooks : printIds key ((state.snapshotsFor subs).map fun book =>
      Event.market now (.bookSnapshot book)) = [] := by
    simp [printIds, Event.tradeIn]
  have htrades : ∀ trades : List (PublicTrade D),
      printIds key (trades.map fun trade => Event.market now (.trade trade)) =
        (trades.filter fun trade => trade.symbol.key = key).map PublicTrade.id := by
    intro trades
    induction trades with
    | nil => rfl
    | cons trade trades ih =>
      rw [List.map_cons, printIds_cons, ih]
      by_cases hkey : trade.symbol.key = key <;> simp [Event.tradeIn, hkey]
  rw [handOver, printIds_append, printIds_append, hcandles, hbooks, List.append_nil,
    List.append_nil, htrades]

/-- Where every print is filed under its own key, those of one key are handed over once. -/
theorem filter_flatMap_sublist {tape : String → List (PublicTrade D)}
    (hfiled : ∀ key, ∀ trade ∈ tape key, trade.symbol.key = key) {keys : List String}
    (hkeys : keys.Nodup) (key : String) :
    ((keys.flatMap tape).filter fun trade => trade.symbol.key = key).Sublist (tape key) := by
  induction keys with
  | nil => exact List.nil_sublist _
  | cons first keys ih =>
    obtain ⟨hfirst, hkeys⟩ := List.nodup_cons.mp hkeys
    rw [List.flatMap_cons, List.filter_append]
    by_cases hkey : first = key
    · subst hkey
      have hrest : (keys.flatMap tape).filter (fun trade => trade.symbol.key = first) = [] := by
        refine List.filter_eq_nil_iff.mpr fun trade hmem hsame => ?_
        obtain ⟨other, hother, htrade⟩ := List.mem_flatMap.mp hmem
        rw [decide_eq_true_eq, hfiled other trade htrade] at hsame
        exact hfirst (hsame ▸ hother)
      rw [hrest, List.append_nil]
      exact List.filter_sublist
    · have hnone : (tape first).filter (fun trade => trade.symbol.key = key) = [] := by
        refine List.filter_eq_nil_iff.mpr fun trade htrade hsame => hkey ?_
        rw [decide_eq_true_eq, hfiled first trade htrade] at hsame
        exact hsame
      rw [hnone, List.nil_append]
      exact ih hkeys

namespace Fanout

variable [LinearOrder D] [Zero D] [Add D] {s : Fanout D} {first : Connector D}

/-- The read-model's tape is filed by key. -/
theorem Pumped.tape_filed (h : Pumped first s) (key : String) (trade : PublicTrade D)
    (htrade : trade ∈ s.state.tape key) : trade.symbol.key = key := by
  rw [h.state_eq, MarketState.foldl_apply_tape] at htrade
  obtain ⟨event, -, hevent⟩ := List.mem_filterMap.mp (rtake_subset htrade)
  exact tradeIn_eq_some hevent

/-- A hand-over repeats prints the pump has folded, none of them twice. -/
theorem Pumped.printIds_handOver_sublist (h : Pumped first s) (subs : List Subscription)
    (now : Timestamp) (key : String) :
    (printIds key (handOver s.state subs now)).Sublist (printIds key s.folded) := by
  have htape : (s.state.tape key).Sublist (s.folded.filterMap (Event.tradeIn key)) := by
    rw [h.state_eq, MarketState.foldl_apply_tape]
    exact (rtake_suffix _ _).sublist
  rw [printIds_handOver]
  exact ((filter_flatMap_sublist h.tape_filed (nodup_subscribedKeys subs) key).trans htape).map _

/-! ### What the terminal has or is about to get -/

/-- The ids of a key on the terminal's tape and on the way to it. -/
def carried (s : Fanout D) (key : String) : List ℕ := s.tapeIds key ++ printIds key s.onWay

/-- The terminal has, or will get, each id once, and only ids the pump has folded. -/
structure Once (s : Fanout D) : Prop where
  nodup : ∀ key, (s.carried key).Nodup
  past : ∀ key, s.carried key ⊆ printIds key s.folded

omit [LinearOrder D] [Zero D] [Add D] in
/-- Losing prints, or reordering them, repeats none. -/
theorem Once.of_subperm (h : Once s) {after : Fanout D} (hfolded : after.folded = s.folded)
    (hless : ∀ key, (after.carried key).Subperm (s.carried key)) : Once after := by
  refine ⟨fun key => ?_, fun key => ?_⟩
  · obtain ⟨kept, hperm, hsub⟩ := hless key
    exact hperm.nodup_iff.mp ((h.nodup key).sublist hsub)
  · rw [hfolded]
    exact fun id hid => h.past key ((hless key).subset hid)

omit [LinearOrder D] [Zero D] [Add D] in
/-- Losing events on the way repeats no print. -/
theorem Once.of_sublist (h : Once s) {after : Fanout D} (hfolded : after.folded = s.folded)
    (htape : after.feed.tape = s.feed.tape) (hless : after.onWay.Sublist s.onWay) :
    Once after := by
  refine h.of_subperm hfolded fun key => List.Sublist.subperm ?_
  rw [carried, carried, tapeIds, tapeIds, htape]
  exact (printIds_sublist key hless).append_left _

omit [Add D] in
/-- A print the terminal takes moves from the socket to its tape. -/
theorem Once.receive (h : Once s) {event : Event D} {wire : List (ServerMsg D)}
    (hwire : s.wire = .event event :: wire) :
    Once { s with wire := wire, feed := s.feed.apply event } := by
  refine h.of_subperm rfl fun key => ?_
  have hway : printIds key s.onWay =
      (event.tradeIn key).toList.map PublicTrade.id ++ printIds key (events wire ++ s.pending) := by
    rw [onWay, hwire]
    exact printIds_cons key event (events wire ++ s.pending)
  rw [carried, carried, hway, tapeIds, tapeIds, FeedState.apply_tape]
  cases event.tradeIn key with
  | none => exact List.Subperm.refl _
  | some trade =>
    have htake : (((trade :: s.feed.tape key).take tapeDepth).map PublicTrade.id).Sublist
        (trade.id :: (s.feed.tape key).map PublicTrade.id) :=
      (List.take_sublist _ _).map _
    refine (htake.append_right _).subperm.trans ?_
    exact List.perm_middle.symm.subperm

omit [Add D] in
/-- What the pump folds is new to the terminal. -/
theorem Once.fold (h : Once s) {event : Event D} {channel : List (Event D)}
    (hheld : s.held = none) (hchannel : s.channel = event :: channel)
    (honce : ∀ key, (printIds key (s.folded ++ s.channel)).Nodup) :
    Once { s with
      channel := channel
      state := s.state.apply event
      held := some event
      folded := s.folded ++ [event] } := by
  have hcarried : ∀ key, carried { s with
      channel := channel
      state := s.state.apply event
      held := some event
      folded := s.folded ++ [event] } key = s.carried key ++ printIds key [event] := by
    intro key
    rw [carried, carried, List.append_assoc, onWay, onWay, ← printIds_append, pending, pending,
      hheld, List.append_assoc, Option.toList_none, List.append_nil]
    rfl
  constructor
  · intro key
    have hall := honce key
    rw [hchannel, printIds_append, ← List.singleton_append, printIds_append] at hall
    obtain ⟨-, hnew, hapart⟩ := List.nodup_append'.mp hall
    rw [hcarried]
    refine List.nodup_append'.mpr ⟨h.nodup key, (List.nodup_append'.mp hnew).1, ?_⟩
    exact fun id hid hmem => hapart (h.past key hid) (List.mem_append_left _ hmem)
  · intro key
    rw [hcarried]
    change _ ⊆ printIds key (s.folded ++ [event])
    rw [printIds_append]
    exact List.append_subset.mpr ⟨fun id hid => List.mem_append_left _ (h.past key hid),
      List.subset_append_right _ _⟩

/-- What a session hands over is new to the terminal. -/
theorem Once.answer (h : Once s) (hpumped : Pumped first s)
    (honce : ∀ key, (printIds key (s.folded ++ s.channel)).Nodup) (after : Session)
    {reply : ServerMsg D} (hreply : ∀ event, reply ≠ .event event) (now : Timestamp)
    (hnew : ∀ trade ∈ s.state.tapeFor after.subscriptions,
      trade.id ∉ s.carried trade.symbol.key) :
    Once { s with
      session := some after
      wire := s.wire ++ reply ::
        (handOver s.state after.subscriptions now).map .event } := by
  have hcarried : ∀ key, (carried { s with
      session := some after
      wire := s.wire ++ reply ::
        (handOver s.state after.subscriptions now).map .event } key).Perm
      (s.carried key ++ printIds key (handOver s.state after.subscriptions now)) := by
    intro key
    rw [carried, carried, onWay, onWay, events_append, events_reply hreply, events_map_event,
      printIds_append, printIds_append, printIds_append, List.append_assoc, List.append_assoc,
      List.append_assoc]
    exact List.Perm.append_left _ (List.Perm.append_left _ List.perm_append_comm)
  have hhanded := hpumped.printIds_handOver_sublist after.subscriptions now
  constructor
  · intro key
    rw [(hcarried key).nodup_iff]
    have hfolded := honce key
    rw [printIds_append] at hfolded
    refine List.nodup_append'.mpr
      ⟨h.nodup key, (List.nodup_append'.mp hfolded).1.sublist (hhanded key), ?_⟩
    intro id hid hmem
    rw [printIds_handOver] at hmem
    obtain ⟨trade, htrade, rfl⟩ := List.mem_map.mp hmem
    obtain ⟨hserved, hkey⟩ := List.mem_filter.mp htrade
    rw [decide_eq_true_eq] at hkey
    exact hnew trade hserved (hkey ▸ hid)
  · intro key id hid
    rcases List.mem_append.mp ((hcarried key).subset hid) with hold | hmem
    · exact h.past key hold
    · exact (hhanded key).subset hmem

theorem Once.next (h : Once s) (hpumped : Pumped first s) {auth : Auth} {move : Move D}
    (honce : ∀ key, (printIds key (s.folded ++ s.channel)).Nodup)
    (hnew : HandsOverNew auth s move) : Once ((machine auth).next s move) := by
  refine next_of_steps fun after hsteps => ?_
  -- a dead socket takes everything with it but what the pump holds
  have hhung : s.held.toList.Sublist s.onWay :=
    (List.sublist_append_right _ _).trans (List.sublist_append_right _ _)
  cases hsteps with
  | fold hheld hchannel => exact h.fold hheld hchannel honce
  | @answer session after' msg reply hsession hreceive hreply now =>
    refine h.answer hpumped honce after' hreply now fun trade htrade => hnew trade ?_
    simp only [handed, hsession, hreceive, Bool.false_eq_true, if_false]
    exact htrade
  | receive hwire => exact h.receive hwire
  | broadcast hheld hsession =>
    refine h.of_sublist rfl rfl ?_
    simp only [onWay, pending, hheld, Option.toList_some, Option.toList_none, List.append_nil,
      List.Sublist.refl]
  | unheard hheld hnone =>
    refine h.of_sublist rfl rfl ?_
    simp only [onWay, pending, Option.toList_none, List.append_nil]
    exact List.sublist_append_left _ _
  | @close session msg reply hsession hreply now =>
    have hsame : events (s.wire ++ [reply]) = events s.wire := by
      rw [events_append, events_reply hreply]
      exact List.append_nil _
    refine h.of_sublist rfl rfl ?_
    rw [onWay, hsame, onWay, pending, pending]
    exact (List.sublist_append_right _ _).append_left _
  | stream hsession hqueue hwants =>
    refine h.of_sublist rfl rfl ?_
    rw [onWay, events_append, onWay, pending, pending, hqueue, List.append_assoc]
    exact List.Sublist.refl _
  | skip hsession hqueue hwants =>
    refine h.of_sublist rfl rfl ?_
    rw [onWay, onWay, pending, pending, hqueue]
    exact (List.sublist_cons_self _ _).append_left _
  | lag hsession missed now =>
    refine h.of_subperm rfl fun key => List.Sublist.subperm ?_
    have hnotice : printIds key (events [ServerMsg.event (lagNotice missed now : Event D)]) = [] :=
      rfl
    rw [carried, carried, onWay, onWay, events_append, printIds_append, printIds_append,
      printIds_append, hnotice, List.append_nil]
    refine List.Sublist.append_left (List.Sublist.append_left (printIds_sublist key ?_) _) _
    exact (List.drop_sublist _ _).append_right _
  | ignore hwire hmsg =>
    refine h.of_sublist rfl rfl ?_
    rw [onWay, onWay, hwire, events_reply hmsg]
    exact List.Sublist.refl _
  | connect => exact h.of_sublist rfl rfl hhung
  | refused => exact h.of_sublist rfl rfl hhung
  | disconnect => exact h.of_sublist rfl rfl hhung
  | _ => exact h.of_subperm rfl fun key => List.Subperm.refl _

omit [LinearOrder D] [Zero D] [Add D] in
theorem once_start (bucketing : Bucketing) (capacity : ℕ) (cooldownMs : ℤ) :
    Once (start bucketing capacity cooldownMs : Fanout D) where
  nodup _ := List.nodup_nil
  past _ := List.nil_subset _

/-! ### Runs -/

omit [LinearOrder D] [Zero D] [Add D] in
theorem printIds_eq_nil {events : List (Event D)}
    (h : ∀ event ∈ events, ∀ trade, event.payload ≠ .market (.trade trade)) (key : String) :
    printIds key events = [] := by
  rw [printIds, List.map_eq_nil_iff, List.filterMap_eq_nil_iff]
  intro event hevent
  have hnone := h event hevent
  obtain ⟨ts, market | account | health⟩ := event
  · cases market with
    | trade trade => exact absurd rfl (hnone trade)
    | _ => rfl
  · rfl
  · rfl

omit [Add D] in
/-- A delta makes the connector publish no print. -/
theorem printIds_onDelta (self : Connector D) (delta : BookDelta D) (now : Timestamp)
    (key : String) : printIds key (self.onDelta delta now).2 = [] := by
  refine printIds_eq_nil (fun event hevent trade htrade => ?_) key
  simp only [Connector.onDelta, List.mem_append] at hevent
  rcases hevent with hbook | hnotice
  · split_ifs at hbook with hattached hforward
    · split at hbook
      · rw [List.mem_singleton.mp hbook] at htrade
        simp at htrade
      · cases hbook
    · rw [List.mem_singleton.mp hbook] at htrade
      simp at htrade
    · cases hbook
  · obtain ⟨health, rfl⟩ := Need.mem_notice hnotice
    simp at htrade

omit [Add D] in
/-- A fetched snapshot makes the connector publish no print. -/
theorem printIds_onFetched (self : Connector D) (snapshot : OrderBook D) (now : Timestamp)
    (key : String) : printIds key (self.onFetched snapshot now).2 = [] := by
  rw [Connector.onFetched]
  rcases self.books.installSnapshot snapshot now with ⟨books, _ | joined⟩ <;> rfl

/-- The connector passes each print on, once, under its key. -/
theorem printIds_step (self : Connector D) (input : Input D) (key : String) :
    printIds key (self.step input).2 =
      ((Move.venue input).delivered.toList.filter fun print => print.1.key = key).map Prod.snd := by
  cases input with
  | trade trade now =>
    have hbars : printIds key ((self.candles.onTrade trade).2.bars.map fun candle =>
        Event.market now (.candle candle)) = [] :=
      printIds_eq_nil (fun event hevent trade htrade => by
        obtain ⟨candle, -, rfl⟩ := List.mem_map.mp hevent
        simp at htrade) key
    simp only [Connector.step, Connector.onTrade, printIds_append, hbars, List.nil_append]
    by_cases hkey : trade.symbol.key = key <;>
      simp [printIds, Event.tradeIn, Move.delivered, hkey]
  | delta delta now => exact printIds_onDelta self delta now key
  | fetched snapshot now => exact printIds_onFetched self snapshot now key
  | _ => rfl

/-- A move publishes what the venue delivers with it. -/
theorem printIds_next (auth : Auth) (s : Fanout D) (move : Move D) (key : String) :
    printIds key (((machine auth).next s move).folded ++ ((machine auth).next s move).channel) =
      printIds key (s.folded ++ s.channel) ++
        (move.delivered.toList.filter fun print => print.1.key = key).map Prod.snd := by
  change printIds key ((s.step auth move).folded ++ (s.step auth move).channel) = _
  have hsteps := steps_step auth s move
  generalize s.step auth move = after at hsteps
  cases hsteps with
  | venue input => rw [← printIds_step s.connector, ← List.append_assoc, printIds_append]
  | fold hheld hchannel =>
    rw [hchannel, List.append_assoc]
    exact (List.append_nil _).symm
  | rest hvenue =>
    have hdelivered : move.delivered = none := by
      cases move with
      | venue input => exact absurd rfl (hvenue input)
      | _ => rfl
    rw [hdelivered]
    exact (List.append_nil _).symm
  | _ => exact (List.append_nil _).symm

/-- What has been published so far are the prints the venue has delivered. -/
theorem printIds_run (auth : Auth) (bucketing : Bucketing) (capacity : ℕ) (cooldownMs : ℤ)
    (moves : List (Move D)) (key : String) :
    let s := (machine auth).run (start bucketing capacity cooldownMs : Fanout D) moves
    printIds key (s.folded ++ s.channel) =
      ((moves.filterMap Move.delivered).filter fun print => print.1.key = key).map Prod.snd := by
  induction moves using List.reverseRecOn with
  | nil => rfl
  | append_singleton moves move ih =>
    dsimp only at ih ⊢
    rw [Machine.run_concat, printIds_next, ih, List.filterMap_append, List.filter_append,
      List.map_append]
    congr 3

omit [LinearOrder D] [Zero D] [Add D] in
/-- A venue that delivers each print once delivers each id of a key once. -/
theorem nodup_delivered {moves : List (Move D)} (honce : (moves.filterMap Move.delivered).Nodup)
    (key : String) :
    (((moves.filterMap Move.delivered).filter fun print => print.1.key = key).map
      Prod.snd).Nodup := by
  refine List.Nodup.map_on ?_ (honce.filter _)
  rintro ⟨symbol, id⟩ hmem ⟨symbol', id'⟩ hmem' hid
  have hkey : symbol.key = key := by simpa using (List.mem_filter.mp hmem).2
  have hkey' : symbol'.key = key := by simpa using (List.mem_filter.mp hmem').2
  have hsymbol : symbol = symbol' := Symbol.key_injective (hkey.trans hkey'.symm)
  rw [hsymbol, show id = id' from hid]

/-- **No print twice.** Let the venue deliver each print of a symbol once. Along every run in which
no hand-over repeats a print the terminal has or is about to get, no tape of the terminal ever
holds two prints with one id. -/
theorem tape_once (auth : Auth) (bucketing : Bucketing) (capacity : ℕ) (cooldownMs : ℤ)
    (moves : List (Move D)) (honce : (moves.filterMap Move.delivered).Nodup)
    (hnew : (machine auth).Along (HandsOverNew auth) (start bucketing capacity cooldownMs) moves)
    (k : ℕ) (key : String) :
    ((((machine auth).run (start bucketing capacity cooldownMs) (moves.take k)).feed.tape key).map
      PublicTrade.id).Nodup := by
  let guard : Fanout D → Move D → Prop := fun s move =>
    (∀ key, (printIds key (s.folded ++ s.channel)).Nodup) ∧ HandsOverNew auth s move
  have hguard : (machine auth).Along guard (start bucketing capacity cooldownMs) moves := by
    refine Machine.along_iff_forall_split.mpr fun pre move post hsplit => ⟨fun key => ?_, ?_⟩
    · rw [printIds_run]
      refine nodup_delivered (honce.sublist ?_) key
      rw [hsplit]
      exact (List.sublist_append_left _ _).filterMap _
    · exact Machine.along_iff_forall_split.mp hnew pre move post hsplit
  have hnext : ∀ (s : Fanout D) (move : Move D), guard s move →
      (Pumped (.new bucketing capacity cooldownMs) s ∧ Once s) →
      Pumped (.new bucketing capacity cooldownMs) ((machine auth).next s move) ∧
        Once ((machine auth).next s move) :=
    fun s move hmove hs => ⟨hs.1.next auth move, hs.2.next hs.1 hmove.1 hmove.2⟩
  have hrun := (hguard.take k).run_invariant hnext
    ⟨pumped_start bucketing capacity cooldownMs, once_start bucketing capacity cooldownMs⟩
  exact (List.nodup_append'.mp (hrun.2.nodup key)).1

/-- One print in the history handed over, the next one live; each brings a bar along. -/
private def historyThenLive : List (Move ℤ) :=
  [.venue (.trade ⟨btcusdt, 100, 2, .buy, 1, 1⟩ 1), .fold, .broadcast, .fold, .broadcast,
    .connect, .client (.ok (.hello 2 "t")) 2, .client (.ok (.subscribe [.trades btcusdt])) 3,
    .receive, .receive, .receive, .receive,
    .venue (.trade ⟨btcusdt, 101, 1, .sell, 4, 2⟩ 4), .fold, .broadcast, .fold, .broadcast,
    .stream, .stream, .receive, .receive]

theorem tape_once_historyThenLive :
    (((machine ⟨"t"⟩).run (start (.ticks 25) 1200 1000) historyThenLive).feed.tape
      btcusdt.key).map PublicTrade.id = [2, 1] ∧
    ((((machine ⟨"t"⟩).run (start (.ticks 25) 1200 1000) (historyThenLive.take 21)).feed.tape
      btcusdt.key).map PublicTrade.id).Nodup :=
  ⟨by decide +kernel,
    tape_once ⟨"t"⟩ (.ticks 25) 1200 1000 historyThenLive (by decide +kernel) (by decide +kernel)
      21 btcusdt.key⟩

/-- The terminal has the print, loses its connection, opens another and subscribes again. -/
private def reconnected : List (Move ℤ) :=
  [.venue (.trade ⟨btcusdt, 100, 2, .buy, 1, 1⟩ 1), .fold, .broadcast, .fold, .broadcast,
    .connect, .client (.ok (.hello 2 "t")) 2, .client (.ok (.subscribe [.trades btcusdt])) 3,
    .receive, .receive, .receive, .disconnect,
    .connect, .client (.ok (.hello 2 "t")) 4, .client (.ok (.subscribe [.trades btcusdt])) 5,
    .receive, .receive, .receive]

/-- The history handed over after the reconnect lands on a tape that still has it. -/
theorem not_tape_once_reconnected :
    (reconnected.filterMap Move.delivered).Nodup ∧
      ¬ ((((machine ⟨"t"⟩).run (start (.ticks 25) 1200 1000) reconnected).feed.tape
        btcusdt.key).map PublicTrade.id).Nodup := by
  decide +kernel

end Fanout

end MoonCore
