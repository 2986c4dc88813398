import MoonCore.Binance.Decode
import MoonCore.Core.Terminals

/-!
# Truth, end to end

From the venue's frames to what any terminal shows. As long as the venue keeps its documentation
(`Arrival.Truthful`), every event the core publishes carries the truth (`Venue.Carried`): a whole
book is the venue's at its update id, a change is one the venue made. Folding such events never
makes a false book, whatever is lost, late, repeated or torn on the way, so that every book of the
read-model and of every terminal is the venue's book at the id it carries (`Hub.shows_truth`).

Unlike convergence this needs no update id to be fresh and survives every lag and reconnect: an
id is the venue's name for one state of the book.
-/

namespace MoonCore

variable {D : Type} [LinearOrder D] [Zero D]

namespace Venue

variable (V : Venue D)

/-- An event that says nothing false about a book. -/
structure Carried (event : Event D) : Prop where
  snapshot : ∀ book, event.payload = .market (.bookSnapshot book) → ∃ symbol, V.Shows symbol book
  delta : ∀ delta, event.payload = .market (.bookDelta delta) → V.Publishes delta

/-- Books that are the venue's, filed under the keys of their symbols. -/
def Holds (books : Books D) : Prop :=
  ∀ key b, books key = some b → ∃ symbol, symbol.key = key ∧ V.Shows symbol b

variable {V}

theorem Holds.shows {books : Books D} (h : V.Holds books) {symbol : Symbol} {b : OrderBook D}
    (hb : books symbol.key = some b) : V.Shows symbol b := by
  obtain ⟨other, hkey, hshows⟩ := h _ b hb
  exact Symbol.key_injective hkey ▸ hshows

theorem holds_none : V.Holds fun _ => none := fun _ _ hb => by cases hb

/-- What concerns no book is carried. -/
theorem carried_of_quiet {event : Event D} (h : event.Quiet) : V.Carried event :=
  ⟨fun book hbook => absurd hbook (h.1 book), fun delta hdelta => absurd hdelta (h.2 delta)⟩

/-- Folding a carried event into true books makes true books: a change either extends a true book
or leaves nothing. -/
theorem Holds.fold {books : Books D} (h : V.Holds books) {event : Event D}
    (hevent : V.Carried event) : V.Holds (foldBooks books event) := by
  intro key b hb
  rw [foldBooks_apply] at hb
  rcases foldAt_cases event key with ⟨-, hfold⟩ | ⟨book, symbol, hbook, hsymbol, rfl, hfold⟩ |
    ⟨delta, hdelta, rfl, hfold⟩
  · rw [hfold] at hb
    exact h key b hb
  · rw [hfold] at hb
    obtain rfl := Option.some.inj hb
    obtain ⟨shown, hshows⟩ := hevent.snapshot book hbook
    obtain rfl : shown = symbol := Option.some.inj (hshows.symbol_eq.symm.trans hsymbol)
    exact ⟨shown, rfl, hshows⟩
  · rw [hfold] at hb
    obtain ⟨before, hheld, hstep⟩ := Option.bind_eq_some_iff.mp hb
    have hbefore := h.shows hheld
    refine ⟨delta.symbol, rfl, ?_⟩
    split_ifs at hstep with hold hext
    · obtain rfl := Option.some.inj hstep
      exact hbefore
    · obtain rfl := Option.some.inj hstep
      exact hbefore.extend (hevent.delta delta hdelta) rfl hext

/-- What a session hands over out of true books is carried. -/
theorem Holds.handOver {state : MarketState D} (h : V.Holds state.books) (subs : List Subscription)
    (now : Timestamp) {event : Event D} (hevent : event ∈ handOver state subs now) :
    V.Carried event := by
  rw [MoonCore.handOver, List.mem_append, List.mem_append] at hevent
  rcases hevent with (hmem | hmem) | hmem <;> obtain ⟨served, hserved, rfl⟩ := List.mem_map.mp hmem
  · exact carried_of_quiet (by simp [Event.Quiet])
  · exact carried_of_quiet (by simp [Event.Quiet])
  · refine ⟨fun book hbook => ?_, fun delta hdelta => by simp at hdelta⟩
    obtain rfl : served = book := by simpa using hbook
    obtain ⟨-, sub, -, hheld⟩ := MarketState.mem_snapshotsFor.mp hserved
    exact ⟨_, h.shows hheld⟩

end Venue

/-! ### The connector -/

section Connector

variable [Add D] {V : Venue D}

/-- A connector that holds nothing but the truth, and is given nothing else, publishes nothing else
and goes on holding it. -/
theorem Connector.step_carried {self : Connector D}
    (h : BookSet.Every V.Faithful self.books) {input : Input D} (hinput : V.Gives input) :
    BookSet.Every V.Faithful (self.step input).1.books ∧
      ∀ event ∈ (self.step input).2, V.Carried event := by
  have hquiet : ∀ now health, V.Carried (Event.connection now health) :=
    fun now health => Venue.carried_of_quiet (by simp [Event.Quiet])
  cases input with
  | delta delta now =>
    have hop : V.Feeds (.delta delta now) := hinput
    have hnext : BookSet.Every V.Faithful (self.books.onDelta delta now).1 :=
      Venue.stable_faithful.step hop h
    refine ⟨hnext, fun event hevent => ?_⟩
    rcases List.mem_append.mp hevent with hmem | hmem
    · split_ifs at hmem
      · split at hmem
        · rename_i book hbook
          obtain rfl := List.mem_singleton.mp hmem
          refine ⟨fun shown hshown => ?_, fun other hother => by simp at hother⟩
          obtain rfl : book = shown := by simpa using hshown
          exact ⟨_, hnext.shows_book hbook⟩
        · cases hmem
      · obtain rfl := List.mem_singleton.mp hmem
        refine ⟨fun shown hshown => by simp at hshown, fun other hother => ?_⟩
        obtain rfl : delta = other := by simpa using hother
        exact hinput
      · cases hmem
    · obtain ⟨health, rfl⟩ := Need.mem_notice hmem
      exact hquiet now health
  | fetched snapshot now =>
    have hop : V.Feeds (.snapshot snapshot now) := hinput
    have hnext : BookSet.Every V.Faithful (self.books.installSnapshot snapshot now).1 :=
      Venue.stable_faithful.step hop h
    cases hinstall : self.books.installSnapshot snapshot now with
    | mk books joined =>
      have hjoined := @BookSet.book_of_installSnapshot D _ _ self.books snapshot
      rw [hinstall] at hnext
      rw [Connector.step, Connector.onFetched, hinstall]
      cases joined with
      | none => exact ⟨hnext, by simp⟩
      | some book =>
        refine ⟨hnext, fun event hevent => ?_⟩
        obtain rfl := List.mem_singleton.mp hevent
        refine ⟨fun shown hshown => ?_, fun other hother => by simp at hother⟩
        obtain rfl : book = shown := by simpa using hshown
        obtain ⟨symbol, -, hbook⟩ := @hjoined book now (by rw [hinstall])
        rw [hinstall] at hbook
        exact ⟨_, hnext.shows_book hbook⟩
  | trade trade now =>
    refine ⟨h, fun event hevent => ?_⟩
    rcases List.mem_append.mp hevent with hmem | hmem
    · obtain ⟨candle, -, rfl⟩ := List.mem_map.mp hmem
      exact Venue.carried_of_quiet (by simp [Event.Quiet])
    · obtain rfl := List.mem_singleton.mp hmem
      exact Venue.carried_of_quiet (by simp [Event.Quiet])
  | failed symbol =>
    have hop : V.Feeds (.failed symbol) := trivial
    exact ⟨Venue.stable_faithful.step hop h, by simp [Connector.step]⟩
  | disconnected reason now =>
    have hop : V.Feeds .reset := trivial
    refine ⟨Venue.stable_faithful.step hop h, fun event hevent => ?_⟩
    obtain rfl := List.mem_singleton.mp hevent
    exact hquiet now _
  | connecting now =>
    refine ⟨h, fun event hevent => ?_⟩
    obtain rfl := List.mem_singleton.mp hevent
    exact hquiet now _
  | ready now =>
    refine ⟨h, fun event hevent => ?_⟩
    obtain rfl := List.mem_singleton.mp hevent
    exact hquiet now _

end Connector

/-! ### The core and one terminal -/

namespace Fanout

variable [Add D] {V : Venue D}

/-- Everything the system holds or has on the way is the truth. -/
structure Truthful (V : Venue D) (s : Fanout D) : Prop where
  connector : BookSet.Every V.Faithful s.connector.books
  channel : ∀ event ∈ s.channel, V.Carried event
  state : V.Holds s.state.books
  held : ∀ event, s.held = some event → V.Carried event
  queue : ∀ event ∈ s.queue, V.Carried event
  wire : ∀ event ∈ events s.wire, V.Carried event
  feed : V.Holds s.feed.books

omit [Add D] in
theorem truthful_start (bucketing : Bucketing) (capacity : ℕ) (cooldownMs : ℤ) :
    Truthful V (start bucketing capacity cooldownMs) where
  connector := BookSet.every_new cooldownMs
  channel := fun event hevent => absurd hevent List.not_mem_nil
  state := Venue.holds_none
  held := fun event hevent => by cases hevent
  queue := fun event hevent => absurd hevent List.not_mem_nil
  wire := fun event hevent => absurd hevent List.not_mem_nil
  feed := Venue.holds_none

/-- What the venue may do, for truth: its inputs are its own, and every other move is free. -/
def FromVenue (V : Venue D) : Move D → Prop
  | .venue input => V.Gives input
  | _ => True

/-- Every move keeps the truth: lags and reconnects too. -/
theorem Truthful.next {s : Fanout D} (h : Truthful V s) (auth : Auth) {move : Move D}
    (hmove : FromVenue V move) : Truthful V ((machine auth).next s move) := by
  refine next_of_steps fun after hsteps => ?_
  obtain ⟨hconnector, hchannel, hstate, hheld, hqueue, hwire, hfeed⟩ := h
  have hnothing : ∀ event ∈ ([] : List (Event D)), V.Carried event :=
    fun event hevent => absurd hevent List.not_mem_nil
  have hgone : ∀ event ∈ events ([] : List (ServerMsg D)), V.Carried event := hnothing
  have hdropped : V.Holds s.feed.dropBooks.books := Venue.holds_none
  cases hsteps with
  | rest => exact ⟨hconnector, hchannel, hstate, hheld, hqueue, hwire, hfeed⟩
  | venue input =>
    obtain ⟨hnext, hevents⟩ := s.connector.step_carried hconnector hmove
    refine ⟨hnext, fun event hevent => ?_, hstate, hheld, hqueue, hwire, hfeed⟩
    exact (List.mem_append.mp hevent).elim (hchannel event) (hevents event)
  | @fold event channel hempty hchan =>
    rw [hchan] at hchannel
    have hevent : V.Carried event := hchannel event List.mem_cons_self
    refine ⟨hconnector, fun e he => hchannel e (List.mem_cons_of_mem event he), ?_, ?_, hqueue,
      hwire, hfeed⟩
    · rw [MarketState.apply_books]
      exact hstate.fold hevent
    · rintro e he
      exact Option.some.inj he ▸ hevent
  | @broadcast event session hevent hsession =>
    refine ⟨hconnector, hchannel, hstate, (fun e he => by cases he), fun e he => ?_, hwire, hfeed⟩
    rcases List.mem_append.mp he with hold | hnew
    · exact hqueue e hold
    · exact List.mem_singleton.mp hnew ▸ hheld event hevent
  | unheard =>
    exact ⟨hconnector, hchannel, hstate, (fun e he => by cases he), hnothing, hwire, hfeed⟩
  | @answer session after msg reply hsession hreceive hreply now =>
    refine ⟨hconnector, hchannel, hstate, hheld, hqueue, fun e he => ?_, hfeed⟩
    rw [events_append, events_reply hreply, events_map_event, List.mem_append] at he
    exact he.elim (hwire e) (hstate.handOver _ now)
  | @close session msg reply hsession hreply now =>
    refine ⟨hconnector, hchannel, hstate, hheld, hnothing, fun e he => ?_, hfeed⟩
    rw [events_append, events_reply hreply, List.mem_append] at he
    exact hwire e (he.resolve_right List.not_mem_nil)
  | @stream session event queue hsession hcons hwants =>
    rw [hcons] at hqueue
    refine ⟨hconnector, hchannel, hstate, hheld,
      fun e he => hqueue e (List.mem_cons_of_mem event he), fun e he => ?_, hfeed⟩
    rw [events_append, List.mem_append] at he
    rcases he with hold | hnew
    · exact hwire e hold
    · exact List.mem_singleton.mp hnew ▸ hqueue event List.mem_cons_self
  | @skip session event queue hsession hcons hwants =>
    rw [hcons] at hqueue
    exact ⟨hconnector, hchannel, hstate, hheld,
      fun e he => hqueue e (List.mem_cons_of_mem event he), hwire, hfeed⟩
  | lag hsession missed now =>
    refine ⟨hconnector, hchannel, hstate, hheld, fun e he => hqueue e (List.mem_of_mem_drop he),
      fun e he => ?_, hfeed⟩
    rw [events_append, List.mem_append] at he
    rcases he with hold | hnew
    · exact hwire e hold
    · obtain rfl : e = lagNotice missed now := List.mem_singleton.mp hnew
      exact Venue.carried_of_quiet (by simp [Event.Quiet, lagNotice])
  | @receive event wire hcons =>
    rw [hcons] at hwire
    refine ⟨hconnector, hchannel, hstate, hheld, hqueue,
      fun e he => hwire e (List.mem_cons_of_mem event he), ?_⟩
    rw [FeedState.apply_books]
    exact hfeed.fold (hwire event List.mem_cons_self)
  | @ignore msg wire hcons hmsg =>
    rw [hcons, events_reply hmsg] at hwire
    exact ⟨hconnector, hchannel, hstate, hheld, hqueue, hwire, hfeed⟩
  | connect => exact ⟨hconnector, hchannel, hstate, hheld, hnothing, hgone, hdropped⟩
  | refused => exact ⟨hconnector, hchannel, hstate, hheld, hnothing, hgone, hdropped⟩
  | disconnect => exact ⟨hconnector, hchannel, hstate, hheld, hnothing, hgone, hdropped⟩

theorem truthful_run (auth : Auth) (bucketing : Bucketing) (capacity : ℕ) (cooldownMs : ℤ)
    {moves : List (Move D)} (hmoves : ∀ move ∈ moves, FromVenue V move) :
    Truthful V ((machine auth).run (start bucketing capacity cooldownMs) moves) := by
  have halong := Machine.along_of_forall_mem (M := machine auth) hmoves
    (start bucketing capacity cooldownMs)
  exact halong.run_invariant (fun s move hmove hs => hs.next auth hmove)
    (truthful_start bucketing capacity cooldownMs)

end Fanout

/-! ### All terminals -/

namespace Hub

variable {ι : Type*} [DecidableEq ι] [Add D]

omit [DecidableEq ι] [LinearOrder D] [Zero D] [Add D] in
/-- The core, as a terminal that never connects sees it. -/
def bare (h : Hub ι D) : Fanout D :=
  ⟨h.connector, h.channel, h.state, h.held, none, [], [], .new, h.folded⟩

omit [DecidableEq ι] [LinearOrder D] [Zero D] [Add D] in
/-- The core's own moves. -/
def ofCore : HubMove ι D → Option (Move D)
  | .venue input => some (.venue input)
  | .fold => some .fold
  | .broadcast => some .broadcast
  | .terminal _ _ => none

/-- The core is indifferent to its terminals. -/
theorem views_bare (auth : Auth) :
    (machine ι auth).Views (Fanout.machine auth) (bare : Hub ι D → Fanout D) ofCore where
  mine h move alone hown := by
    obtain ⟨connector, channel, state, held, terminals, metrics, folded⟩ := h
    cases move with
    | terminal j move => cases hown
    | venue input =>
      obtain rfl := Option.some.inj hown
      rfl
    | fold =>
      obtain rfl := Option.some.inj hown
      cases held with
      | some event => rfl
      | none => cases channel <;> rfl
    | broadcast =>
      obtain rfl := Option.some.inj hown
      cases held <;> rfl
  others h move hown := by
    cases move with
    | terminal j move => rfl
    | _ => cases hown

omit [DecidableEq ι] [Add D] in
/-- Whoever's view is taken, its inputs from the venue are the hub's. -/
theorem fromVenue_of_mem {V : Venue D} {own : HubMove ι D → Option (Move D)}
    {moves : List (HubMove ι D)} (hgives : ∀ input, .venue input ∈ moves → V.Gives input)
    (hown : ∀ made input, own made = some (.venue input) → made = .venue input) :
    ∀ move ∈ moves.filterMap own, Fanout.FromVenue V move := by
  intro move hmove
  obtain ⟨made, hmade, heq⟩ := List.mem_filterMap.mp hmove
  cases move with
  | venue input => exact hgives input (hown made input heq ▸ hmade)
  | _ => trivial

/-- **Truth, end to end.** The venue's frames reach the connector as its documentation has them,
in any order, with any losses and repeats, and every party moves as it pleases, through lags,
refusals and reconnects. Then at every moment each book of the read-model, and each book of every
terminal, is the venue's book at the update id it carries. -/
theorem shows_truth (V : Venue D) (formats : Formats D) (market : MarketKind) (auth : Auth)
    (bucketing : Bucketing) (capacity : ℕ) (cooldownMs : ℤ) (moves : List (HubMove ι D))
    (hmoves : ∀ input, .venue input ∈ moves → ∃ arrival : Arrival D,
      arrival.Truthful V formats market ∧ arrival.input formats market = some input) (k : ℕ) :
    let h := (machine ι auth).run (start ι bucketing capacity cooldownMs) (moves.take k)
    (∀ symbol b, h.state.books (Symbol.key symbol) = some b → V.Shows symbol b) ∧
      ∀ i symbol b, (h.terminals i).feed.books (Symbol.key symbol) = some b → V.Shows symbol b := by
  intro h
  have hgives : ∀ input, .venue input ∈ moves.take k → V.Gives input := fun input hinput => by
    obtain ⟨arrival, htruthful, heq⟩ := hmoves input (List.mem_of_mem_take hinput)
    exact htruthful.gives heq
  have hcore : Fanout.Truthful V h.bare := by
    have hbare := (views_bare auth).run (start ι bucketing capacity cooldownMs : Hub ι D)
      (moves.take k)
    rw [show h.bare = _ from hbare]
    refine Fanout.truthful_run auth bucketing capacity cooldownMs (fromVenue_of_mem hgives ?_)
    rintro (_ | _ | _ | _) input hown <;> cases hown
    rfl
  have hterminal : ∀ i, Fanout.Truthful V (h.view i) := fun i => by
    rw [Hub.view_run]
    refine Fanout.truthful_run auth bucketing capacity cooldownMs (fromVenue_of_mem hgives ?_)
    rintro (_ | _ | _ | ⟨j, move⟩) input hown
    · exact congrArg HubMove.venue (Move.venue.inj (Option.some.inj hown))
    · cases hown
    · cases hown
    · obtain ⟨-, halone⟩ : j = i ∧ move.alone = .venue input := by simpa [own] using hown
      cases move <;> cases halone
  exact ⟨fun symbol b hb => hcore.state.shows hb, fun i symbol b hb => (hterminal i).feed.shows hb⟩

/-- One level alone is in order. -/
private theorem sideWellFormed_single {descending : Bool} (price : ℤ) {qty : ℤ} (h : qty ≠ 0) :
    SideWellFormed descending [⟨price, qty⟩] :=
  ⟨List.pairwise_singleton _ _, fun _ hmem => List.mem_singleton.mp hmem ▸ h⟩

/-- A venue whose one bid doubles at its first update. -/
private def doublingBid : Venue ℤ where
  bids _ id := [⟨100, match id with | 0 => 1 | _ + 1 => 2⟩]
  asks _ _ := [⟨101, 1⟩]
  bids_wellFormed _ id :=
    sideWellFormed_single 100 (match id with
      | 0 => Int.one_ne_zero
      | _ + 1 => OfNat.ofNat_ne_zero 2)
  asks_wellFormed _ _ := sideWellFormed_single 101 Int.one_ne_zero

/-- The frame the venue sends about it. -/
private def doublingFrame : String :=
  "\x7b\"e\":\"depthUpdate\",\"E\":5,\"s\":\"BTCUSDT\",\"U\":1,\"u\":1,\"pu\":0," ++
    "\"b\":[[\"100\",\"2\"]],\"a\":[]\x7d"

/-- What is in the frame. -/
private def doublingValue : Json :=
  .obj [("e", .str "depthUpdate"), ("E", .int 5), ("s", .str "BTCUSDT"), ("U", .int 1),
    ("u", .int 1), ("pu", .int 0), ("b", .arr [.arr [.str "100", .str "2"]]), ("a", .arr [])]

/-- The codecs, at the texts of that frame. -/
private def doublingFormats : Formats ℤ where
  json text := if text = doublingFrame then some doublingValue else none
  decimal text := if text = "100" then some 100 else if text = "2" then some 2 else none

/-- The update that frame carries. -/
private def doublingUpdate : DepthUpdate ℤ :=
  ⟨"BTCUSDT", 1, 1, some 0, [⟨100, 2⟩], [], 5⟩

private theorem truthful_doublingFrame :
    (Arrival.text doublingFrame 5).Truthful doublingBid doublingFormats .linearPerp := by
  intro value raw hvalue hkind hraw
  obtain rfl : doublingValue = value := Option.some.inj hvalue
  have hparsed : DepthUpdate.fromValue doublingFormats doublingValue = some doublingUpdate := by
    rfl
  obtain rfl : doublingUpdate = raw := Option.some.inj (hparsed.symm.trans hraw)
  refine ⟨0, rfl, ⟨by decide, fun p i _ hi hne => ?_⟩, ⟨by simp [doublingUpdate, levels], ?_⟩⟩
  · obtain rfl : i = 0 := Nat.lt_one_iff.mp hi
    refine ⟨_, List.mem_cons_self, ?_⟩
    by_contra hp
    have hother : ¬ (100 : ℤ) = p := hp
    exact hne (by simp [doublingBid, qtyAt, lookup, hother])
  · exact fun p i _ _ hne => absurd rfl hne

/-- The frame, the snapshot it joins, and a terminal that asks for the book. -/
private def doublingMoves : List (HubMove Unit ℤ) :=
  [.venue (.delta ⟨btcusdt, 0, 1, [⟨100, 2⟩], [], 5⟩ 5),
    .venue (.fetched ⟨some btcusdt, [⟨100, 1⟩], [⟨101, 1⟩], 0, 4, false⟩ 6),
    .fold, .broadcast, .fold, .broadcast, .terminal () .connect,
    .terminal () (.client (.ok (.hello 2 "t")) 7),
    .terminal () (.client (.ok (.subscribe [.book btcusdt])) 8),
    .terminal () .receive, .terminal () .receive, .terminal () .receive]

/-- The terminal shows the venue's book after the update. -/
theorem shows_truth_doubling :
    ∃ b, (((machine Unit ⟨"t"⟩).run (start Unit (.ticks 25) 1200 1000)
        doublingMoves).terminals ()).feed.books btcusdt.key = some b ∧ b.lastUpdateId = 1 ∧
      doublingBid.Shows btcusdt b := by
  have hshown : ((((machine Unit ⟨"t"⟩).run (start Unit (.ticks 25) 1200 1000)
      doublingMoves).terminals ()).feed.books btcusdt.key).map OrderBook.lastUpdateId =
        some 1 := by
    decide +kernel
  obtain ⟨b, hb, hid⟩ := Option.map_eq_some_iff.mp hshown
  refine ⟨b, hb, hid, ?_⟩
  refine (shows_truth doublingBid doublingFormats .linearPerp ⟨"t"⟩ (.ticks 25) 1200 1000
    doublingMoves (fun input hinput => ?_) doublingMoves.length).2 () btcusdt b hb
  simp only [doublingMoves, List.mem_cons, HubMove.venue.injEq, reduceCtorEq,
    List.not_mem_nil, or_false] at hinput
  rcases hinput with rfl | rfl
  · exact ⟨.text doublingFrame 5, truthful_doublingFrame, by rfl⟩
  · exact ⟨.snapshot "BTCUSDT" ⟨0, [⟨100, 1⟩], [⟨101, 1⟩]⟩ 4 6, ⟨rfl, rfl⟩, rfl⟩

end Hub

end MoonCore
