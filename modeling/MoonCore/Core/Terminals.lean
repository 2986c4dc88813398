import Mathlib.Algebra.BigOperators.Group.Finset.Piecewise
import MoonCore.Core.LateSubscriber
import MoonCore.Machine.View

/-!
# The core and all of its terminals

`core::server` and `core::main` with any number of sessions: one connector, one pump and one
read-model; the pump's broadcast reaches the queue of every open session, and each session's task
answers, hands over and forwards on its own. Every task holds the same `Metrics`; a session is
counted for as long as its guard lives.

`Hub.views` is the refinement: seen from any one terminal the hub is the core with that terminal
alone, whatever the others do. So what holds of one terminal holds of each of them at once
(`Hub.agreement`), and no terminal can tell whether the others are there (`Hub.one_of_many`).
`Hub.counted` says what the counters mean after any run.
-/

namespace MoonCore

variable {ι D : Type*}

/-- The counters of the core, the atomics of the source with their wrap-around. -/
structure Metrics where
  terminalsConnected : ℤ
  terminalsTotal : ℕ
  eventsBroadcast : ℕ
  eventsLaggedTotal : ℕ
  deriving DecidableEq

namespace Metrics

/-- All counters start at zero. -/
def new : Metrics := ⟨0, 0, 0, 0⟩

/-- A terminal finished its handshake; its guard is held by the session. -/
def terminalConnected (self : Metrics) : Metrics :=
  { self with
    terminalsConnected := wrapI64 (self.terminalsConnected + 1)
    terminalsTotal := (self.terminalsTotal + 1) % 2 ^ 64 }

/-- A session ends, however it ends, and its `TerminalGuard` is dropped. -/
def guardDropped (self : Metrics) : Metrics :=
  { self with terminalsConnected := wrapI64 (self.terminalsConnected - 1) }

/-- One more event was given to the broadcast; the counter wraps. -/
def eventBroadcast (self : Metrics) : Metrics :=
  { self with eventsBroadcast := (self.eventsBroadcast + 1) % 2 ^ 64 }

/-- A terminal fell behind and the broadcast dropped `count` events for it. -/
def eventsLagged (self : Metrics) (count : ℕ) : Metrics :=
  { self with eventsLaggedTotal := (self.eventsLaggedTotal + count) % 2 ^ 64 }

end Metrics

/-- One terminal and the session that serves it. -/
structure Terminal (D : Type*) where
  session : Option Session
  /-- Broadcast, and not taken by the session yet. -/
  queue : List (Event D)
  /-- Sent, and not received by the terminal yet. -/
  wire : List (ServerMsg D)
  feed : FeedState D

/-- What can happen to one terminal. -/
inductive TerminalMove (D : Type*) where
  | connect
  | client (msg : Except String ClientMsg) (now : Timestamp)
  | stream
  | lag (missed : ℕ) (now : Timestamp)
  | receive
  | disconnect

namespace Terminal

/-- A terminal that has never been connected. -/
def new : Terminal D := ⟨none, [], [], .new⟩

/-- Both ends of a connection are gone. -/
def hangUp (self : Terminal D) : Terminal D := ⟨none, [], [], self.feed.dropBooks⟩

/-- The counters after the session's task, if there is one, has ended. -/
def ended (self : Terminal D) (metrics : Metrics) : Metrics :=
  if self.session.isSome then metrics.guardDropped else metrics

/-- The broadcast reaches the receivers that exist. -/
def hear (self : Terminal D) (event : Event D) : Terminal D :=
  { self with queue := if self.session.isSome then self.queue ++ [event] else [] }

variable [LinearOrder D] [Zero D]

/-- One move of a terminal or of its session, which shares the read-model and the counters with
all others. -/
def step (auth : Auth) (state : MarketState D) (self : Terminal D) (metrics : Metrics) :
    TerminalMove D → Terminal D × Metrics
  | .connect => ({ self.hangUp with session := some .new }, (self.ended metrics).terminalConnected)
  | .client msg now =>
    match self.session with
    | none => (self, metrics)
    | some session =>
      let (after, reaction) := session.receive auth msg
      if reaction.close then
        ({ self with session := none, queue := [], wire := self.wire ++ [reaction.reply] },
          metrics.guardDropped)
      else
        ({ self with
            session := some after
            wire := self.wire ++ [reaction.reply] ++
              (handOver state after.subscriptions now).map .event },
          metrics)
  | .stream =>
    match self.session, self.queue with
    | some session, event :: queue =>
      ({ self with
          queue := queue
          wire := if session.wants event then self.wire ++ [.event event] else self.wire },
        metrics)
    | _, _ => (self, metrics)
  | .lag missed now =>
    if self.session.isSome then
      ({ self with
          queue := self.queue.drop missed
          wire := self.wire ++ [.event (Fanout.lagNotice missed now)] },
        metrics.eventsLagged missed)
    else (self, metrics)
  | .receive =>
    match self.wire with
    | .event event :: wire => ({ self with wire := wire, feed := self.feed.apply event }, metrics)
    -- a refusal is final: the terminal hangs up
    | .failed _ _ :: _ => (self.hangUp, self.ended metrics)
    | _ :: wire => ({ self with wire := wire }, metrics)
    | [] => (self, metrics)
  | .disconnect => (self.hangUp, self.ended metrics)

end Terminal

/-- The core with its terminals. The last field is history: no move reads it. -/
structure Hub (ι D : Type*) where
  connector : Connector D
  /-- Published, and not taken by the pump yet. -/
  channel : List (Event D)
  state : MarketState D
  /-- Folded, and not broadcast yet. -/
  held : Option (Event D)
  terminals : ι → Terminal D
  metrics : Metrics
  /-- Every event the pump has folded, oldest first. -/
  folded : List (Event D)

/-- What can happen next. -/
inductive HubMove (ι D : Type*) where
  | venue (input : Input D)
  | fold
  | broadcast
  | terminal (i : ι) (move : TerminalMove D)

/-- A terminal's move, as a move of the core with that terminal alone. -/
def TerminalMove.alone : TerminalMove D → Move D
  | .connect => .connect
  | .client msg now => .client msg now
  | .stream => .stream
  | .lag missed now => .lag missed now
  | .receive => .receive
  | .disconnect => .disconnect

/-- A terminal finishes its handshake. -/
def HubMove.isConnect : HubMove ι D → Bool
  | .terminal _ .connect => true
  | _ => false

/-- Events lost to one terminal by a lag: gone from its queue, and told to it and counted. -/
structure Loss where
  dropped : ℕ
  announced : ℕ

namespace Hub

/-- A core that has just started, with terminals that have never been connected. -/
def start (ι : Type*) (bucketing : Bucketing) (capacity : ℕ) (cooldownMs : ℤ) : Hub ι D :=
  ⟨.new bucketing capacity cooldownMs, [], .new, none, fun _ => .new, .new, []⟩

variable [DecidableEq ι] [LinearOrder D] [Zero D] [Add D]

/-- One move. -/
def step (auth : Auth) (h : Hub ι D) : HubMove ι D → Hub ι D
  | .venue input =>
    let (connector, events) := h.connector.step input
    { h with connector := connector, channel := h.channel ++ events }
  | .fold =>
    match h.held, h.channel with
    | none, event :: channel =>
      { h with
        channel := channel
        state := h.state.apply event
        held := some event
        metrics := h.metrics.eventBroadcast
        folded := h.folded ++ [event] }
    | _, _ => h
  | .broadcast =>
    match h.held with
    | some event => { h with held := none, terminals := fun i => (h.terminals i).hear event }
    | none => h
  | .terminal i move =>
    let (terminal, metrics) := (h.terminals i).step auth h.state h.metrics move
    { h with terminals := Function.update h.terminals i terminal, metrics := metrics }

omit [LinearOrder D] [Zero D] [Add D] in
/-- What a move loses. -/
def loss (h : Hub ι D) : HubMove ι D → Loss
  | .terminal i (.lag missed _) =>
    if (h.terminals i).session.isSome then ⟨min missed (h.terminals i).queue.length, missed⟩
    else ⟨0, 0⟩
  | _ => ⟨0, 0⟩

/-- The hub, stepping on moves; a move answers with what it loses. -/
def machine (ι : Type*) [DecidableEq ι] (auth : Auth) : Machine (Hub ι D) (HubMove ι D) Loss :=
  ⟨fun h move => (h.step auth move, h.loss move)⟩

/-! ### One terminal's view -/

omit [DecidableEq ι] [LinearOrder D] [Zero D] [Add D] in
/-- The core with one terminal, the others left out. -/
def view (i : ι) (h : Hub ι D) : Fanout D :=
  ⟨h.connector, h.channel, h.state, h.held, (h.terminals i).session, (h.terminals i).queue,
    (h.terminals i).wire, (h.terminals i).feed, h.folded⟩

omit [LinearOrder D] [Zero D] [Add D] in
/-- The moves that concern a terminal: the core's, and its own. -/
def own (i : ι) : HubMove ι D → Option (Move D)
  | .venue input => some (.venue input)
  | .fold => some .fold
  | .broadcast => some .broadcast
  | .terminal j move => if j = i then some move.alone else none

/-- A terminal's step is the step of the core with that terminal alone, and leaves the core's part
of it alone. -/
theorem view_step_own (auth : Auth) (h : Hub ι D) (i : ι) (move : TerminalMove D) :
    (h.step auth (.terminal i move)).view i = (h.view i).step auth move.alone := by
  have hview : ∀ terminal metrics,
      view i { h with terminals := Function.update h.terminals i terminal, metrics := metrics } =
        ⟨h.connector, h.channel, h.state, h.held, terminal.session, terminal.queue, terminal.wire,
          terminal.feed, h.folded⟩ := by
    intro terminal metrics
    simp only [view, Function.update_self]
  rw [step, hview, view]
  obtain ⟨session, queue, wire, feed⟩ := h.terminals i
  cases move with
  | connect => rfl
  | disconnect => rfl
  | client msg now =>
    cases session with
    | none => rfl
    | some session =>
      simp only [Terminal.step, TerminalMove.alone, Fanout.step, Fanout.answer]
      split_ifs <;> rfl
  | stream =>
    cases session with
    | none => rfl
    | some session => cases queue <;> rfl
  | lag missed now => cases session <;> rfl
  | receive =>
    cases wire with
    | nil => rfl
    | cons msg wire => cases msg <;> rfl

/-- **Refinement.** Seen from one terminal, the hub is the core with that terminal alone. -/
theorem views (auth : Auth) (i : ι) :
    (machine ι auth).Views (Fanout.machine auth) (view i : Hub ι D → Fanout D) (own i) where
  mine h move alone hown := by
    cases move with
    | venue input =>
      obtain rfl := Option.some.inj hown
      rfl
    | fold =>
      obtain rfl := Option.some.inj hown
      obtain ⟨connector, channel, state, held, terminals, metrics, folded⟩ := h
      cases held with
      | some event => rfl
      | none => cases channel <;> rfl
    | broadcast =>
      obtain rfl := Option.some.inj hown
      obtain ⟨connector, channel, state, held, terminals, metrics, folded⟩ := h
      cases held <;> rfl
    | terminal j move =>
      obtain ⟨rfl, rfl⟩ : j = i ∧ move.alone = alone := by simpa [own] using hown
      exact view_step_own auth h j move
  others h move hown := by
    cases move with
    | terminal j move =>
      have hne : i ≠ j := fun hji => by simp [own, hji] at hown
      change view i (h.step auth (.terminal j move)) = view i h
      simp only [step, view, Function.update_of_ne hne]
    | _ => cases hown

/-! ### Every terminal at once -/

/-- A run of the hub, seen from one terminal. -/
theorem view_run (auth : Auth) (i : ι) (h : Hub ι D) (moves : List (HubMove ι D)) :
    view i ((machine ι auth).run h moves) =
      (Fanout.machine auth).run (view i h) (moves.filterMap (own i)) :=
  (views auth i).run h moves

/-- Seen from one terminal, a run of the hub is the run of the core with that terminal alone on the
core's moves and its own. -/
theorem one_of_many (auth : Auth) (i : ι) (bucketing : Bucketing) (capacity : ℕ) (cooldownMs : ℤ)
    (moves : List (HubMove ι D)) :
    view i ((machine ι auth).run (start ι bucketing capacity cooldownMs) moves) =
      (Fanout.machine auth).run (Fanout.start bucketing capacity cooldownMs)
        (moves.filterMap (own i)) :=
  view_run auth i _ moves

omit [LinearOrder D] [Zero D] [Add D] in
/-- The terminal has sent a message and has not lagged since. -/
def CaughtUp (i : ι) (moves : List (HubMove ι D)) : Prop :=
  ∃ before msg now rest, moves = before ++ .terminal i (.client msg now) :: rest ∧
    ∀ missed now, .terminal i (.lag missed now) ∉ rest

/-- Nothing is on the way to a terminal. -/
def Settled (h : Hub ι D) (i : ι) : Prop :=
  (h.terminals i).wire = [] ∧ (h.terminals i).queue = [] ∧ h.held = none

/-- A terminal that is caught up converges, whatever the others do. -/
theorem converging_run (auth : Auth) (bucketing : Bucketing) (capacity : ℕ) (cooldownMs : ℤ)
    {i : ι} {moves : List (HubMove ι D)} (hcaught : CaughtUp i moves) :
    Fanout.Converging
      (view i ((machine ι auth).run (start ι bucketing capacity cooldownMs) moves)) := by
  obtain ⟨before, msg, now, rest, rfl, hrest⟩ := hcaught
  have hmsg : own i (.terminal i (.client msg now) : HubMove ι D) = some (.client msg now) :=
    if_pos rfl
  have hmine : (before ++ .terminal i (.client msg now) :: rest).filterMap (own i) =
      before.filterMap (own i) ++ .client msg now :: rest.filterMap (own i) := by
    rw [List.filterMap_append, List.filterMap_cons_some hmsg]
  rw [view_run, hmine]
  refine Fanout.converging_run auth bucketing capacity cooldownMs _ msg now fun move hmove => ?_
  obtain ⟨hubMove, hmem, hown⟩ := List.mem_filterMap.mp hmove
  cases hubMove with
  | terminal j own =>
    obtain ⟨rfl, rfl⟩ : j = i ∧ own.alone = move := by simpa [Hub.own] using hown
    cases own with
    | lag missed now => exact absurd hmem (hrest missed now)
    | _ => rfl
  | _ =>
    obtain rfl := Option.some.inj hown
    rfl

/-- **Agreement.** After any run, of any number of terminals, every terminal that is caught up and
settled shows the read-model's book of each symbol it subscribed to, so any two of them show the
same. -/
theorem agreement (auth : Auth) (bucketing : Bucketing) (capacity : ℕ) (cooldownMs : ℤ)
    (moves : List (HubMove ι D)) :
    let h := (machine ι auth).run (start ι bucketing capacity cooldownMs) moves
    ∀ i, CaughtUp i moves → h.Settled i →
      ∀ session, (h.terminals i).session = some session → ∀ sub ∈ session.subscriptions, ∀ b,
        h.state.books sub.symbol.key = some b →
          (h.terminals i).feed.books sub.symbol.key = some b ∧
          ∀ j, CaughtUp j moves → h.Settled j →
            ∀ other, (h.terminals j).session = some other →
              (∃ sub' ∈ other.subscriptions, sub'.symbol = sub.symbol) →
                (h.terminals j).feed.books sub.symbol.key =
                  (h.terminals i).feed.books sub.symbol.key := by
  intro h
  have hshown : ∀ i, CaughtUp i moves → h.Settled i →
      ∀ session, (h.terminals i).session = some session → ∀ sub ∈ session.subscriptions, ∀ b,
        h.state.books sub.symbol.key = some b →
          (h.terminals i).feed.books sub.symbol.key = some b := by
    rintro i hcaught ⟨hwire, hqueue, hheld⟩ session hsession sub hsub b hb
    have hdrained := converging_run auth bucketing capacity cooldownMs hcaught
      session hsession sub hsub b hb
    change (Fanout.events (h.terminals i).wire ++
      ((h.terminals i).queue ++ h.held.toList).filter session.wants).foldl foldBooks
        (h.terminals i).feed.books sub.symbol.key = some b at hdrained
    rwa [hwire, hqueue, hheld] at hdrained
  intro i hcaught hsettled session hsession sub hsub b hb
  refine ⟨hshown i hcaught hsettled session hsession sub hsub b hb, ?_⟩
  rintro j hcaught' hsettled' other hother ⟨sub', hsub', hsame⟩
  rw [hshown i hcaught hsettled session hsession sub hsub b hb, ← hsame]
  exact hshown j hcaught' hsettled' other hother sub' hsub' b (hsame ▸ hb)

/-- A book is published before either of two terminals asks for it. -/
private def bookForTwo : List (HubMove Bool ℤ) :=
  [.venue (.delta ⟨btcusdt, 0, 10, [⟨100, 2⟩], [], 5⟩ 5),
    .venue (.fetched ⟨some btcusdt, [⟨100, 1⟩], [⟨101, 1⟩], 5, 4, false⟩ 6),
    .fold, .broadcast, .fold, .broadcast,
    .terminal true .connect, .terminal false .connect,
    .terminal true (.client (.ok (.hello 2 "t")) 7),
    .terminal false (.client (.ok (.hello 2 "t")) 7),
    .terminal true (.client (.ok (.subscribe [.book btcusdt])) 8),
    .terminal false (.client (.ok (.subscribe [.trades btcusdt])) 8),
    .terminal true .receive, .terminal false .receive, .terminal true .receive,
    .terminal false .receive, .terminal true .receive, .terminal false .receive]

private theorem caughtUp_bookForTwo (i : Bool) : CaughtUp i bookForTwo := by
  cases i with
  | true => exact ⟨bookForTwo.take 10, _, _, _, rfl, fun missed now => by simp⟩
  | false => exact ⟨bookForTwo.take 11, _, _, _, rfl, fun missed now => by simp⟩

/-- Both end up with the book. -/
theorem agreement_bookForTwo :
    let h := (machine Bool ⟨"t"⟩).run (start Bool (.ticks 25) 1200 1000) bookForTwo
    ∃ b, (h.terminals true).feed.books btcusdt.key = some b ∧
      (h.terminals false).feed.books btcusdt.key = some b := by
  intro h
  have hheld : (h.state.books btcusdt.key).isSome = true := by decide +kernel
  obtain ⟨b, hb⟩ := Option.isSome_iff_exists.mp hheld
  have hsettled : ∀ i, (h.terminals i).wire = [] ∧ (h.terminals i).queue = [] ∧ h.held = none := by
    decide +kernel
  have hsession : (h.terminals true).session = some ⟨true, [.book btcusdt]⟩ := by decide +kernel
  have hother : (h.terminals false).session = some ⟨true, [.trades btcusdt]⟩ := by decide +kernel
  obtain ⟨hshown, hsame⟩ := agreement ⟨"t"⟩ (.ticks 25) 1200 1000 bookForTwo true
    (caughtUp_bookForTwo true) (hsettled true) _ hsession (.book btcusdt)
    (List.mem_singleton_self _) b hb
  refine ⟨b, hshown, ?_⟩
  rw [← hshown]
  exact hsame false (caughtUp_bookForTwo false) (hsettled false) _ hother
    ⟨.trades btcusdt, List.mem_singleton_self _, rfl⟩

/-! ### What the counters count -/

omit [DecidableEq ι] [LinearOrder D] [Zero D] [Add D] in
/-- How many terminals have a session. -/
def live [Fintype ι] (terminals : ι → Terminal D) : ℕ :=
  (Finset.univ.filter fun i => (terminals i).session.isSome = true).card

omit [LinearOrder D] [Zero D] [Add D] in
/-- The sessions, one terminal's apart from the others'. -/
theorem exists_live_update [Fintype ι] (terminals : ι → Terminal D) (i : ι) :
    ∃ others : ℕ, ∀ terminal,
      live (Function.update terminals i terminal) = others + terminal.session.isSome.toNat := by
  refine ⟨∑ j ∈ Finset.univ.erase i, if (terminals j).session.isSome then 1 else 0,
    fun terminal => ?_⟩
  rw [live, Finset.card_filter, ← Finset.sum_erase_add _ _ (Finset.mem_univ i),
    Function.update_self]
  congr 1
  · refine Finset.sum_congr rfl fun j hj => ?_
    rw [Function.update_of_ne (Finset.ne_of_mem_erase hj)]
  · cases terminal.session <;> rfl

/-- What the counters are after so many handshakes and so many events announced as lost. -/
structure Counted [Fintype ι] (h : Hub ι D) (connects announced : ℕ) : Prop where
  connected : h.metrics.terminalsConnected = wrapI64 (live h.terminals)
  total : h.metrics.terminalsTotal = connects % 2 ^ 64
  broadcast : h.metrics.eventsBroadcast = h.folded.length % 2 ^ 64
  lagged : h.metrics.eventsLaggedTotal = announced % 2 ^ 64

end Hub

section TerminalStep

variable [LinearOrder D] [Zero D] {auth : Auth} {state : MarketState D}

/-- A terminal's step moves the gauge by its own session, whatever the others have put there. -/
theorem Terminal.step_connected (self : Terminal D) {metrics : Metrics} {others : ℤ}
    (h : metrics.terminalsConnected = wrapI64 (others + self.session.isSome.toNat))
    (move : TerminalMove D) :
    (self.step auth state metrics move).2.terminalsConnected =
      wrapI64 (others + (self.step auth state metrics move).1.session.isSome.toNat) := by
  have hended : (self.ended metrics).terminalsConnected = wrapI64 others := by
    rw [ended]
    cases hsession : self.session with
    | none => simpa [hsession] using h
    | some session =>
      rw [hsession] at h
      simp only [Option.isSome_some, if_true, Metrics.guardDropped, h]
      rw [wrapI64, wrapI64, Int.bmod_sub_bmod]
      simp [wrapI64]
  cases move with
  | connect =>
    change wrapI64 ((self.ended metrics).terminalsConnected + 1) = _
    rw [hended, wrapI64, wrapI64, Int.bmod_add_bmod]
    rfl
  | disconnect => simpa [step, hangUp] using hended
  | client msg now =>
    obtain ⟨session, queue, wire, feed⟩ := self
    cases session with
    | none => exact h
    | some session =>
      simp only [step]
      split_ifs
      · exact hended.trans (by simp)
      · exact h
  | stream =>
    obtain ⟨session, queue, wire, feed⟩ := self
    cases session with
    | none => exact h
    | some session => cases queue <;> exact h
  | lag missed now =>
    obtain ⟨session, queue, wire, feed⟩ := self
    cases session <;> exact h
  | receive =>
    obtain ⟨session, queue, wire, feed⟩ := self
    cases wire with
    | nil => exact h
    | cons msg wire =>
      cases msg with
      | failed code text => exact hended.trans (by simp [step, hangUp])
      | _ => exact h

/-- What a terminal's step does to the other counters. -/
theorem Terminal.step_counters (self : Terminal D) (metrics : Metrics) (move : TerminalMove D) :
    (self.step auth state metrics move).2.eventsBroadcast = metrics.eventsBroadcast ∧
      (self.step auth state metrics move).2.terminalsTotal =
        (match move with
          | .connect => (metrics.terminalsTotal + 1) % 2 ^ 64
          | _ => metrics.terminalsTotal) ∧
      (self.step auth state metrics move).2.eventsLaggedTotal =
        (match move with
          | .lag missed _ => if self.session.isSome then
              (metrics.eventsLaggedTotal + missed) % 2 ^ 64 else metrics.eventsLaggedTotal
          | _ => metrics.eventsLaggedTotal) := by
  obtain ⟨session, queue, wire, feed⟩ := self
  cases move with
  | connect => cases session <;> exact ⟨rfl, rfl, rfl⟩
  | disconnect => cases session <;> exact ⟨rfl, rfl, rfl⟩
  | client msg now =>
    cases session with
    | none => exact ⟨rfl, rfl, rfl⟩
    | some session =>
      simp only [step]
      split_ifs <;> exact ⟨rfl, rfl, rfl⟩
  | stream =>
    cases session with
    | none => exact ⟨rfl, rfl, rfl⟩
    | some session => cases queue <;> exact ⟨rfl, rfl, rfl⟩
  | lag missed now => cases session <;> exact ⟨rfl, rfl, rfl⟩
  | receive =>
    cases wire with
    | nil => exact ⟨rfl, rfl, rfl⟩
    | cons msg wire => cases msg <;> cases session <;> exact ⟨rfl, rfl, rfl⟩

end TerminalStep

namespace Hub

variable [DecidableEq ι] [LinearOrder D] [Zero D] [Add D] [Fintype ι]

omit [DecidableEq ι] [LinearOrder D] [Zero D] [Add D] in
theorem counted_start (bucketing : Bucketing) (capacity : ℕ) (cooldownMs : ℤ) :
    Counted (start ι bucketing capacity cooldownMs : Hub ι D) 0 0 where
  connected := by simp [start, live, Terminal.new, Metrics.new, wrapI64]
  total := rfl
  broadcast := rfl
  lagged := rfl

/-- One move, and what it lost, keep the counters counting. -/
theorem Counted.step {h : Hub ι D} {connects announced : ℕ}
    (hcounted : Counted h connects announced) (auth : Auth) (move : HubMove ι D) :
    Counted (h.step auth move) (connects + if move.isConnect then 1 else 0)
      (announced + (h.loss move).announced) := by
  obtain ⟨hconnected, htotal, hbroadcast, hlagged⟩ := hcounted
  cases move with
  | venue input => exact ⟨hconnected, htotal, hbroadcast, hlagged⟩
  | fold =>
    obtain ⟨connector, channel, state, held, terminals, metrics, folded⟩ := h
    rcases held with - | event
    · cases channel with
      | nil => exact ⟨hconnected, htotal, hbroadcast, hlagged⟩
      | cons event channel =>
        refine ⟨hconnected, htotal, ?_, hlagged⟩
        change (metrics.eventsBroadcast + 1) % 2 ^ 64 = (folded ++ [event]).length % 2 ^ 64
        rw [hbroadcast, Nat.mod_add_mod, List.length_append, List.length_singleton]
    · exact ⟨hconnected, htotal, hbroadcast, hlagged⟩
  | broadcast =>
    obtain ⟨connector, channel, state, held, terminals, metrics, folded⟩ := h
    cases held <;> exact ⟨hconnected, htotal, hbroadcast, hlagged⟩
  | terminal i move =>
    obtain ⟨others, hothers⟩ := exists_live_update h.terminals i
    have hbefore := hothers (h.terminals i)
    rw [Function.update_eq_self] at hbefore
    obtain ⟨hb, ht, hl⟩ :=
      @Terminal.step_counters D _ _ auth h.state (h.terminals i) h.metrics move
    refine ⟨?_, ?_, hb.trans hbroadcast, ?_⟩
    · change (Terminal.step auth h.state _ h.metrics move).2.terminalsConnected =
        wrapI64 (live (Function.update h.terminals i _))
      rw [hothers, Nat.cast_add]
      refine Terminal.step_connected _ ?_ move
      rw [hconnected, hbefore, Nat.cast_add]
    · refine ht.trans ?_
      rw [htotal]
      cases move with
      | connect => exact Nat.mod_add_mod _ _ _
      | _ => rfl
    · refine hl.trans ?_
      rw [hlagged]
      cases move with
      | lag missed now =>
        simp only [loss]
        split_ifs
        · exact Nat.mod_add_mod _ _ _
        · rfl
      | _ => rfl

theorem Counted.run {h : Hub ι D} {connects announced : ℕ} (hcounted : Counted h connects announced)
    (auth : Auth) (moves : List (HubMove ι D)) :
    Counted ((machine ι auth).run h moves) (connects + moves.countP HubMove.isConnect)
      (announced + (((machine ι auth).outputs h moves).map Loss.announced).sum) := by
  induction moves generalizing h connects announced with
  | nil => exact hcounted
  | cons move moves ih =>
    have hrest := ih (hcounted.step auth move)
    rw [List.countP_cons, Machine.outputs_cons, List.map_cons, List.sum_cons,
      Nat.add_comm (List.countP _ _), ← Nat.add_assoc, ← Nat.add_assoc]
    exact hrest

omit [Fintype ι] in
/-- A lag is told to its terminal and counted in full. -/
theorem dropped_le_announced (auth : Auth) (h : Hub ι D) (moves : List (HubMove ι D)) :
    (((machine ι auth).outputs h moves).map Loss.dropped).sum ≤
      (((machine ι auth).outputs h moves).map Loss.announced).sum := by
  induction moves generalizing h with
  | nil => exact le_rfl
  | cons move moves ih =>
    have hone : (h.loss move).dropped ≤ (h.loss move).announced := by
      fun_cases loss h move with
      | case1 => exact Nat.min_le_left _ _
      | _ => exact le_rfl
    rw [Machine.outputs_cons, List.map_cons, List.map_cons, List.sum_cons, List.sum_cons]
    exact Nat.add_le_add hone (ih _)

/-- **The counters.** After any run, of any number of terminals, the gauge is the number of
sessions that are open, and the three totals are the handshakes that were made, the events that
were published and the events that terminals were told they had lost; which is at least what they
did lose. -/
theorem counted (auth : Auth) (bucketing : Bucketing) (capacity : ℕ) (cooldownMs : ℤ)
    (moves : List (HubMove ι D)) :
    let h := (machine ι auth).run (start ι bucketing capacity cooldownMs) moves
    let lost := (machine ι auth).outputs (start ι bucketing capacity cooldownMs : Hub ι D) moves
    h.metrics.terminalsConnected =
        wrapI64 (Finset.univ.filter fun i => (h.terminals i).session.isSome = true).card ∧
      h.metrics.terminalsTotal = moves.countP HubMove.isConnect % 2 ^ 64 ∧
      h.metrics.eventsBroadcast = h.folded.length % 2 ^ 64 ∧
      h.metrics.eventsLaggedTotal = (lost.map Loss.announced).sum % 2 ^ 64 ∧
      (lost.map Loss.dropped).sum ≤ (lost.map Loss.announced).sum := by
  intro h lost
  have hcounted := (counted_start bucketing capacity cooldownMs).run auth moves
  rw [Nat.zero_add, Nat.zero_add] at hcounted
  exact ⟨hcounted.connected, hcounted.total, hcounted.broadcast, hcounted.lagged,
    dropped_le_announced auth _ moves⟩

end Hub

end MoonCore
