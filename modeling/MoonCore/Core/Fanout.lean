import MoonCore.Core.Pump
import MoonCore.Terminal.Feed
import MoonCore.Wire.Session

/-!
# The core and one of its terminals

`core::main`, `core::server` and `terminal::feed` together: the connector publishes into a
channel; the pump takes one event at a time, folds it into the read-model and then broadcasts
it; a session holds its own queue of the broadcast, sends on what its terminal wants, and after
every message of the terminal hands over what the read-model holds for its subscriptions; the
terminal folds what it receives into its copy, which survives a reconnect except for its books.

A run is any interleaving of these moves. A lag drops the oldest part of a session's queue.
-/

namespace MoonCore

variable {D : Type*}

/-- The core, one session, the socket and the terminal. The last field is history: no move reads
it. -/
structure Fanout (D : Type*) where
  connector : Connector D
  /-- Published, and not taken by the pump yet. -/
  channel : List (Event D)
  state : MarketState D
  /-- Folded, and not broadcast yet. -/
  held : Option (Event D)
  session : Option Session
  /-- Broadcast, and not taken by the session yet. -/
  queue : List (Event D)
  /-- Sent, and not received by the terminal yet. -/
  wire : List (ServerMsg D)
  feed : FeedState D
  /-- Every event the pump has folded, oldest first. -/
  folded : List (Event D)

/-- What can happen next. -/
inductive Move (D : Type*) where
  /-- The venue's socket has something for the connector. -/
  | venue (input : Input D)
  /-- The pump takes an event and folds it. -/
  | fold
  /-- The pump broadcasts it. -/
  | broadcast
  /-- The terminal opens a connection. -/
  | connect
  /-- The session handles a binary frame: a message, or what its decoder says is wrong. -/
  | client (msg : Except String ClientMsg) (now : Timestamp)
  /-- The session takes an event from its queue. -/
  | stream
  /-- The session learns that it has fallen behind. -/
  | lag (missed : ℕ) (now : Timestamp)
  /-- The terminal takes a message from the socket. -/
  | receive
  /-- The socket dies. -/
  | disconnect

/-- Whether a move drops events. -/
def Move.isLag : Move D → Bool
  | .lag _ _ => true
  | _ => false

/-- What a session sends after each message of its terminal. -/
def handOver (state : MarketState D) (subs : List Subscription) (now : Timestamp) :
    List (Event D) :=
  (state.tapeFor subs).map (fun trade => .market now (.trade trade)) ++
    (state.candlesFor subs).map (fun candle => .market now (.candle candle)) ++
    (state.snapshotsFor subs).map fun book => .market now (.bookSnapshot book)

namespace Fanout

/-- The events among some messages. -/
def events (wire : List (ServerMsg D)) : List (Event D) :=
  wire.filterMap fun
    | .event event => some event
    | _ => none

theorem events_append (wire later : List (ServerMsg D)) :
    events (wire ++ later) = events wire ++ events later := List.filterMap_append

@[simp]
theorem events_map_event (sent : List (Event D)) : events (sent.map .event) = sent := by
  induction sent with
  | nil => rfl
  | cons event sent ih => exact congrArg (event :: ·) ih

theorem events_reply {reply : ServerMsg D} (hreply : ∀ event, reply ≠ .event event)
    (wire : List (ServerMsg D)) : events (reply :: wire) = events wire := by
  cases reply with
  | event event => exact absurd rfl (hreply event)
  | _ => rfl

/-- A core that has just started, and a terminal that has never been connected. -/
def start (bucketing : Bucketing) (capacity : ℕ) (cooldownMs : ℤ) : Fanout D :=
  ⟨.new bucketing capacity cooldownMs, [], .new, none, none, [], [], .new, []⟩

/-- Both ends of a connection are gone, and with it what was on the way. -/
def hangUp (s : Fanout D) : Fanout D :=
  { s with session := none, queue := [], wire := [], feed := s.feed.dropBooks }

/-- A session that has handled a message replies, and hands over unless it closes. -/
def answer (s : Fanout D) (session : Session) (reaction : Reaction D) (now : Timestamp) :
    Fanout D :=
  let wire := s.wire ++ [reaction.reply]
  if reaction.close then { s with session := none, queue := [], wire := wire }
  else
    { s with
      session := some session
      wire := wire ++ (handOver s.state session.subscriptions now).map .event }

/-- The notice a lag leaves. -/
def lagNotice (missed : ℕ) (now : Timestamp) : Event D :=
  .connection now (.resyncing s!"terminal fell behind, {missed} events dropped")

variable [LinearOrder D] [Zero D]

/-- The terminal takes a message. -/
def deliver (s : Fanout D) : ServerMsg D → Fanout D
  | .event event => { s with feed := s.feed.apply event }
  | .failed _ _ => s.hangUp
  | _ => s

variable [Add D]

/-- One move. -/
def step (auth : Auth) (s : Fanout D) : Move D → Fanout D
  | .venue input =>
    let (connector, events) := s.connector.step input
    { s with connector := connector, channel := s.channel ++ events }
  | .fold =>
    match s.held, s.channel with
    | none, event :: channel =>
      { s with
        channel := channel
        state := s.state.apply event
        held := some event
        folded := s.folded ++ [event] }
    | _, _ => s
  | .broadcast =>
    match s.held with
    | some event =>
      -- without a session nobody holds a receiver
      { s with held := none, queue := if s.session.isSome then s.queue ++ [event] else [] }
    | none => s
  | .connect => { s.hangUp with session := some .new }
  | .client msg now =>
    match s.session with
    | some session =>
      let (after, reaction) := session.receive auth msg
      s.answer after reaction now
    | none => s
  | .stream =>
    match s.session, s.queue with
    | some session, event :: queue =>
      { s with
        queue := queue
        wire := if session.wants event then s.wire ++ [.event event] else s.wire }
    | _, _ => s
  | .lag missed now =>
    if s.session.isSome then
      { s with queue := s.queue.drop missed, wire := s.wire ++ [.event (lagNotice missed now)] }
    else s
  | .receive =>
    match s.wire with
    | msg :: wire => { s with wire := wire }.deliver msg
    | [] => s
  | .disconnect => s.hangUp

/-- The system, stepping on moves. -/
def machine (auth : Auth) : Machine (Fanout D) (Move D) Unit :=
  ⟨fun s move => (s.step auth move, ())⟩

/-- What a move does. -/
inductive Steps (auth : Auth) (s : Fanout D) : Move D → Fanout D → Prop
  /-- There is nothing to do; for a message, because nobody is there to handle it. -/
  | rest {move : Move D} (hvenue : ∀ input, move ≠ .venue input)
      (hmove : ∀ msg now, move = .client msg now → s.session = none) : Steps auth s move s
  | venue (input : Input D) : Steps auth s (.venue input)
      { s with
        connector := (s.connector.step input).1
        channel := s.channel ++ (s.connector.step input).2 }
  | fold {event : Event D} {channel : List (Event D)} (hheld : s.held = none)
      (hchannel : s.channel = event :: channel) : Steps auth s .fold
      { s with
        channel := channel
        state := s.state.apply event
        held := some event
        folded := s.folded ++ [event] }
  | broadcast {event : Event D} {session : Session} (hheld : s.held = some event)
      (hsession : s.session = some session) : Steps auth s .broadcast
      { s with held := none, queue := s.queue ++ [event] }
  | unheard {event : Event D} (hheld : s.held = some event) (hsession : s.session = none) :
      Steps auth s .broadcast { s with held := none, queue := [] }
  | connect : Steps auth s .connect { s.hangUp with session := some .new }
  | answer {session after : Session} {msg : Except String ClientMsg} {reply : ServerMsg D}
      (hsession : s.session = some session)
      (hreceive : session.receive auth msg = (after, ⟨reply, false⟩))
      (hreply : ∀ event, reply ≠ .event event) (now : Timestamp) : Steps auth s (.client msg now)
      { s with
        session := some after
        wire := s.wire ++ reply ::
          (handOver s.state after.subscriptions now).map .event }
  | close {session : Session} {msg : Except String ClientMsg} {reply : ServerMsg D}
      (hsession : s.session = some session) (hreply : ∀ event, reply ≠ .event event)
      (now : Timestamp) : Steps auth s (.client msg now)
        { s with session := none, queue := [], wire := s.wire ++ [reply] }
  | stream {session : Session} {event : Event D} {queue : List (Event D)}
      (hsession : s.session = some session) (hqueue : s.queue = event :: queue)
      (hwants : session.wants event = true) : Steps auth s .stream
      { s with queue := queue, wire := s.wire ++ [.event event] }
  | skip {session : Session} {event : Event D} {queue : List (Event D)}
      (hsession : s.session = some session) (hqueue : s.queue = event :: queue)
      (hwants : session.wants event = false) : Steps auth s .stream { s with queue := queue }
  | lag {session : Session} (hsession : s.session = some session) (missed : ℕ)
      (now : Timestamp) : Steps auth s (.lag missed now)
      { s with queue := s.queue.drop missed, wire := s.wire ++ [.event (lagNotice missed now)] }
  | receive {event : Event D} {wire : List (ServerMsg D)} (hwire : s.wire = .event event :: wire) :
      Steps auth s .receive { s with wire := wire, feed := s.feed.apply event }
  | refused {code : ErrorCode} {text : String} {wire : List (ServerMsg D)}
      (hwire : s.wire = .failed code text :: wire) : Steps auth s .receive s.hangUp
  | ignore {msg : ServerMsg D} {wire : List (ServerMsg D)} (hwire : s.wire = msg :: wire)
      (hmsg : ∀ event, msg ≠ .event event) : Steps auth s .receive { s with wire := wire }
  | disconnect : Steps auth s .disconnect s.hangUp

theorem steps_step (auth : Auth) (s : Fanout D) (move : Move D) :
    Steps auth s move (s.step auth move) := by
  fun_cases step auth s move with
  | case1 input connector events hstep =>
    have hsteps : Steps auth s (.venue input) _ := .venue input
    rw [hstep] at hsteps
    exact hsteps
  | case2 event channel hchannel hheld => exact .fold hheld hchannel
  | case4 event hheld =>
    split_ifs with hopen
    · obtain ⟨session, hsession⟩ := Option.isSome_iff_exists.mp hopen
      exact .broadcast hheld hsession
    · exact .unheard hheld (by simpa using hopen)
  | case6 => exact .connect
  | case7 msg now session hsession after reaction hreceive =>
    have hreply := session.receive_reply (D := D) auth msg
    rw [hreceive] at hreply
    obtain ⟨reply, close⟩ := reaction
    cases close with
    | true => exact .close hsession hreply now
    | false =>
      have hsteps := Steps.answer hsession hreceive hreply now
      rw [answer]
      simpa using hsteps
  | case9 session event queue hqueue hsession =>
    cases hwants : session.wants event with
    | false => exact .skip hsession hqueue hwants
    | true => exact .stream hsession hqueue hwants
  | case11 missed now hsession =>
    obtain ⟨session, hsession⟩ := Option.isSome_iff_exists.mp hsession
    exact .lag hsession missed now
  | case13 msg wire hwire =>
    cases msg with
    | event event => exact .receive hwire
    | failed code text => exact .refused hwire
    | welcome protocol => exact .ignore hwire (by simp)
    | pong nonce => exact .ignore hwire (by simp)
  | case15 => exact .disconnect
  | case8 msg now hsession => exact .rest (by simp) fun _ _ _ => hsession
  | _ => exact .rest (by simp) fun _ _ hmove => by cases hmove

/-- What holds after everything a move can do holds after the move. -/
theorem next_of_steps {P : Fanout D → Prop} {auth : Auth} {s : Fanout D} {move : Move D}
    (h : ∀ after, Steps auth s move after → P after) : P ((machine auth).next s move) :=
  h _ (steps_step auth s move)

/-! ### The pump -/

/-- Events the session has still to take, or will have once the pump has broadcast. -/
def pending (s : Fanout D) : List (Event D) := s.queue ++ s.held.toList

/-- What the pump keeps, behind a connector that was `first` at the start: the read-model is the
fold of the events it has taken, these and the channel are what the connector has published, and
what a session has still to take is the last part of them. -/
structure Pumped (first : Connector D) (s : Fanout D) : Prop where
  state_eq : s.state = s.folded.foldl MarketState.apply .new
  published : ∃ inputs, s.connector = Connector.machine.run first inputs ∧
    s.folded ++ s.channel = first.published inputs
  pending : ∃ gone, s.folded = gone ++ s.pending

theorem pumped_start (bucketing : Bucketing) (capacity : ℕ) (cooldownMs : ℤ) :
    Pumped (.new bucketing capacity cooldownMs : Connector D)
      (start bucketing capacity cooldownMs) where
  state_eq := rfl
  published := ⟨[], rfl, rfl⟩
  pending := ⟨[], rfl⟩

theorem Pumped.next {first : Connector D} {s : Fanout D} (h : Pumped first s) (auth : Auth)
    (move : Move D) : Pumped first ((machine auth).next s move) := by
  refine next_of_steps fun after hsteps => ?_
  obtain ⟨hstate, hpublished, gone, hpending⟩ := h
  rw [Fanout.pending] at hpending
  -- where the receiver is dropped, only what is held will be broadcast
  have hdropped : s.folded = gone ++ s.queue ++ s.held.toList := by
    rw [hpending, List.append_assoc]
  cases hsteps with
  | venue input =>
    obtain ⟨inputs, hconnector, hevents⟩ := hpublished
    refine ⟨hstate, ⟨inputs ++ [input], ?_, ?_⟩, gone, hpending⟩
    · rw [Machine.run_concat, ← hconnector]
      rfl
    · rw [Connector.published, Machine.outputs_append, List.flatten_append, ← hconnector,
        ← Connector.published, ← hevents, List.append_assoc]
      simp only [Machine.outputs_cons, Machine.outputs_nil, List.flatten_cons, List.flatten_nil,
        List.append_nil]
      rfl
  | @fold event channel hheld hchannel =>
    refine ⟨?_, ?_, gone, ?_⟩
    · rw [List.foldl_append, ← hstate]
      rfl
    · rw [hchannel] at hpublished
      simpa only [List.append_assoc, List.singleton_append] using hpublished
    · rw [hheld, Option.toList_none, List.append_nil] at hpending
      rw [hpending, List.append_assoc]
      rfl
  | broadcast hheld =>
    refine ⟨hstate, hpublished, gone, ?_⟩
    rw [hpending, hheld]
    simp only [Fanout.pending, Option.toList_some, Option.toList_none, List.append_nil]
  | unheard => exact ⟨hstate, hpublished, s.folded, (List.append_nil _).symm⟩
  | @stream session event queue hsession hqueue =>
    refine ⟨hstate, hpublished, gone ++ [event], ?_⟩
    rw [hpending, hqueue]
    simp only [Fanout.pending, List.cons_append, List.append_assoc, List.nil_append]
  | @skip session event queue hsession hqueue =>
    refine ⟨hstate, hpublished, gone ++ [event], ?_⟩
    rw [hpending, hqueue]
    simp only [Fanout.pending, List.cons_append, List.append_assoc, List.nil_append]
  | lag hsession missed now =>
    refine ⟨hstate, hpublished, gone ++ s.queue.take missed, ?_⟩
    rw [Fanout.pending, List.append_assoc, ← List.append_assoc (s.queue.take missed),
      List.take_append_drop, hpending]
  | connect => exact ⟨hstate, hpublished, gone ++ s.queue, hdropped⟩
  | close => exact ⟨hstate, hpublished, gone ++ s.queue, hdropped⟩
  | refused => exact ⟨hstate, hpublished, gone ++ s.queue, hdropped⟩
  | disconnect => exact ⟨hstate, hpublished, gone ++ s.queue, hdropped⟩
  | _ => exact ⟨hstate, hpublished, gone, hpending⟩

theorem pumped_run (auth : Auth) (bucketing : Bucketing) (capacity : ℕ) (cooldownMs : ℤ)
    (moves : List (Move D)) :
    Pumped (.new bucketing capacity cooldownMs)
      ((machine auth).run (start bucketing capacity cooldownMs : Fanout D) moves) := by
  have hnext : ∀ (s : Fanout D) move, Pumped (.new bucketing capacity cooldownMs) s →
      Pumped (.new bucketing capacity cooldownMs) ((machine auth).next s move) :=
    fun s move hs => hs.next auth move
  exact Machine.run_invariant hnext (pumped_start bucketing capacity cooldownMs) moves

end Fanout

end MoonCore
