import MoonCore.ForMathlib.FreshLog
import MoonCore.Machine.Run
import MoonCore.Terminal.Feed

/-!
# The terminal's connection to a core

`terminal::feed`: the thread of `Feed::spawn`, its `run` and its `session`. `Client.machine` takes
one step per call of the socket, the clock or the runtime, whatever their outcome; between two
steps the UI may look at the `Panel`.

The panel says where the thread is, keeps the history and the log over every reconnect, and shows
the books of one connection only (`Client.one_connection`); what stays in the log is
`Client.log_kept`.
-/

namespace MoonCore

/-- Connection events kept for the log panel. -/
def logDepth : ℕ := 300

/-- How the connection to the core stands. -/
inductive Status where
  | connecting
  | live
  /-- Terminal state: the core refused us. Retrying would not help. -/
  | refused (why : String)
  | lost (why : String)
  deriving DecidableEq

/-- How the panel names it. -/
def Status.label : Status → String
  | .connecting => "connecting"
  | .live => "live"
  | .refused why => "refused: " ++ why
  | .lost why => "reconnecting: " ++ why

/-- How much a line of the log matters. -/
inductive LogLevel where
  | info
  | warn
  deriving DecidableEq

/-- The level a change of status is reported at. -/
def Status.level : Status → LogLevel
  | .live => .info
  | _ => .warn

/-- One line in the log panel. -/
structure LogLine where
  time : ℤ
  text : String
  level : LogLevel
  deriving DecidableEq

/-- What the UI reads. -/
structure Panel (D : Type*) where
  status : Status
  feed : FeedState D
  /-- Newest first. -/
  log : List LogLine

variable {D : Type*}

/-- Put a line in the log, unless it repeats the newest. -/
def Panel.pushLog (self : Panel D) (line : LogLine) : Panel D :=
  if self.log.head?.any fun newest => newest.text = line.text then self
  else { self with log := (line :: self.log).take logDepth }

/-- The line a change of status is reported in. -/
def Status.line (now : ℤ) (status : Status) : LogLine := ⟨now, status.label, status.level⟩

/-- Take a new status, and say so in the log. -/
def Panel.setStatus (self : Panel D) (now : ℤ) (status : Status) : Panel D :=
  { self with status := status }.pushLog (status.line now)

section

variable [LinearOrder D] [Zero D]

/-- The line an event is reported in, if it is. -/
def FeedState.line (self : FeedState D) (now : ℤ) (event : Event D) : Option LogLine :=
  match event.payload with
  | .market (.bookDelta delta) =>
    if (self.books delta.symbol.key).isSome &&
        (foldBook self.books (.bookDelta delta) delta.symbol.key).isNone then
      some ⟨now, delta.symbol.key ++ " desynced, waiting for a snapshot", .warn⟩
    else none
  | .connection (.resyncing reason) => some ⟨now, reason, .info⟩
  | .connection .ready => some ⟨now, "core feed ready", .info⟩
  | .connection (.disconnected reason) =>
    some ⟨now, "core lost its venue feed: " ++ reason, .warn⟩
  | _ => none

/-- `apply`, with its lines of the log. -/
def Panel.apply (self : Panel D) (now : ℤ) (event : Event D) : Panel D :=
  (self.feed.line now event).toList.foldl Panel.pushLog { self with feed := self.feed.apply event }

end

/-- Two copies agree on all but their books and what the core said last. -/
structure FeedState.SameHistory (a b : FeedState D) : Prop where
  trades : a.trades = b.trades
  tape : a.tape = b.tape
  candles : a.candles = b.candles

/-- No history depends on the books. -/
theorem FeedState.SameHistory.apply [LinearOrder D] [Zero D] {a b : FeedState D}
    (h : a.SameHistory b) (event : Event D) : (a.apply event).SameHistory (b.apply event) := by
  obtain ⟨htrades, htape, hcandles⟩ := h
  rcases event with ⟨ts, market | account | health⟩
  · cases market with
    | trade trade =>
      simp only [FeedState.apply, htrades, htape]
      exact ⟨rfl, rfl, hcandles⟩
    | candle candle =>
      simp only [FeedState.apply, hcandles]
      exact ⟨htrades, htape, rfl⟩
    | bookDelta delta =>
      simp only [FeedState.apply]
      split_ifs <;> exact ⟨htrades, htape, hcandles⟩
    | _ => exact ⟨htrades, htape, hcandles⟩
  · exact ⟨htrades, htape, hcandles⟩
  · cases health <;> exact ⟨htrades, htape, hcandles⟩

/-! ### The thread -/

/-- The name of a variant, as `{code:?}` prints it. -/
def ErrorCode.debug : ErrorCode → String
  | .protocolMismatch => "ProtocolMismatch"
  | .unauthorized => "Unauthorized"
  | .notAuthenticated => "NotAuthenticated"
  | .malformed => "Malformed"
  | .tooLarge => "TooLarge"

/-- Why a session ended. -/
inductive Refusal where
  | fatal (why : String)
  | transient (why : String)

/-- What the read side of the socket came up with. -/
inductive Heard (D : Type*) where
  | message (msg : ServerMsg D)
  /-- A frame that does not decode, or of a kind that carries no message. -/
  | skipped
  /-- A close frame, or the end of the stream. -/
  | closed
  | broken (why : String)

/-- Where the thread is. -/
inductive Client.Phase where
  /-- Building its runtime. -/
  | spawning
  /-- At the top of the loop of `run`. -/
  | starting
  /-- In `connect_async`. -/
  | connecting
  /-- Sending Hello. -/
  | greeting
  | reading
  /-- Sending Subscribe, after a Welcome. -/
  | subscribing
  /-- The session is over, and its books are about to be cleared. -/
  | clearing
  | sleeping
  /-- Returned. -/
  | stopped
  deriving DecidableEq

/-- The thread and what it has published. The last three fields are history: no step reads
them. -/
structure Client (D : Type*) where
  phase : Client.Phase
  panel : Panel D
  /-- Every line reported, oldest first. -/
  lines : List LogLine
  /-- Events of the connection whose books are on the panel. -/
  session : List (Event D)
  /-- Events of every connection so far. -/
  events : List (Event D)

namespace Client

/-- What can happen next, and when. -/
inductive Op (D : Type*) where
  | runtime (now : ℤ) (failed : Option String)
  | start (now : ℤ)
  | connect (now : ℤ) (failed : Option String)
  | greet (now : ℤ) (failed : Option Refusal)
  | hear (now : ℤ) (heard : Heard D)
  | subscribe (now : ℤ) (failed : Option Refusal)
  | clear
  | wake

/-- A status is published. -/
def setStatus (s : Client D) (now : ℤ) (status : Status) : Client D :=
  { s with panel := s.panel.setStatus now status, lines := s.lines ++ [status.line now] }

/-- The session is over. -/
def finish (s : Client D) (now : ℤ) : Except Refusal Unit → Client D
  -- a rejected token will be rejected again; stop rather than hammer the core
  | .error (.fatal why) => { s.setStatus now (.refused why) with phase := .stopped }
  | .error (.transient why) => { s.setStatus now (.lost why) with phase := .clearing }
  | .ok () => { s.setStatus now (.lost "core closed the connection") with phase := .clearing }

section

variable [LinearOrder D] [Zero D]

/-- A thread just started. -/
def new : Client D := ⟨.spawning, ⟨.connecting, .new, []⟩, [], [], []⟩

/-- One turn of the loop of `session`. -/
def hear (s : Client D) (now : ℤ) : Heard D → Client D
  | .message (.welcome _) => { s with phase := .subscribing }
  | .message (.failed code message) =>
    let why := code.debug ++ ": " ++ message
    s.finish now (.error (if code.isFatal then .fatal why else .transient why))
  | .message (.pong _) => s
  | .message (.event event) =>
    { s with
      panel := s.panel.apply now event
      lines := s.lines ++ (s.panel.feed.line now event).toList
      session := s.session ++ [event]
      events := s.events ++ [event] }
  | .skipped => s
  | .closed => s.finish now (.ok ())
  | .broken why => s.finish now (.error (.transient why))

/-- One step. -/
def step (s : Client D) (op : Op D) : Client D :=
  match op, s.phase with
  | .runtime _ none, .spawning => { s with phase := .starting }
  | .runtime now (some why), .spawning => { s.setStatus now (.refused why) with phase := .stopped }
  | .start now, .starting => { s.setStatus now .connecting with phase := .connecting }
  | .connect _ none, .connecting => { s with phase := .greeting }
  | .connect now (some why), .connecting => s.finish now (.error (.transient why))
  | .greet _ none, .greeting => { s with phase := .reading }
  | .greet now (some refusal), .greeting => s.finish now (.error refusal)
  | .hear now heard, .reading => s.hear now heard
  | .subscribe now none, .subscribing => { s.setStatus now .live with phase := .reading }
  | .subscribe now (some refusal), .subscribing => s.finish now (.error refusal)
  | .clear, .clearing =>
    { s with
      panel := { s.panel with feed := s.panel.feed.dropBooks }
      phase := .sleeping
      session := [] }
  | .wake, .sleeping => { s with phase := .starting }
  | _, _ => s

/-- The thread, stepping on what happens next. -/
def machine : Machine (Client D) (Op D) Unit := ⟨fun s op => (s.step op, ())⟩

end

/-! ### The log -/

/-- The log is what is left of all that was reported. -/
def Logged (s : Client D) : Prop :=
  s.panel.log = s.lines.foldl (pushFresh (fun a b => a.text ≠ b.text) logDepth) []

theorem log_pushLog (panel : Panel D) (line : LogLine) :
    (panel.pushLog line).log =
      pushFresh (fun a b => a.text ≠ b.text) logDepth panel.log line := by
  simp only [Panel.pushLog, pushFresh, not_not]
  split_ifs <;> rfl

theorem feed_pushLog (panel : Panel D) (line : LogLine) :
    (panel.pushLog line).feed = panel.feed ∧ (panel.pushLog line).status = panel.status := by
  rw [Panel.pushLog]
  split_ifs <;> exact ⟨rfl, rfl⟩

theorem Logged.setStatus {s : Client D} (h : s.Logged) (now : ℤ) (status : Status) :
    (s.setStatus now status).Logged := by
  rw [Logged, Client.setStatus, List.foldl_append, ← h]
  exact log_pushLog _ _

theorem Logged.finish {s : Client D} (h : s.Logged) (now : ℤ) (result : Except Refusal Unit) :
    (s.finish now result).Logged := by
  rcases result with (why | why) | - <;> exact h.setStatus now _

variable [LinearOrder D] [Zero D]

theorem log_apply (panel : Panel D) (now : ℤ) (event : Event D) :
    (panel.apply now event).log = (panel.feed.line now event).toList.foldl
      (pushFresh (fun a b => a.text ≠ b.text) logDepth) panel.log := by
  rw [Panel.apply]
  cases panel.feed.line now event with
  | none => rfl
  | some line => exact log_pushLog _ line

theorem Logged.hear {s : Client D} (h : s.Logged) (now : ℤ) (heard : Heard D) :
    (s.hear now heard).Logged := by
  rcases heard with (_ | event | _ | ⟨code, message⟩) | _ | _ | why
  · exact h
  · change (s.panel.apply now event).log =
      (s.lines ++ (s.panel.feed.line now event).toList).foldl _ []
    rw [List.foldl_append, ← h]
    exact log_apply s.panel now event
  · exact h
  · exact h.finish now _
  · exact h
  · exact h.finish now _
  · exact h.finish now _

theorem Logged.step {s : Client D} (h : s.Logged) (op : Op D) : (s.step op).Logged := by
  unfold Client.step
  split
  · exact h
  · exact h.setStatus _ _
  · exact h.setStatus _ _
  · exact h
  · exact h.finish _ _
  · exact h
  · exact h.finish _ _
  · exact h.hear _ _
  · exact h.setStatus _ _
  · exact h.finish _ _
  · exact h
  · exact h
  · exact h

/-- **The log keeps what the status indicator forgets.** After every run of the terminal's thread,
over any number of connections, the log is every line reported so far (each change of status, each
health event of the core, each book that was torn), newest first, less the lines that repeat the
one before and cut off at the newest `logDepth`. -/
theorem log_kept (ops : List (Op D)) :
    let s := machine.run new ops
    s.panel.log =
      ((s.lines.destutter fun a b => a.text ≠ b.text).reverse.take logDepth) := by
  intro s
  have h : s.Logged := machine.run_invariant (I := Logged) (fun _ op hs => hs.step op)
    (s := new) rfl ops
  rw [h, foldl_pushFresh _ (by decide)]

/-! ### One connection at a time -/

/-- What a status says of where the thread is. -/
def Phase.Shows : Phase → Status → Prop
  | .spawning, status => status = .connecting
  | .starting, status => status = .connecting ∨ ∃ why, status = .lost why
  | .connecting, status => status = .connecting
  | .greeting, status => status = .connecting
  | .reading, status => status = .connecting ∨ status = .live
  | .subscribing, status => status = .connecting ∨ status = .live
  | .clearing, status => ∃ why, status = .lost why
  | .sleeping, status => ∃ why, status = .lost why
  | .stopped, status => ∃ why, status = .refused why

/-- No session is under way, and none has left anything behind. -/
def Phase.Idle : Phase → Prop
  | .reading => False
  | .subscribing => False
  | .clearing => False
  | .stopped => False
  | _ => True

/-- What the panel shows is of one connection, or of all of them. -/
structure Shown (s : Client D) : Prop where
  status : s.phase.Shows s.panel.status
  idle : s.phase.Idle → s.session = []
  recent : s.session <:+ s.events
  books : s.panel.feed.books = s.session.foldl foldBooks fun _ => none
  kept : s.panel.feed.SameHistory (s.events.foldl FeedState.apply .new)

theorem feed_apply (panel : Panel D) (now : ℤ) (event : Event D) :
    (panel.apply now event).feed = panel.feed.apply event ∧
      (panel.apply now event).status = panel.status := by
  rw [Panel.apply]
  cases panel.feed.line now event with
  | none => exact ⟨rfl, rfl⟩
  | some line => exact feed_pushLog _ line

/-- A new status, with the phase it goes with. -/
theorem Shown.setStatus {s : Client D} (h : s.Shown) (now : ℤ) {status : Status} {phase : Phase}
    (hshows : phase.Shows status) (hidle : phase.Idle → s.session = []) :
    ({ s.setStatus now status with phase := phase } : Client D).Shown := by
  obtain ⟨hfeed, hstatus⟩ := feed_pushLog { s.panel with status := status } (status.line now)
  refine ⟨?_, hidle, h.recent, ?_, ?_⟩
  · change phase.Shows (Panel.pushLog _ _).status
    rwa [hstatus]
  · change (Panel.pushLog _ _).feed.books = _
    rw [hfeed]
    exact h.books
  · change (Panel.pushLog _ _).feed.SameHistory _
    rw [hfeed]
    exact h.kept

theorem Shown.finish {s : Client D} (h : s.Shown) (now : ℤ) (result : Except Refusal Unit) :
    (s.finish now result).Shown := by
  rcases result with (why | why) | -
  · exact h.setStatus now ⟨why, rfl⟩ False.elim
  · exact h.setStatus now ⟨why, rfl⟩ False.elim
  · exact h.setStatus now ⟨_, rfl⟩ False.elim

/-- Nothing but the phase changes. -/
theorem Shown.move {s : Client D} (h : s.Shown) {phase : Phase}
    (hshows : phase.Shows s.panel.status) (hidle : phase.Idle → s.session = []) :
    ({ s with phase := phase } : Client D).Shown :=
  { h with status := hshows, idle := hidle }

theorem Shown.hear {s : Client D} (h : s.Shown) (hphase : s.phase = .reading) (now : ℤ)
    (heard : Heard D) : (s.hear now heard).Shown := by
  have hstatus := h.status
  rw [hphase] at hstatus
  rcases heard with (_ | event | _ | ⟨code, message⟩) | _ | _ | why
  · exact h.move hstatus False.elim
  · obtain ⟨hfeed, hkept⟩ := feed_apply s.panel now event
    refine ⟨?_, ?_, ?_, ?_, ?_⟩
    · change s.phase.Shows (s.panel.apply now event).status
      rw [hkept]
      exact h.status
    · intro hidle
      change s.phase.Idle at hidle
      rw [hphase] at hidle
      exact hidle.elim
    · exact List.suffix_append_self_iff.mpr h.recent
    · change (s.panel.apply now event).feed.books = (s.session ++ [event]).foldl _ _
      rw [hfeed, FeedState.apply_books, h.books, List.foldl_append]
      rfl
    · change (s.panel.apply now event).feed.SameHistory ((s.events ++ [event]).foldl _ _)
      rw [hfeed, List.foldl_append]
      exact h.kept.apply event
  · exact h
  · exact h.finish now _
  · exact h
  · exact h.finish now (.ok ())
  · exact h.finish now (.error (.transient why))

theorem Shown.step {s : Client D} (h : s.Shown) (op : Op D) : (s.step op).Shown := by
  have hstatus {phase : Phase} (hphase : s.phase = phase) : phase.Shows s.panel.status :=
    hphase ▸ h.status
  have hidle {phase : Phase} (hphase : s.phase = phase) : phase.Idle → s.session = [] :=
    hphase ▸ h.idle
  unfold Client.step
  split
  · next hphase => exact h.move (.inl (hstatus hphase)) fun _ => hidle hphase trivial
  · exact h.setStatus _ ⟨_, rfl⟩ False.elim
  · next hphase => exact h.setStatus _ rfl fun _ => hidle hphase trivial
  · next hphase =>
    have hconnecting := hstatus hphase
    exact h.move hconnecting fun _ => hidle hphase trivial
  · exact h.finish _ _
  · next hphase => exact h.move (.inl (hstatus hphase)) False.elim
  · exact h.finish _ _
  · next hphase => exact h.hear hphase _ _
  · exact h.setStatus _ (.inr rfl) False.elim
  · exact h.finish _ _
  · next hphase =>
    have hlost := hstatus hphase
    exact ⟨hlost, fun _ => rfl, List.nil_suffix, rfl, h.kept.1, h.kept.2, h.kept.3⟩
  · next hphase => exact h.move (.inr (hstatus hphase)) fun _ => hidle hphase trivial
  · exact h

theorem run_of_stopped {s : Client D} (h : s.phase = .stopped) (ops : List (Op D)) :
    machine.run s ops = s := by
  induction ops with
  | nil => rfl
  | cons op ops ih =>
    have hstep : machine.next s op = s := by
      change s.step op = s
      unfold Client.step
      split <;> first | rfl | (rename_i hphase; rw [h] at hphase; cases hphase)
    rw [Machine.run_cons, hstep, ih]

/-- **The panel shows one connection at a time.** After every run of the terminal's thread, however
its connections came and went: the status says where the thread is; the books are what the events
of one connection fold into, which stand until they are cleared and after a final refusal, and
there are none from then on until the next session; trades, tape and bars are what all events of
all connections fold into; and a thread that was refused for good never changes anything again. -/
theorem one_connection (ops : List (Op D)) :
    let s : Client D := machine.run new ops
    s.Shown ∧ (s.phase = .stopped → ∀ later, machine.run s later = s) := by
  have hnew : (new : Client D).Shown :=
    ⟨rfl, fun _ => rfl, List.suffix_rfl, rfl, ⟨rfl, rfl, rfl⟩⟩
  exact ⟨machine.run_invariant (I := Shown) (fun _ op hs => hs.step op) hnew ops, run_of_stopped⟩

end Client

end MoonCore
