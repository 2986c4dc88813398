import Mathlib.Data.List.Infix
import MoonCore.Domain.Event
import MoonCore.Machine.Run

/-!
# The life of a connection

`binance::socket_task`, as far as connecting goes: one step per call of the socket, the clock or the
queue, however it turns out. What is subscribed over a reconnect is `Binance.Socket`, and what the
frames of a connection do to books and bars is `Binance.Connector`.

What consumers hear of the health of the feed is a word of a protocol (`Link.after`) and says where
the task is; the waits between two attempts double since the last one that opened
(`SocketTask.health_told`, `SocketTask.reconnects_paced`).
-/

namespace MoonCore

/-- Reconnect backoff bounds, in milliseconds. -/
def backoffStart : ℕ := 500

/-- The ceiling is low on purpose: a feed that is down is worse than a few extra connection
attempts. In milliseconds. -/
def backoffMax : ℕ := 30000

/-- Why a connection that had opened is given up. -/
inductive SocketTask.Loss where
  | subscribeWrite
  | unsubscribeWrite
  | streamEnded
  | broken (why : String)
  | pongWrite
  | serverClosed

/-- What the log says of a lost connection. -/
def SocketTask.Loss.reason : SocketTask.Loss → String
  | .subscribeWrite => "subscribe write failed"
  | .unsubscribeWrite => "unsubscribe write failed"
  | .streamEnded => "stream ended"
  | .broken why => why
  | .pongWrite => "pong write failed"
  | .serverClosed => "server closed"

/-- Where the socket task is. -/
inductive SocketTask.Phase where
  /-- At the top of its loop. -/
  | top
  /-- In `connect_async`. -/
  | connecting
  /-- Connected, and about to ask for everything again. -/
  | rearming
  /-- In the loop of `pump`. -/
  | pumping
  /-- The connection is over, and its books are reset. -/
  | lost
  /-- Sleeping off the backoff. -/
  | asleep
  | stopped
  deriving DecidableEq

/-- The socket task and what it sends to its sink. The last two fields are history: no step reads
them. -/
structure SocketTask where
  phase : SocketTask.Phase
  backoff : ℕ
  /-- What consumers hear of the health of the feed, oldest first. -/
  health : List ConnectionEvent
  /-- Whether each attempt to connect opened, newest first. -/
  attempts : List Bool
  /-- What was waited after each attempt, newest first. -/
  waits : List ℕ

namespace SocketTask

/-- What can happen next. -/
inductive Op where
  | dial
  | connect (failed : Option String)
  | rearm (failed : Bool)
  /-- A book is rebuilt, or has not moved for too long. -/
  | notice (reason : String)
  | lose (loss : Loss)
  /-- The connector is dropped. -/
  | shutdown
  /-- Whether anyone still listens is looked up. -/
  | leave (closed : Bool)
  | wake

/-- A task that has not connected yet. -/
def new : SocketTask := ⟨.top, backoffStart, [], [], []⟩

/-- An event is sent, and the task is somewhere else. -/
def send (s : SocketTask) (event : ConnectionEvent) (phase : Phase) : SocketTask :=
  { s with health := s.health ++ [event], phase := phase }

/-- One step. -/
def step (s : SocketTask) (op : Op) : SocketTask :=
  match op, s.phase with
  | .dial, .top => s.send .connecting .connecting
  | .connect none, .connecting =>
    { s with backoff := backoffStart, attempts := true :: s.attempts, phase := .rearming }
  | .connect (some why), .connecting =>
    { s with attempts := false :: s.attempts }.send (.disconnected why) .lost
  | .rearm false, .rearming => s.send .ready .pumping
  | .rearm true, .rearming => s.send (.disconnected "failed to resubscribe") .lost
  | .notice reason, .pumping => s.send (.resyncing reason) .pumping
  | .lose loss, .pumping => s.send (.disconnected loss.reason) .lost
  -- nobody is told that a connector is gone
  | .shutdown, .pumping => { s with phase := .stopped }
  | .leave true, .lost => { s with phase := .stopped }
  | .leave false, .lost => { s with waits := s.backoff :: s.waits, phase := .asleep }
  | .wake, .asleep => { s with backoff := min (s.backoff * 2) backoffMax, phase := .top }
  | _, _ => s

/-- The task, stepping on what happens next. -/
def machine : Machine SocketTask Op Unit := ⟨fun s op => (s.step op, ())⟩

end SocketTask

/-! ### What the health events say -/

/-- The feed, as far as a consumer of its health events can tell. -/
inductive Link where
  | down
  | dialing
  | up
  deriving DecidableEq

/-- What an event makes of the feed, where it may come. -/
def Link.after : Link → ConnectionEvent → Option Link
  | .down, .connecting => some .dialing
  | .dialing, .ready => some .up
  | .dialing, .disconnected _ => some .down
  | .up, .resyncing _ => some .up
  | .up, .disconnected _ => some .down
  | _, _ => none

namespace SocketTask

/-- What consumers were told when the task is there. -/
def Phase.Tells : Phase → Link → Prop
  | .top, link => link = .down
  | .connecting, link => link = .dialing
  | .rearming, link => link = .dialing
  | .pumping, link => link = .up
  | .lost, link => link = .down
  | .asleep, link => link = .down
  | .stopped, link => link ≠ .dialing

/-- What was sent is a word of the protocol, and tells where the task is. -/
def Told (s : SocketTask) : Prop :=
  ∃ link, s.health.foldlM Link.after .down = some link ∧ s.phase.Tells link

/-- One more event that may come. -/
theorem told_send {s : SocketTask} {before link : Link} {event : ConnectionEvent} {phase : Phase}
    (h : s.health.foldlM Link.after .down = some before) (hafter : before.after event = some link)
    (htells : phase.Tells link) : (s.send event phase).Told := by
  refine ⟨link, ?_, htells⟩
  rw [send, List.foldlM_append, h]
  change (before.after event >>= fun link => some link) = some link
  rw [hafter]
  rfl

theorem Told.step {s : SocketTask} (h : s.Told) (op : Op) : (s.step op).Told := by
  obtain ⟨link, hhealth, htells⟩ := h
  unfold SocketTask.step
  split
  all_goals try rw [‹s.phase = _›] at htells
  · exact told_send hhealth (by rw [htells]; rfl) rfl
  · exact ⟨link, hhealth, htells⟩
  · exact told_send hhealth (by rw [htells]; rfl) rfl
  · exact told_send hhealth (by rw [htells]; rfl) rfl
  · exact told_send hhealth (by rw [htells]; rfl) rfl
  · exact told_send hhealth (by rw [htells]; rfl) rfl
  · exact told_send hhealth (by rw [htells]; rfl) rfl
  · exact ⟨link, hhealth, by rw [htells]; exact nofun⟩
  · exact ⟨link, hhealth, by rw [htells]; exact nofun⟩
  · exact ⟨link, hhealth, htells⟩
  · exact ⟨link, hhealth, htells⟩
  · exact ⟨link, hhealth, htells⟩

/-! ### How long it waits -/

/-- How many attempts there were since the last one that opened, or since the first. -/
def since (attempts : List Bool) : ℕ := (attempts.findIdx? id).getD (attempts.length - 1)

/-- What is waited after these attempts, newest first. -/
def pace (attempts : List Bool) : ℕ := min backoffMax (backoffStart * 2 ^ since attempts)

/-- What was waited after each of these attempts. -/
def paces : List Bool → List ℕ
  | [] => []
  | opened :: attempts => pace (opened :: attempts) :: paces attempts

theorem since_true (attempts : List Bool) : since (true :: attempts) = 0 := rfl

theorem since_false {attempts : List Bool} (h : attempts ≠ []) :
    since (false :: attempts) = since attempts + 1 := by
  obtain ⟨newest, older, rfl⟩ := List.exists_cons_of_ne_nil h
  rw [since, since, List.findIdx?_cons]
  cases (newest :: older).findIdx? id <;> rfl

theorem pace_true (attempts : List Bool) : pace (true :: attempts) = backoffStart := by
  rw [pace, since_true, pow_zero, mul_one]
  decide

/-- One more failure doubles the wait. -/
theorem pace_false {attempts : List Bool} (h : attempts ≠ []) :
    pace (false :: attempts) = min (pace attempts * 2) backoffMax := by
  rw [pace, pace, since_false h, pow_succ, ← mul_assoc]
  generalize backoffStart * 2 ^ since attempts = wait
  omega

/-- The backoff is what is waited next, and every wait was the pace of its attempt. -/
def Paced (s : SocketTask) : Prop :=
  match s.phase with
  | .top => s.waits = paces s.attempts ∧ s.backoff = pace (false :: s.attempts)
  | .connecting => s.waits = paces s.attempts ∧ s.backoff = pace (false :: s.attempts)
  | .asleep => s.waits = paces s.attempts ∧ s.backoff = pace s.attempts ∧ s.attempts ≠ []
  | _ => s.waits = paces s.attempts.tail ∧ s.backoff = pace s.attempts ∧ s.attempts ≠ []

theorem Paced.step {s : SocketTask} (h : s.Paced) (op : Op) : (s.step op).Paced := by
  unfold SocketTask.step
  split
  all_goals
    try
      rename_i hphase
      rw [Paced, hphase] at h
  · exact h
  · exact ⟨h.1, (pace_true _).symm, List.cons_ne_nil _ _⟩
  · exact ⟨h.1, h.2, List.cons_ne_nil _ _⟩
  · exact h
  · exact h
  · exact h
  · exact h
  · exact h
  · exact h
  · obtain ⟨hwaits, hbackoff, hne⟩ := h
    obtain ⟨newest, older, hattempts⟩ := List.exists_cons_of_ne_nil hne
    refine ⟨?_, hbackoff, hne⟩
    change s.backoff :: s.waits = paces s.attempts
    rw [hwaits, hbackoff, hattempts]
    rfl
  · obtain ⟨hwaits, hbackoff, hne⟩ := h
    refine ⟨hwaits, ?_⟩
    change min (s.backoff * 2) backoffMax = pace (false :: s.attempts)
    rw [pace_false hne, hbackoff]
  · exact h

/-! ### The results -/

/-- **The health events tell where the task is.** After every run of the socket task, however its
connections came and went, what consumers heard of the health of the feed is a word of the
protocol, and the feed is announced as up exactly while the frames of a connection are read, or
where a connector was dropped that had one. -/
theorem health_told (ops : List Op) :
    let s := machine.run new ops
    ∃ link, s.health.foldlM Link.after .down = some link ∧ s.phase.Tells link := by
  have hnew : (new : SocketTask).Told := ⟨.down, rfl, rfl⟩
  exact machine.run_invariant (I := Told) (fun _ op hs => hs.step op) hnew ops

/-- **Reconnecting is paced.** After every run, each wait so far was the start of the backoff,
doubled for each attempt since the last that opened (or since the first), up to its bound; and at
most the newest attempt was not waited for. -/
theorem reconnects_paced (ops : List Op) :
    let s := machine.run new ops
    ∃ waited, waited <:+ s.attempts ∧ s.attempts.length ≤ waited.length + 1 ∧
      s.waits = paces waited := by
  intro s
  have hnew : (new : SocketTask).Paced := ⟨rfl, by decide⟩
  have hrun : s.Paced := machine.run_invariant (I := Paced) (fun _ op hs => hs.step op) hnew ops
  rw [Paced] at hrun
  split at hrun
  · exact ⟨s.attempts, List.suffix_rfl, Nat.le_succ _, hrun.1⟩
  · exact ⟨s.attempts, List.suffix_rfl, Nat.le_succ _, hrun.1⟩
  · exact ⟨s.attempts, List.suffix_rfl, Nat.le_succ _, hrun.1⟩
  · refine ⟨s.attempts.tail, List.tail_suffix _, ?_, hrun.1⟩
    rw [List.length_tail]
    omega

end SocketTask

end MoonCore
