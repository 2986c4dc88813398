import Mathlib.Data.Finset.Sort
import Mathlib.Data.String.Basic
import MoonCore.Machine.Run

/-!
# Subscriptions over a reconnect

`binance::socket_task` and `binance::pump`, as far as subscriptions go. A run of `machine` is any
interleaving of the users' commands, the steps of the socket task and the death of the connection,
and the world says how each connect and each write turns out. The venue keeps a set of streams for
a connection, applies the frames it sees to it and forgets it when the connection dies.

The task remembers the set of streams asked for, `active`, and `Tracks` ties it to the commands it
has taken and to the venue's set. What comes of a command whose write failed is settled by the next
connection, which starts by asking for all of `active`.
-/

namespace MoonCore

/-- Commands sent from the public API to the socket task. -/
inductive Socket.Command where
  | subscribe (names : List String)
  | unsubscribe (names : List String)

/-- Where the socket task is. -/
inductive Socket.Phase where
  /-- In `connect_async`. -/
  | connecting
  /-- Connected, and about to ask for everything again. -/
  | rearming
  /-- `Ready` is announced; waiting in `select!`. -/
  | ready
  /-- Sending the frame of a command it has taken. -/
  | writing (cmd : Socket.Command)
  /-- Disconnected, sleeping off the backoff. -/
  | asleep
  | stopped

/-- The socket task, its queue, the connection and what the venue has for it. -/
structure Socket where
  phase : Socket.Phase
  /-- Survives reconnects: the venue forgets our subscriptions, we do not. -/
  active : Finset String
  queue : List Socket.Command
  /-- The connector is dropped, and with it the sender of the queue. -/
  closed : Bool
  frameId : ℕ
  alive : Bool
  venue : Finset String
  /-- Every command the queue took, oldest first. No step reads it. -/
  sent : List Socket.Command

namespace Socket

/-- A control frame, less its JSON. -/
structure ControlFrame where
  method : String
  params : List String
  id : ℕ

/-- What the venue does with a frame. -/
def ControlFrame.apply (frame : ControlFrame) (streams : Finset String) : Finset String :=
  if frame.method = "SUBSCRIBE" then streams ∪ frame.params.toFinset
  else if frame.method = "UNSUBSCRIBE" then streams \ frame.params.toFinset
  else streams

/-- How the write of a frame turns out. A failed one may have reached the venue all the same. -/
inductive Delivery where
  | ok
  | failed (seen : Bool)

/-- Whether the venue has what was written: what goes through it has, what failed it may have. -/
def Delivery.seen : Delivery → Bool
  | .ok => true
  | .failed seen => seen

/-- What can happen next. -/
inductive Op where
  /-- `Binance::subscribe` or `Binance::unsubscribe` sends a command. -/
  | send (cmd : Command)
  /-- The connector is dropped. -/
  | drop
  /-- The connection dies, whether or not the task has noticed. -/
  | dies
  /-- `connect_async` returns. -/
  | connect (up : Bool)
  | rearm (delivery : Delivery)
  /-- `commands.recv()` is picked. -/
  | take
  | write (delivery : Delivery)
  /-- The stream ends, errors or is closed by the server, or a pong cannot be written. -/
  | readEnds
  /-- The loop of `socket_task` comes round. -/
  | wake (sinkClosed : Bool)

/-- A connector just made. -/
def start : Socket := ⟨.connecting, ∅, [], false, 0, false, ∅, []⟩

/-- `active.extend(names)`, or `active.remove` of each name. -/
def Command.remember : Command → Finset String → Finset String
  | .subscribe names, active => names.foldl (fun active name => insert name active) active
  | .unsubscribe names, active => names.foldl Finset.erase active

/-- The frame of a command. -/
def Command.frame (id : ℕ) : Command → ControlFrame
  | .subscribe names => ⟨"SUBSCRIBE", names, id⟩
  | .unsubscribe names => ⟨"UNSUBSCRIBE", names, id⟩

/-- The venue forgets every stream of a connection that is gone. -/
def lose (s : Socket) : Socket := { s with alive := false, venue := ∅ }

/-- Send a frame. A dead connection may take it, but the venue does not see it. -/
def transmit (s : Socket) (frame : ControlFrame) (delivery : Delivery) : Socket :=
  if s.alive && delivery.seen then { s with venue := frame.apply s.venue } else s

/-- The end of a write: on to the loop, or out of `pump` for a reconnect. -/
def proceed (s : Socket) : Delivery → Socket
  | .ok => { s with phase := .ready }
  | .failed _ => { s.lose with phase := .asleep }

/-- Re-arm everything the caller asked for before this connection existed. -/
def rearm (s : Socket) (delivery : Delivery) : Socket :=
  if s.active = ∅ then { s with phase := .ready }
  else
    let s := { s with frameId := s.frameId + 1 }
    (s.transmit ⟨"SUBSCRIBE", s.active.sort (· ≤ ·), s.frameId⟩ delivery).proceed delivery

/-- `commands.recv()` -/
def take (s : Socket) : Socket :=
  match s.queue with
  | cmd :: queue =>
    { s with
      active := cmd.remember s.active
      queue := queue
      frameId := s.frameId + 1
      phase := .writing cmd }
  | [] => if s.closed then { s.lose with phase := .stopped } else s

/-- One step; `send` answers the caller. -/
def step (s : Socket) (op : Op) : Socket × Except String Unit :=
  match op, s.phase with
  | .send _, .stopped => (s, .error "socket task has stopped")
  | .send cmd, _ =>
    -- nobody is left to call this once the connector is dropped
    if s.closed then (s, .error "socket task has stopped")
    else ({ s with queue := s.queue ++ [cmd], sent := s.sent ++ [cmd] }, .ok ())
  | .drop, _ => ({ s with closed := true }, .ok ())
  | .dies, _ => (s.lose, .ok ())
  | .connect true, .connecting =>
    ({ s with phase := .rearming, alive := true, venue := ∅, frameId := 0 }, .ok ())
  | .connect false, .connecting => ({ s with phase := .asleep }, .ok ())
  | .rearm delivery, .rearming => (s.rearm delivery, .ok ())
  | .take, .ready => (s.take, .ok ())
  | .write delivery, .writing cmd =>
    ((s.transmit (cmd.frame s.frameId) delivery).proceed delivery, .ok ())
  | .readEnds, .ready => ({ s.lose with phase := .asleep }, .ok ())
  | .wake sinkClosed, .asleep =>
    ({ s with phase := if sinkClosed then .stopped else .connecting }, .ok ())
  | _, _ => (s, .ok ())

/-- The socket task, stepping on what happens next. -/
def machine : Machine Socket Op (Except String Unit) := ⟨step⟩

/-! ### What the users asked for -/

/-- What a command asks for: streams added, or streams removed. -/
def Command.change : Command → Finset String → Finset String
  | .subscribe names, streams => streams ∪ names.toFinset
  | .unsubscribe names, streams => streams \ names.toFinset

/-- The streams asked for by a list of commands, in order. -/
def wanted (cmds : List Command) : Finset String :=
  cmds.foldl (fun streams cmd => cmd.change streams) ∅

/-- The socket is up: `Ready` is announced, and the connection is alive. -/
def Up (s : Socket) : Prop :=
  s.alive ∧ match s.phase with
    | .ready => True
    | .writing _ => True
    | _ => False

instance : (s : Socket) → Decidable s.Up
  | ⟨.ready, _, _, _, _, alive, _, _⟩ => inferInstanceAs (Decidable (alive = true ∧ True))
  | ⟨.writing _, _, _, _, _, alive, _, _⟩ => inferInstanceAs (Decidable (alive = true ∧ True))
  | ⟨.connecting, _, _, _, _, _, _, _⟩ => .isFalse And.right
  | ⟨.rearming, _, _, _, _, _, _, _⟩ => .isFalse And.right
  | ⟨.asleep, _, _, _, _, _, _, _⟩ => .isFalse And.right
  | ⟨.stopped, _, _, _, _, _, _, _⟩ => .isFalse And.right

/-- The commands whose frame has not been written yet. -/
def pending (s : Socket) : List Command :=
  match s.phase with
  | .writing cmd => cmd :: s.queue
  | _ => s.queue

theorem wanted_concat (cmds : List Command) (cmd : Command) :
    wanted (cmds ++ [cmd]) = cmd.change (wanted cmds) := by
  rw [wanted, List.foldl_append]
  rfl

theorem Command.remember_eq_change (cmd : Command) (active : Finset String) :
    cmd.remember active = cmd.change active := by
  cases cmd with
  | subscribe names =>
    induction names generalizing active with
    | nil => simp [remember, change]
    | cons name names ih =>
      refine (ih (insert name active)).trans ?_
      simp only [change, List.toFinset_cons, Finset.insert_union, Finset.union_insert]
  | unsubscribe names =>
    induction names generalizing active with
    | nil => simp [remember, change]
    | cons name names ih =>
      refine (ih (active.erase name)).trans ?_
      simp only [change, List.toFinset_cons, Finset.erase_sdiff_comm, Finset.sdiff_insert]

/-- The venue does what the command asks for. -/
theorem Command.apply_frame (cmd : Command) (id : ℕ) (streams : Finset String) :
    (cmd.frame id).apply streams = cmd.change streams := by
  cases cmd <;> rfl

/-- Asked for everything on a fresh connection, the venue has everything. -/
theorem apply_rearm (active : Finset String) (id : ℕ) :
    (⟨"SUBSCRIBE", active.sort (· ≤ ·), id⟩ : ControlFrame).apply ∅ = active := by
  rw [ControlFrame.apply, if_pos rfl, Finset.sort_toFinset, Finset.empty_union]

/-! ### What the task remembers -/

/-- What is remembered is what the commands taken so far ask for, and a live connection has it: all
of it in the loop, all but the command in hand during its write, and nothing before re-arming. -/
structure Tracks (s : Socket) : Prop where
  taken : ∃ taken, s.sent = taken ++ s.queue ∧ s.active = wanted taken
  venue : s.alive → match s.phase with
    | .rearming => s.venue = ∅
    | .ready => s.venue = s.active
    | .writing cmd => cmd.change s.venue = s.active
    | _ => False

theorem tracks_start : Tracks start where
  taken := ⟨[], rfl, rfl⟩
  venue := nofun

/-- Without a connection there is nothing to keep in step. -/
theorem Tracks.lose {s : Socket} (h : Tracks s) (phase : Phase) :
    Tracks { s.lose with phase := phase } where
  taken := h.taken
  venue := nofun

/-- The write of a frame that puts the venue in step, or ends the connection. -/
theorem Tracks.transmit {s : Socket} (h : Tracks s) {frame : ControlFrame}
    (hframe : s.alive → frame.apply s.venue = s.active) (delivery : Delivery) :
    Tracks ((s.transmit frame delivery).proceed delivery) := by
  have htaken : ∃ taken,
      (s.transmit frame delivery).sent = taken ++ (s.transmit frame delivery).queue ∧
        (s.transmit frame delivery).active = wanted taken := by
    rw [Socket.transmit]
    split_ifs <;> exact h.taken
  cases delivery with
  | ok =>
    refine ⟨htaken, fun halive => ?_⟩
    change (s.transmit frame .ok).venue = (s.transmit frame .ok).active
    by_cases hs : s.alive
    · rw [Socket.transmit, hs, Delivery.seen, Bool.and_self, if_pos rfl]
      exact hframe hs
    · have hlost : (s.transmit frame .ok).alive = false := by
        rw [Socket.transmit, if_neg (by simp [hs])]
        simpa using hs
      exact absurd (halive.symm.trans hlost) (by decide)
  | failed seen => exact ⟨htaken, nofun⟩

theorem Tracks.rearm {s : Socket} (h : Tracks s) (hphase : s.phase = .rearming)
    (delivery : Delivery) : Tracks (s.rearm delivery) := by
  have hvenue (halive : s.alive) : s.venue = ∅ := by
    have hfresh := h.venue halive
    rwa [hphase] at hfresh
  rw [Socket.rearm]
  split_ifs with hempty
  · exact ⟨h.taken, fun halive => (hvenue halive).trans hempty.symm⟩
  · have hcount : Tracks { s with frameId := s.frameId + 1 } := ⟨h.taken, h.venue⟩
    refine hcount.transmit (fun halive => ?_) delivery
    rw [hvenue halive]
    exact apply_rearm s.active _

theorem Tracks.take {s : Socket} (h : Tracks s) (hphase : s.phase = .ready) : Tracks s.take := by
  obtain ⟨taken, hsent, hactive⟩ := h.taken
  rw [Socket.take]
  cases hqueue : s.queue with
  | nil =>
    simp only
    split_ifs
    · exact h.lose .stopped
    · exact h
  | cons cmd queue =>
    refine ⟨⟨taken ++ [cmd], ?_, ?_⟩, fun halive => ?_⟩
    · simp only [hsent, hqueue, List.append_assoc, List.singleton_append]
    · simp only [cmd.remember_eq_change, hactive, wanted_concat]
    · have hstep := h.venue halive
      rw [hphase] at hstep
      simp only [cmd.remember_eq_change, hstep]

theorem Tracks.next {s : Socket} (h : Tracks s) (op : Op) : Tracks (machine.next s op) := by
  change Tracks (step s op).1
  fun_cases step s op with
  | case1 => exact h
  | case2 => exact h
  | case3 cmd _ _ =>
    obtain ⟨taken, hsent, hactive⟩ := h.taken
    exact ⟨⟨taken, by simp only [hsent, List.append_assoc], hactive⟩, h.venue⟩
  | case4 => exact ⟨h.taken, h.venue⟩
  | case5 => exact h.lose s.phase
  | case6 => exact ⟨h.taken, fun _ => rfl⟩
  | case7 hphase =>
    refine ⟨h.taken, fun halive => ?_⟩
    have hnone := h.venue halive
    rw [hphase] at hnone
    exact hnone
  | case8 delivery hphase => exact h.rearm hphase delivery
  | case9 hphase => exact h.take hphase
  | case10 delivery cmd hphase =>
    refine h.transmit (fun halive => ?_) delivery
    have hstep := h.venue halive
    rw [hphase] at hstep
    rw [cmd.apply_frame, hstep]
  | case11 => exact h.lose .asleep
  | case12 sinkClosed hphase =>
    refine ⟨h.taken, fun halive => ?_⟩
    have hnone := h.venue halive
    rw [hphase] at hnone
    exact hnone.elim
  | case13 => exact h

/-- **No subscription is lost over a reconnect.** For every sequence of subscribe and unsubscribe
commands, with connects, writes that succeed, fail before the venue saw the frame or fail after, and
deaths of the connection placed anywhere among them: whenever the socket is up and no command is
waiting, the venue's set of streams is what the commands so far ask for, in order. -/
theorem no_subscription_lost (ops : List Op) :
    let s := machine.run start ops
    s.Up → s.pending = [] → s.venue = wanted s.sent := by
  intro s hup hpending
  have h : Tracks s :=
    Machine.run_invariant (I := Tracks) (fun _ op h => h.next op) tracks_start ops
  obtain ⟨taken, hsent, hactive⟩ := h.taken
  obtain ⟨halive, hphase⟩ := hup
  have hvenue := h.venue halive
  rw [pending] at hpending
  split at hphase
  · next hready =>
    rw [hready] at hvenue hpending
    have hqueue : s.queue = [] := hpending
    rw [hvenue, hactive, hsent, hqueue, List.append_nil]
  · next cmd hwriting =>
    rw [hwriting] at hpending
    exact absurd hpending (List.cons_ne_nil _ _)
  · exact hphase.elim

/-- A subscription made offline, an unsubscription whose write fails although the venue saw it, and
another subscription that waits for the next connection. -/
def cutShort : List Op :=
  [.send (.subscribe ["btcusdt@aggTrade", "ethusdt@aggTrade"]), .connect true, .rearm .ok, .take,
    .write .ok, .send (.unsubscribe ["btcusdt@aggTrade"]), .take, .write (.failed true),
    .send (.subscribe ["solusdt@aggTrade"]), .wake false, .connect true, .rearm .ok, .take,
    .write .ok]

theorem no_subscription_lost_cutShort :
    (machine.run start cutShort).venue = {"ethusdt@aggTrade", "solusdt@aggTrade"} :=
  (no_subscription_lost cutShort (by decide) rfl).trans (by decide)

end Socket

end MoonCore
