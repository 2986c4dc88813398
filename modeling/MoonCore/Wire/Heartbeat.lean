import Mathlib.Data.List.DropRight
import Mathlib.Order.Lattice
import MoonCore.Machine.Run

/-!
# Noticing that the other end is gone

`wire::heartbeat`. The core pings at an interval, and counts a miss when a ping is superseded by the
next one without an answer. Instants and durations are nanoseconds; the counters are the machine
integers of the source, whose additions wrap.

When a dead peer is noticed, and when a live one is taken for dead, is the subject of
`MoonCore.Wire.DeadPeer`.
-/

namespace MoonCore

/-- How often the core sends a ping. -/
def pingInterval : ℕ := 2000 * 1000000

/-- Consecutive unanswered pings before the session is considered dead. -/
def missesBeforeDrop : UInt32 := 3

/-- Upper bound on how long a dead peer stays undetected. -/
def detectionBound : ℕ := pingInterval * missesBeforeDrop.toNat

/-- What a received pong meant. -/
inductive PongOutcome where
  /-- It answered the ping in flight, after this round trip. -/
  | matched (rtt : ℕ)
  /-- It answered a ping that has been superseded. -/
  | stale
  /-- A nonce that was never sent. -/
  | unknown
  deriving DecidableEq

/-- Liveness of one connection. -/
structure Heartbeat where
  interval : ℕ
  missesAllowed : UInt32
  /-- The ping awaiting an answer, and when it was sent. -/
  inFlight : Option (UInt64 × ℕ)
  recentlySent : List UInt64
  nextNonce : UInt64
  consecutiveMisses : UInt32
  lastActivity : Option ℕ
  rtt : Option ℕ
  deriving DecidableEq

/-- What can happen to a heartbeat. -/
inductive HeartbeatCall where
  | onSend
  | onPong (nonce : UInt64)
  | sawTraffic
  deriving DecidableEq

/-- What it answers. -/
inductive HeartbeatAnswer where
  | sent (nonce : UInt64)
  | pong (outcome : PongOutcome)
  | seen
  deriving DecidableEq

namespace Heartbeat

/-- A heartbeat before its first ping. -/
def new (interval : ℕ) (missesAllowed : UInt32) : Heartbeat where
  interval := interval
  missesAllowed := missesAllowed
  inFlight := none
  recentlySent := []
  nextNonce := 1
  consecutiveMisses := 0
  lastActivity := none
  rtt := none

/-- With the interval and the misses of the protocol. -/
def default : Heartbeat := new pingInterval missesBeforeDrop

/-- When the next ping is due. -/
def nextDue (self : Heartbeat) : Option ℕ := self.lastActivity.map fun t => t + self.interval

/-- Whether it is time to ping; the first ping is due at once. -/
def due (self : Heartbeat) (now : ℕ) : Bool := self.nextDue.all fun due => due ≤ now

/-- Record that a ping is going out. -/
def onSend (self : Heartbeat) (now : ℕ) : Heartbeat × UInt64 :=
  let nonce := self.nextNonce
  let keep := (self.missesAllowed.toNat + 1) * 4
  ({ self with
      consecutiveMisses :=
        if self.inFlight.isSome then self.consecutiveMisses + 1 else self.consecutiveMisses
      nextNonce := nonce + 1
      inFlight := some (nonce, now)
      lastActivity := some now
      recentlySent := (self.recentlySent ++ [nonce]).rtake keep },
    nonce)

/-- An answer that is not to the ping in flight. -/
def otherPong (self : Heartbeat) (nonce : UInt64) : PongOutcome :=
  if nonce ∈ self.recentlySent then .stale else .unknown

/-- Record an answer. -/
def onPong (self : Heartbeat) (nonce : UInt64) (now : ℕ) : Heartbeat × PongOutcome :=
  match self.inFlight with
  | some (sentNonce, sentAt) =>
    if sentNonce = nonce then
      let rtt := now - sentAt
      ({ self with inFlight := none, consecutiveMisses := 0, rtt := some rtt }, .matched rtt)
    else (self, self.otherPong nonce)
  | none => (self, self.otherPong nonce)

/-- Whether the peer has missed enough pings to be considered gone. -/
def isDead (self : Heartbeat) : Bool := self.missesAllowed ≤ self.consecutiveMisses

/-- Any traffic moves the next ping. -/
def sawTraffic (self : Heartbeat) (now : ℕ) : Heartbeat := { self with lastActivity := some now }

/-- The calls on a heartbeat, each at its instant. -/
def machine : Machine Heartbeat (ℕ × HeartbeatCall) HeartbeatAnswer where
  step self
    | (now, .onSend) => ((self.onSend now).1, .sent (self.onSend now).2)
    | (now, .onPong nonce) => ((self.onPong nonce now).1, .pong (self.onPong nonce now).2)
    | (now, .sawTraffic) => (self.sawTraffic now, .seen)

variable (self : Heartbeat) (now : ℕ) (nonce : UInt64)

@[simp]
theorem next_onSend : machine.next self (now, .onSend) = (self.onSend now).1 := rfl

@[simp]
theorem next_onPong : machine.next self (now, .onPong nonce) = (self.onPong nonce now).1 := rfl

@[simp]
theorem next_sawTraffic : machine.next self (now, .sawTraffic) = self.sawTraffic now := rfl

/-- A pong answers the ping in flight, or changes nothing. -/
theorem onPong_cases :
    (∃ sentAt, self.inFlight = some (nonce, sentAt) ∧
      (self.onPong nonce now).1 =
        { self with inFlight := none, consecutiveMisses := 0, rtt := some (now - sentAt) }) ∨
    (∀ sentAt, self.inFlight ≠ some (nonce, sentAt)) ∧ (self.onPong nonce now).1 = self := by
  rw [onPong]
  split
  · rename_i sentNonce sentAt hflight
    split_ifs with hnonce
    · exact .inl ⟨sentAt, by rw [hflight, hnonce], rfl⟩
    · refine .inr ⟨fun at_ h => hnonce ?_, rfl⟩
      rw [hflight] at h
      exact (Prod.mk.inj (Option.some.inj h)).1
  · rename_i hflight
    exact .inr ⟨by simp [hflight], rfl⟩

/-- The interval and the misses allowed are those the heartbeat was made with. -/
theorem settings_next (call : ℕ × HeartbeatCall) :
    (machine.next self call).interval = self.interval ∧
      (machine.next self call).missesAllowed = self.missesAllowed := by
  obtain ⟨now, op⟩ := call
  cases op with
  | onSend => exact ⟨rfl, rfl⟩
  | sawTraffic => exact ⟨rfl, rfl⟩
  | onPong nonce =>
    rw [next_onPong]
    rcases self.onPong_cases now nonce with ⟨sentAt, -, heq⟩ | ⟨-, heq⟩
    · rw [heq]
      exact ⟨rfl, rfl⟩
    · rw [heq]
      exact ⟨rfl, rfl⟩

theorem settings_run (calls : List (ℕ × HeartbeatCall)) :
    (machine.run self calls).interval = self.interval ∧
      (machine.run self calls).missesAllowed = self.missesAllowed :=
  Machine.run_invariant (M := machine)
    (I := fun h => h.interval = self.interval ∧ h.missesAllowed = self.missesAllowed)
    (fun h call hI => ⟨(h.settings_next call).1.trans hI.1, (h.settings_next call).2.trans hI.2⟩)
    ⟨rfl, rfl⟩ calls

/-- Without a ping in flight no miss is counted. -/
theorem consecutiveMisses_eq_zero (interval : ℕ) (missesAllowed : UInt32)
    (calls : List (ℕ × HeartbeatCall)) :
    (machine.run (new interval missesAllowed) calls).inFlight = none →
      (machine.run (new interval missesAllowed) calls).consecutiveMisses = 0 := by
  refine Machine.run_invariant (M := machine)
    (I := fun h => h.inFlight = none → h.consecutiveMisses = 0) (fun h call hI => ?_)
    (fun _ => rfl) calls
  obtain ⟨now, op⟩ := call
  cases op with
  | onSend => exact fun hnone => absurd hnone (Option.some_ne_none _)
  | sawTraffic => exact hI
  | onPong nonce =>
    rw [next_onPong]
    rcases h.onPong_cases now nonce with ⟨sentAt, -, heq⟩ | ⟨-, heq⟩
    · rw [heq]
      exact fun _ => rfl
    · rw [heq]
      exact hI

end Heartbeat

end MoonCore
