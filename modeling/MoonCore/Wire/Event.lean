import Mathlib.Algebra.Group.Nat.Defs
import Mathlib.Data.List.Basic

/-!
# Channels and server events

The wire vocabulary the idempotency ring and the resume log share. A server event is kept
verbatim and replayed as it was; the modelled functions read the channel that carries it and,
of a command acknowledgement, whose it is and whether it is final. Everything else an event
holds is its body, of an arbitrary type.
-/

namespace MoonCore

/-- A request id, as the envelope carries it. -/
abbrev ReqId := UInt64

/-- A session's identity within one core lifetime. -/
structure SessionId where
  number : UInt64
  deriving DecidableEq

/-- A stream of the connection, with its own sequence numbers. -/
structure Channel where
  number : UInt8
  deriving DecidableEq

namespace Channel

/-- The handshake, the heartbeat and the core itself. -/
def control : Channel := ⟨0⟩

/-- Orders, fills, balances and positions. -/
def account : Channel := ⟨1⟩

/-- Requests, and what becomes of them. -/
def command : Channel := ⟨2⟩

/-- Order books. -/
def book : Channel := ⟨3⟩

/-- Prints and liquidations. -/
def tape : Channel := ⟨4⟩

/-- Bars. -/
def candles : Channel := ⟨5⟩

/-- Instruments and subscriptions. -/
def reference : Channel := ⟨6⟩

/-- Settings and the state of the core. -/
def settings : Channel := ⟨7⟩

/-- Strategies; no message is sent on it yet. -/
def strategy : Channel := ⟨8⟩

/-- Reports. -/
def report : Channel := ⟨9⟩

/-- Alerts, annotations and news. -/
def alerts : Channel := ⟨10⟩

/-- Reserved for cross-venue arbitrage, and unused today. -/
def arb : Channel := ⟨11⟩

/-- Highest channel this build knows about. -/
def highestKnown : UInt8 := 11

/-- Whether this build knows the channel. -/
def isKnown (self : Channel) : Bool := self.number ≤ highestKnown

/-- Writer priority class, 0 being the most urgent. -/
def class_ (self : Channel) : ℕ :=
  if self = control then 0
  else if self = account ∨ self = command then 1
  else if self = book then 2
  else if self = tape ∨ self = candles ∨ self = arb then 3
  else 4

/-- Whether a gap in this channel can be replayed after a reconnect. -/
def resumable (self : Channel) : Bool := !decide (self ∈ [control, book, arb, report])

end Channel

/-- Where a command is. -/
inductive AckStatus where
  | accepted
  | done
  | rejected
  | failed
  deriving DecidableEq, Repr

/-- Whether this is the last thing a terminal will hear about the request. -/
def AckStatus.isFinal : AckStatus → Bool
  | accepted => false
  | _ => true

/-- What the core sends, with bodies of type `β`. -/
inductive ServerEvent (β : Type*) where
  | commandAck (req : ReqId) (status : AckStatus) (detail : β)
  /-- Any other event, on the channel that carries it. -/
  | other (channel : Channel) (body : β)
  deriving DecidableEq

/-- Which channel carries it. -/
def ServerEvent.channel {β : Type*} : ServerEvent β → Channel
  | commandAck .. => .command
  | other channel _ => channel

end MoonCore
