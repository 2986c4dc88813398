import Mathlib.Data.UInt
import MoonCore.Domain.Event
import MoonCore.Exchange.Subscription

/-!
# Per-connection state, as pure logic

`wire::session` and the messages it handles. A `Session` knows whether its terminal has
authenticated and what it subscribed to; `handle` answers one message and `wants` decides which
events of the broadcast are sent on.
-/

namespace MoonCore

/-- Mismatched peers are rejected at `Hello`. -/
def protocolVersion : UInt16 := 2

/-- Terminal → core. -/
inductive ClientMsg where
  | hello (protocol : UInt16) (token : String)
  | subscribe (subs : List Subscription)
  | unsubscribe (subs : List Subscription)
  | ping (nonce : UInt64)
  deriving DecidableEq

/-- Why a message was refused. -/
inductive ErrorCode where
  | protocolMismatch
  | unauthorized
  /-- A message arrived before `Hello`. -/
  | notAuthenticated
  /-- Undecodable frame. -/
  | malformed
  | tooLarge
  deriving DecidableEq

/-- Whether the core drops the connection after reporting this. -/
def ErrorCode.isFatal : ErrorCode → Bool
  | malformed => false
  | _ => true

/-- Core → terminal. -/
inductive ServerMsg (D : Type*) where
  | welcome (protocol : UInt16)
  | event (event : Event D)
  | pong (nonce : UInt64)
  | failed (code : ErrorCode) (message : String)
  deriving DecidableEq

/-- The core's shared secret. -/
structure Auth where
  token : String

/-- Compare in time independent of how many bytes match. -/
def Auth.verify (self : Auth) (candidate : String) : Bool :=
  let a := self.token.toUTF8.toList
  let b := candidate.toUTF8.toList
  if a.length ≠ b.length then false
  else (a.zip b).foldl (fun diff bytes => diff ||| (bytes.1 ^^^ bytes.2)) 0 == 0

/-- What to do with a connection after handling a message. -/
structure Reaction (D : Type*) where
  reply : ServerMsg D
  /-- Close the connection after sending the reply. -/
  close : Bool

/-- A refusal, which closes the connection if its code is fatal. -/
def fail {D : Type*} (code : ErrorCode) (message : String) : Reaction D :=
  ⟨.failed code message, code.isFatal⟩

/-- One terminal's connection. -/
structure Session where
  authenticated : Bool
  subscriptions : List Subscription
  deriving DecidableEq

namespace Session

variable {D : Type*}

/-- A connection that has said nothing yet. -/
def new : Session := ⟨false, []⟩

/-- Whether this session may be sent the event. -/
def mayReceive (self : Session) (event : Event D) : Bool := self.authenticated || !event.isPrivate

/-- Whether this session asked for the event. -/
def wants (self : Session) (event : Event D) : Bool :=
  if !self.mayReceive event then false
  else
    match event.payload with
    | .market market =>
      match market.symbol with
      | some symbol => self.subscriptions.any fun s => s.symbol = symbol
      | none => true
    | _ => true

/-- Add what is not subscribed to yet, in order. -/
def subscribe (self : Session) (subs : List Subscription) : Session :=
  { self with
    subscriptions := subs.foldl
      (fun held sub => if sub ∈ held then held else held ++ [sub]) self.subscriptions }

/-- Handle one decoded message. -/
def handle (self : Session) (msg : ClientMsg) (auth : Auth) : Session × Reaction D :=
  match msg with
  | .hello protocol token =>
    if protocol ≠ protocolVersion then
      (self, fail .protocolMismatch
        s!"core speaks protocol {protocolVersion}, terminal speaks {protocol}")
    else if !auth.verify token then (self, fail .unauthorized "rejected")
    else ({ self with authenticated := true }, ⟨.welcome protocolVersion, false⟩)
  | msg =>
    if !self.authenticated then (self, fail .notAuthenticated "send Hello first")
    else
      match msg with
      | .subscribe subs => (self.subscribe subs, ⟨.pong 0, false⟩)
      | .unsubscribe subs =>
        ({ self with subscriptions := self.subscriptions.filter fun held => held ∉ subs },
          ⟨.pong 0, false⟩)
      | .ping nonce => (self, ⟨.pong nonce, false⟩)
      | .hello _ _ => (self, fail .notAuthenticated "send Hello first")

/-- Handle one frame: a message, or what its decoder says is wrong with it. -/
def receive (self : Session) (auth : Auth) : Except String ClientMsg → Session × Reaction D
  | .ok msg => self.handle msg auth
  | .error text => (self, ⟨.failed .malformed text, false⟩)

/-- No reply is an event. -/
theorem receive_reply (self : Session) (auth : Auth) (msg : Except String ClientMsg)
    (event : Event D) : (self.receive auth msg).2.reply ≠ .event event := by
  cases msg with
  | error text => simp [receive]
  | ok msg =>
    rw [receive]
    fun_cases handle <;> simp [fail]

/-- An event of a subscribed instrument is wanted. -/
theorem wants_of_subscribed {self : Session} {event : Event D} {market : MarketEvent D}
    {symbol : Symbol} (hevent : event.payload = .market market)
    (hsymbol : market.symbol = some symbol)
    (hsub : ∃ sub ∈ self.subscriptions, sub.symbol = symbol) : self.wants event = true := by
  obtain ⟨sub, hmem, hsame⟩ := hsub
  have hreceive : self.mayReceive event = true := by
    rw [mayReceive, Event.isPrivate, hevent]
    simp
  rw [wants, hreceive, hevent]
  dsimp only
  rw [hsymbol]
  simp only [Bool.not_true, Bool.false_eq_true, if_false, List.any_eq_true, decide_eq_true_eq]
  exact ⟨sub, hmem, hsame⟩

end Session

end MoonCore
