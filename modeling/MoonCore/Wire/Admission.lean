import Mathlib.Data.List.MinMax
import Mathlib.Data.Prod.Lex
import MoonCore.Machine.Run
import MoonCore.Wire.DeviceRegistry
import MoonCore.Wire.Event

/-!
# Who gets in, and how often they may try

`wire::admission`. A `Gatekeeper` counts the failed handshakes of each address and holds the table
of live sessions. Instants are nanoseconds. An addition that overflows its integer answers `none`
and changes nothing.

The limit on handshakes is the subject of `MoonCore.Wire.HandshakeLimit`, the table of sessions of
`MoonCore.Wire.SessionTable`.
-/

namespace MoonCore

/-- Where a connection comes from. -/
inductive IpAddr where
  | v4 (octets : Vector UInt8 4)
  | v6 (octets : Vector UInt8 16)
  deriving DecidableEq

/-- Failed handshakes allowed from one address per window. -/
def helloAttemptsPerMin : ℕ := 5

/-- How long the window is, and how long a ban lasts once it trips, one minute. -/
def banDuration : ℕ := 60 * 1000000000

/-- Concurrent sessions allowed for one device. -/
def maxSessions : ℕ := 4

/-- What to do with a connection trying to authenticate. -/
inductive Admit where
  /-- Proceed with the handshake. -/
  | ok
  /-- Too many failures from this address recently. -/
  | banned (until_ : ℕ)
  deriving DecidableEq

/-- A session the core is currently holding. -/
structure LiveSession where
  id : SessionId
  device : DeviceId
  peer : IpAddr
  role : Role
  openedAt : ℕ
  deriving DecidableEq

/-- The order in which sessions were opened: `(opened_at, id)`. -/
def LiveSession.age (s : LiveSession) : ℕ ×ₗ ℕ := toLex (s.openedAt, s.id.number.toNat)

/-- Why the core ended a session. -/
inductive CloseReason where
  /-- The device was revoked. -/
  | revoked
  /-- The device opened more sessions than it is allowed, and this was the oldest. -/
  | tooManySessions
  deriving DecidableEq

/-- A session the core has closed and the reason. -/
structure Closed where
  id : SessionId
  reason : CloseReason
  deriving DecidableEq

/-- The failures of one address. -/
structure Gatekeeper.Window where
  failures : ℕ
  started : ℕ
  bannedUntil : Option ℕ
  deriving DecidableEq

/-- Handshake rate limiting and the session table, whose entries are under their own id. -/
structure Gatekeeper where
  attempts : AList fun _ : IpAddr => Gatekeeper.Window
  sessions : AList fun _ : SessionId => LiveSession
  nextSession : UInt64
  keyed : ∀ id s, sessions.lookup id = some s → s.id = id

namespace Gatekeeper

/-- A gatekeeper nobody has come to yet. -/
def new : Gatekeeper where
  attempts := ∅
  sessions := ∅
  nextSession := 1
  keyed := by simp

/-- Put a window in an address's place. -/
def setWindow (self : Gatekeeper) (peer : IpAddr) (window : Window) : Gatekeeper :=
  { self with attempts := self.attempts.insert peer window }

/-- May this address attempt a handshake? -/
def admitPeer (self : Gatekeeper) (peer : IpAddr) (now : ℕ) : Gatekeeper × Admit :=
  match self.attempts.lookup peer with
  | none => (self, .ok)
  | some window =>
    match window.bannedUntil with
    | none => (self, .ok)
    | some until_ =>
      if now < until_ then (self, .banned until_)
      else
        -- The ban has run out, and the window resets with it.
        (self.setWindow peer ⟨0, now, none⟩, .ok)

/-- The window a failure at `now` is counted in. -/
def openWindow (self : Gatekeeper) (peer : IpAddr) (now : ℕ) : Window :=
  match self.attempts.lookup peer with
  | none => ⟨0, now, none⟩
  | some window =>
    if banDuration < now - window.started then { window with failures := 0, started := now }
    else window

/-- Record a failed handshake, banning the address if it has failed too often. -/
def handshakeFailed (self : Gatekeeper) (peer : IpAddr) (now : ℕ) : Option (Gatekeeper × Admit) :=
  let window := self.openWindow peer now
  let failures := window.failures + 1
  if 2 ^ 32 ≤ failures then none
  else if helloAttemptsPerMin ≤ failures then
    let until_ := now + banDuration
    some (self.setWindow peer ⟨failures, window.started, some until_⟩, .banned until_)
  else some (self.setWindow peer { window with failures := failures }, .ok)

/-- Forget the failures of an address that has just succeeded. -/
def handshakeSucceeded (self : Gatekeeper) (peer : IpAddr) : Gatekeeper :=
  { self with attempts := self.attempts.erase peer }

/-- Take a session out of the table. -/
def remove (self : Gatekeeper) (id : SessionId) : Gatekeeper where
  attempts := self.attempts
  sessions := self.sessions.erase id
  nextSession := self.nextSession
  keyed id' s h := by
    by_cases hid : id' = id
    · subst hid
      simp at h
    · rw [AList.lookup_erase_ne hid] at h
      exact self.keyed id' s h

/-- Put a session into the table. -/
def add (self : Gatekeeper) (session : LiveSession) : Gatekeeper where
  attempts := self.attempts
  sessions := self.sessions.insert session.id session
  nextSession := self.nextSession
  keyed id s h := by
    by_cases hid : id = session.id
    · subst hid
      rw [AList.lookup_insert, Option.some.injEq] at h
      rw [← h]
    · rw [AList.lookup_insert_ne hid] at h
      exact self.keyed id s h

/-- The live sessions of a device. -/
def held (self : Gatekeeper) (device : DeviceId) : List LiveSession :=
  (self.sessions.entries.map Sigma.snd).filter fun s => s.device = device

/-- Every live session of a device, for revocation and for the session cap. -/
def sessionsOf (self : Gatekeeper) (device : DeviceId) : List SessionId :=
  ((self.held device).map LiveSession.id).mergeSort fun a b => a.number ≤ b.number

/-- The loop of `open`: close the oldest session of the device while it is over its limit. Each turn
takes one session out, so as many turns as there are sessions suffice. -/
def closeOldest (device : DeviceId) : ℕ → Gatekeeper × List Closed → Gatekeeper × List Closed
  | 0, st => st
  | turns + 1, (self, closed) =>
    if maxSessions < (self.sessionsOf device).length then
      match (self.held device).argmin LiveSession.age with
      | some oldest =>
        closeOldest device turns
          (self.remove oldest.id, closed ++ [⟨oldest.id, .tooManySessions⟩])
      | none => (self, closed)
    else (self, closed)

/-- Open a session, closing the device's oldest if it is over its limit. -/
def open_ (self : Gatekeeper) (device : DeviceId) (peer : IpAddr) (role : Role) (now : ℕ) :
    Option (Gatekeeper × SessionId × List Closed) :=
  let id : SessionId := ⟨self.nextSession⟩
  if 2 ^ 64 ≤ self.nextSession.toNat + 1 then none
  else
    let opened :=
      { self.add ⟨id, device, peer, role, now⟩ with nextSession := self.nextSession + 1 }
    let done := closeOldest device (opened.sessionsOf device).length (opened, [])
    some (done.1, id, done.2)

/-- Forget a session; the answer is whether it was there. -/
def close (self : Gatekeeper) (id : SessionId) : Gatekeeper × Bool :=
  (self.remove id, (self.sessions.lookup id).isSome)

/-- Close every session of a revoked device. -/
def revokeDevice (self : Gatekeeper) (device : DeviceId) : Gatekeeper × List Closed :=
  let doomed := self.sessionsOf device
  (doomed.foldl remove self, doomed.map fun id => ⟨id, .revoked⟩)

/-- A session, if it is live. -/
def get (self : Gatekeeper) (id : SessionId) : Option LiveSession := self.sessions.lookup id

/-- A rate-limit record that a sweep keeps: banned still, or younger than a window. -/
def Window.keeps (window : Window) (now : ℕ) : Bool :=
  window.bannedUntil.any (now < ·) || now - window.started ≤ banDuration

/-- Drop rate-limit records that have gone quiet. -/
def expireWindows (self : Gatekeeper) (now : ℕ) : Gatekeeper × ℕ :=
  let kept := self.attempts.retain fun _ window => window.keeps now
  ({ self with attempts := kept }, self.attempts.entries.length - kept.entries.length)

/-- A call of the server on its gatekeeper. -/
inductive Call where
  | admitPeer (peer : IpAddr) (now : ℕ)
  | handshakeFailed (peer : IpAddr) (now : ℕ)
  | handshakeSucceeded (peer : IpAddr)
  | open_ (device : DeviceId) (peer : IpAddr) (role : Role) (now : ℕ)
  | close (id : SessionId)
  | revokeDevice (device : DeviceId)
  | expireWindows (now : ℕ)
  deriving DecidableEq

/-- The instant a call is given. -/
def Call.now : Call → Option ℕ
  | .admitPeer _ now | .handshakeFailed _ now | .open_ _ _ _ now | .expireWindows now => some now
  | .handshakeSucceeded _ | .close _ | .revokeDevice _ => none

/-- What each call is answered with. -/
inductive Answer where
  | admitPeer (answer : Admit)
  | forgotten
  | opened (id : SessionId) (closed : List Closed)
  | closed (found : Bool)
  | revoked (closed : List Closed)
  | expired (dropped : ℕ)
  | overflow

/-- The calls of the server, one after the other. -/
def machine : Machine Gatekeeper Call Answer where
  step self
    | .admitPeer peer now => ((self.admitPeer peer now).1, .admitPeer (self.admitPeer peer now).2)
    | .handshakeFailed peer now =>
      match self.handshakeFailed peer now with
      | some (self, answer) => (self, .admitPeer answer)
      | none => (self, .overflow)
    | .handshakeSucceeded peer => (self.handshakeSucceeded peer, .forgotten)
    | .open_ device peer role now =>
      match self.open_ device peer role now with
      | some (self, id, closed) => (self, .opened id closed)
      | none => (self, .overflow)
    | .close id => ((self.close id).1, .closed (self.close id).2)
    | .revokeDevice device =>
      ((self.revokeDevice device).1, .revoked (self.revokeDevice device).2)
    | .expireWindows now => ((self.expireWindows now).1, .expired (self.expireWindows now).2)

@[simp]
theorem attempts_remove (self : Gatekeeper) (id : SessionId) :
    (self.remove id).attempts = self.attempts := rfl

@[simp]
theorem attempts_closeOldest (device : DeviceId) (turns : ℕ) (st : Gatekeeper × List Closed) :
    (closeOldest device turns st).1.attempts = st.1.attempts := by
  induction turns generalizing st with
  | zero => rfl
  | succ turns ih =>
    rw [closeOldest]
    split
    · split
      · rw [ih, attempts_remove]
      · rfl
    · rfl

@[simp]
theorem attempts_revokeDevice (self : Gatekeeper) (device : DeviceId) :
    (self.revokeDevice device).1.attempts = self.attempts := by
  rw [revokeDevice]
  generalize self.sessionsOf device = doomed
  induction doomed generalizing self with
  | nil => rfl
  | cons id rest ih => rw [List.foldl_cons, ih, attempts_remove]

/-- `open` touches the table of sessions only. -/
theorem attempts_open {self gate : Gatekeeper} {device : DeviceId} {peer : IpAddr} {role : Role}
    {now : ℕ} {id : SessionId} {closed : List Closed}
    (h : self.open_ device peer role now = some (gate, id, closed)) :
    gate.attempts = self.attempts := by
  rw [open_] at h
  split at h
  · exact absurd h (by simp)
  · rw [Option.some.injEq, Prod.mk.injEq] at h
    rw [← h.1, attempts_closeOldest]
    rfl

theorem step_handshakeFailed {self gate : Gatekeeper} {peer : IpAddr} {now : ℕ} {answer : Admit}
    (h : self.handshakeFailed peer now = some (gate, answer)) :
    machine.step self (.handshakeFailed peer now) = (gate, .admitPeer answer) := by
  simp only [machine, h]

theorem step_handshakeFailed_none {self : Gatekeeper} {peer : IpAddr} {now : ℕ}
    (h : self.handshakeFailed peer now = none) :
    machine.step self (.handshakeFailed peer now) = (self, .overflow) := by
  simp only [machine, h]

theorem step_open {self gate : Gatekeeper} {device : DeviceId} {peer : IpAddr} {role : Role}
    {now : ℕ} {id : SessionId} {closed : List Closed}
    (h : self.open_ device peer role now = some (gate, id, closed)) :
    machine.step self (.open_ device peer role now) = (gate, .opened id closed) := by
  simp only [machine, h]

theorem step_open_none {self : Gatekeeper} {device : DeviceId} {peer : IpAddr} {role : Role}
    {now : ℕ} (h : self.open_ device peer role now = none) :
    machine.step self (.open_ device peer role now) = (self, .overflow) := by
  simp only [machine, h]

/-- The instants of a run do not decrease. -/
def Timely (calls : List Call) : Prop := (calls.filterMap Call.now).Pairwise (· ≤ ·)

instance decidableTimely (calls : List Call) : Decidable (Timely calls) :=
  inferInstanceAs (Decidable ((calls.filterMap Call.now).Pairwise (· ≤ ·)))

theorem Timely.left {calls rest : List Call} (h : Timely (calls ++ rest)) : Timely calls := by
  rw [Timely, List.filterMap_append, List.pairwise_append] at h
  exact h.1

theorem times_concat {calls : List Call} {call : Call} {now : ℕ} (hnow : call.now = some now) :
    (calls ++ [call]).filterMap Call.now = calls.filterMap Call.now ++ [now] := by
  rw [List.filterMap_append, List.filterMap_cons_some hnow, List.filterMap_nil]

/-- In a run whose instants do not decrease, the last one is the latest. -/
theorem Timely.le_last {calls : List Call} {call : Call} {now : ℕ} (h : Timely (calls ++ [call]))
    (hnow : call.now = some now) : ∀ t ∈ calls.filterMap Call.now, t ≤ now := by
  rw [Timely, times_concat hnow, List.pairwise_append] at h
  exact fun t ht => h.2.2 t ht now (List.mem_singleton_self _)

end Gatekeeper

end MoonCore
