import MoonCore.ForMathlib.Serde
import MoonCore.Wire.Event
import MoonCore.Wire.Session

/-!
# Envelopes

`wire::envelope`: what wraps every message on the wire, and what becomes of an envelope from a
peer that is newer than this build. The decoders are those serde derives for structs: fields are
found by name, one that is there twice is refused, and one that is missing is refused unless it
has a default. How a message itself is decoded is a parameter.

`skipped_iff` says which envelopes of a newer peer are read, and what they are
answered with.
-/

namespace MoonCore

open MsgPack

/-- The schema version this build understands. -/
def knownVer : UInt16 := 0

/-- Terminal → core. -/
structure ClientEnvelope where
  channel : Channel
  req : ReqId
  ver : UInt16
  msg : ClientMsg
  deriving DecidableEq

/-- Core → terminal. -/
structure ServerEnvelope (D : Type*) where
  channel : Channel
  /-- Position within the channel. -/
  seq : UInt64
  ver : UInt16
  msg : ServerMsg D
  deriving DecidableEq

/-- A message whose tag this build does not recognise, captured whole. -/
structure UnknownMsg where
  t : String
  d : Value

/-- An envelope whose header parsed but whose message did not. -/
structure UnknownEnvelope where
  channel : Channel
  ver : UInt16
  msg : UnknownMsg

/-- The receiving shape of an envelope: either understood, or captured intact. -/
inductive Incoming (T : Type*) where
  | known (env : T)
  | unknown (env : UnknownEnvelope)

/-- Why a well-formed envelope was not acted upon. -/
inductive Skipped where
  | unknownChannel (channel : Channel)
  | futureVersion (channel : Channel) (ver : UInt16)
  | unknownVariant (channel : Channel) (tag : String)
  deriving DecidableEq

/-! ### Derived decoders -/

variable {α M T D : Type}

/-- A channel is a byte. -/
def decodeChannel (value : Value) : Option Channel :=
  (natBelow UInt8.size value).map fun n => ⟨.ofNat n⟩

/-- A number below 2 ^ 16. -/
def decodeU16 (value : Value) : Option UInt16 := (natBelow UInt16.size value).map .ofNat

/-- A number below 2 ^ 64. -/
def decodeU64 (value : Value) : Option UInt64 := (natBelow UInt64.size value).map .ofNat

/-- Both fields have to be there, and others are ignored. -/
def UnknownMsg.decode : Value → Option UnknownMsg
  | .map entries => do
    let t ← field Value.text "t" entries
    let d ← field some "d" entries
    some ⟨t, d⟩
  | _ => none

/-- An envelope, with its message captured whole. -/
def UnknownEnvelope.decode : Value → Option UnknownEnvelope
  | .map entries => do
    let channel ← field decodeChannel "c" entries
    let ver ← fieldOr 0 decodeU16 "v" entries
    let msg ← field UnknownMsg.decode "m" entries
    some ⟨channel, ver, msg⟩
  | _ => none

/-- An envelope with its position under the name `position`. -/
def decodeEnvelope (position : String) (make : Channel → UInt64 → UInt16 → M → T)
    (decodeMsg : Value → Option M) : Value → Option T
  | .map entries => do
    let channel ← field decodeChannel "c" entries
    let pos ← field decodeU64 position entries
    let ver ← fieldOr 0 decodeU16 "v" entries
    let msg ← field decodeMsg "m" entries
    some (make channel pos ver msg)
  | _ => none

/-- An envelope of a client, whose message this build understands. -/
def ClientEnvelope.decode (decodeMsg : Value → Option ClientMsg) : Value → Option ClientEnvelope :=
  decodeEnvelope "r" .mk decodeMsg

/-- An envelope of the server, whose message this build understands. -/
def ServerEnvelope.decode (decodeMsg : Value → Option (ServerMsg D)) :
    Value → Option (ServerEnvelope D) :=
  decodeEnvelope "s" .mk decodeMsg

/-- The typed form is tried first. -/
def Incoming.decode (typed : Value → Option T) (value : Value) : Option (Incoming T) :=
  match typed value with
  | some env => some (.known env)
  | none => (UnknownEnvelope.decode value).map .unknown

/-! ### What is acted on -/

/-- The channel is checked before the version. -/
def gate (channel : Channel) (ver : UInt16) : Except Skipped Unit :=
  if ¬ channel.isKnown then .error (.unknownChannel channel)
  else if knownVer < ver then .error (.futureVersion channel ver)
  else .ok ()

/-- The first reason there is for not understanding an envelope. -/
def unknownReason (env : UnknownEnvelope) : Skipped :=
  if ¬ env.channel.isKnown then .unknownChannel env.channel
  else if knownVer < env.ver then .futureVersion env.channel env.ver
  else .unknownVariant env.channel env.msg.t

/-- Decide whether a decoded envelope should be acted on. -/
def accept (channel : T → Channel) (ver : T → UInt16) : Incoming T → Except Skipped T
  | .known env => (gate (channel env) (ver env)).map fun () => env
  | .unknown env => .error (unknownReason env)

/-- Decide whether a decoded client envelope should be acted on. -/
def acceptClient : Incoming ClientEnvelope → Except Skipped ClientEnvelope :=
  accept ClientEnvelope.channel ClientEnvelope.ver

/-- Decide whether a decoded server envelope should be acted on. -/
def acceptServer : Incoming (ServerEnvelope D) → Except Skipped (ServerEnvelope D) :=
  accept ServerEnvelope.channel ServerEnvelope.ver

/-! ### What a newer peer sends -/

/-- An envelope under the same scheme: its message has a tag, and a payload or, where the variant
is a unit, none. -/
structure NewerEnvelope where
  channel : Channel
  position : UInt64
  /-- `none` where the peer leaves it out. -/
  ver : Option UInt16
  tag : String
  payload : Option Value

namespace NewerEnvelope

/-- Adjacent tagging. -/
def message (env : NewerEnvelope) : Value :=
  .map ((.string "t", .string env.tag) ::
    env.payload.toList.map fun payload => (.string "d", payload))

/-- Its fields, with its position under the name `position`. -/
def entries (env : NewerEnvelope) (position : String) : List (Value × Value) :=
  [(.string "c", .integer env.channel.number.toNat),
    (.string position, .integer env.position.toNat)] ++
    (env.ver.toList.map fun ver => (.string "v", .integer ver.toNat)) ++
    [(.string "m", env.message)]

/-- How it is encoded. -/
def toValue (env : NewerEnvelope) (position : String) : Value := .map (env.entries position)

/-- What a receiver that understands the message as `msg?` has to answer: the envelope, or why
it is skipped, the channel before the version and the version before the message. -/
def verdict (env : NewerEnvelope) (make : Channel → UInt64 → UInt16 → M → T) (msg? : Option M) :
    Except Skipped T :=
  let ver := env.ver.getD 0
  if ¬ env.channel.isKnown then .error (.unknownChannel env.channel)
  else if knownVer < ver then .error (.futureVersion env.channel ver)
  else
    match msg? with
    | some msg => .ok (make env.channel env.position ver msg)
    | none => .error (.unknownVariant env.channel env.tag)

end NewerEnvelope

theorem decodeChannel_number (channel : Channel) :
    decodeChannel (.integer channel.number.toNat) = some channel := by
  rw [decodeChannel, natBelow_toNat channel.number.toNat_lt]
  simp

theorem decodeU64_toNat (n : UInt64) : decodeU64 (.integer n.toNat) = some n := by
  rw [decodeU64, natBelow_toNat n.toNat_lt]
  simp

theorem decodeU16_toNat (n : UInt16) : decodeU16 (.integer n.toNat) = some n := by
  rw [decodeU16, natBelow_toNat n.toNat_lt]
  simp

namespace NewerEnvelope

variable (env : NewerEnvelope) {position : String}

/-- What an envelope holds under each of its names. -/
theorem under_entries (hposition : position ∉ ["c", "v", "m"]) :
    Value.under "c" (env.entries position) = [.integer env.channel.number.toNat] ∧
      Value.under position (env.entries position) = [.integer env.position.toNat] ∧
      Value.under "v" (env.entries position) =
        env.ver.toList.map (fun ver => .integer ver.toNat) ∧
      Value.under "m" (env.entries position) = [env.message] := by
  simp only [List.mem_cons, List.not_mem_nil, or_false, not_or] at hposition
  obtain ⟨hc, hv, hm⟩ := hposition
  cases hver : env.ver with
  | none => simp [entries, hver, Value.under, Value.text, hc, hv, hm, Ne.symm hc, Ne.symm hm]
  | some ver =>
    simp [entries, hver, Value.under, Value.text, hc, hv, hm, Ne.symm hc, Ne.symm hv, Ne.symm hm]

theorem fieldOr_ver (hposition : position ∉ ["c", "v", "m"]) :
    fieldOr 0 decodeU16 "v" (env.entries position) = some (env.ver.getD 0) := by
  rw [fieldOr, (env.under_entries hposition).2.2.1]
  cases env.ver with
  | none => rfl
  | some ver => exact decodeU16_toNat ver

theorem field_channel (hposition : position ∉ ["c", "v", "m"]) :
    field decodeChannel "c" (env.entries position) = some env.channel := by
  rw [field, (env.under_entries hposition).1]
  exact decodeChannel_number env.channel

/-- The header of an envelope reads back, and the message with it where it does. -/
theorem decodeEnvelope_toValue (hposition : position ∉ ["c", "v", "m"])
    (make : Channel → UInt64 → UInt16 → M → T) (decodeMsg : Value → Option M) :
    decodeEnvelope position make decodeMsg (env.toValue position) =
      (decodeMsg env.message).map (make env.channel env.position (env.ver.getD 0)) := by
  have hpos : field decodeU64 position (env.entries position) = some env.position := by
    rw [field, (env.under_entries hposition).2.1]
    exact decodeU64_toNat env.position
  have hmsg : field decodeMsg "m" (env.entries position) = decodeMsg env.message := by
    rw [field, (env.under_entries hposition).2.2.2]
  rw [toValue, decodeEnvelope, env.field_channel hposition, hpos, env.fieldOr_ver hposition, hmsg]
  cases decodeMsg env.message <;> rfl

/-- The fallback captures the message of an envelope that has a payload. -/
theorem decode_message : UnknownMsg.decode env.message =
    env.payload.map fun payload => ⟨env.tag, payload⟩ := by
  cases hpayload : env.payload with
  | none => simp [message, hpayload, UnknownMsg.decode, field, Value.under, Value.text]
  | some payload => simp [message, hpayload, UnknownMsg.decode, field, Value.under, Value.text]

theorem decode_unknown_toValue (hposition : position ∉ ["c", "v", "m"]) :
    UnknownEnvelope.decode (env.toValue position) =
      env.payload.map fun payload => ⟨env.channel, env.ver.getD 0, ⟨env.tag, payload⟩⟩ := by
  have hmsg : field UnknownMsg.decode "m" (env.entries position) =
      env.payload.map fun payload => ⟨env.tag, payload⟩ := by
    rw [field, (env.under_entries hposition).2.2.2]
    exact env.decode_message
  rw [toValue, UnknownEnvelope.decode, env.field_channel hposition, env.fieldOr_ver hposition,
    hmsg]
  cases env.payload <;> rfl

/-- What a receiver makes of the envelope. -/
def received (make : Channel → UInt64 → UInt16 → M → T) (decodeMsg : Value → Option M)
    (position : String) : Option (Incoming T) :=
  Incoming.decode (decodeEnvelope position make decodeMsg) (env.toValue position)

variable {make : Channel → UInt64 → UInt16 → M → T} {decodeMsg : Value → Option M}

/-- An envelope whose message is understood is received as what it is, another one that has a
payload is captured, and one without is an error. -/
theorem received_eq (hposition : position ∉ ["c", "v", "m"]) :
    env.received make decodeMsg position =
      match decodeMsg env.message with
      | some msg => some (.known (make env.channel env.position (env.ver.getD 0) msg))
      | none => env.payload.map fun payload =>
          .unknown ⟨env.channel, env.ver.getD 0, ⟨env.tag, payload⟩⟩ := by
  rw [received, Incoming.decode, env.decodeEnvelope_toValue hposition,
    env.decode_unknown_toValue hposition]
  cases decodeMsg env.message with
  | some msg => rfl
  | none => cases env.payload <;> rfl

/-- A known message is gated by its header. -/
theorem accept_known (channel : T → Channel) (ver : T → UInt16)
    (hchannel : ∀ c p v m, channel (make c p v m) = c)
    (hver : ∀ c p v m, ver (make c p v m) = v) (msg : M) :
    accept channel ver (.known (make env.channel env.position (env.ver.getD 0) msg)) =
      env.verdict make (some msg) := by
  rw [accept, hchannel, hver, gate, verdict]
  split_ifs <;> rfl

theorem accept_unknown (channel : T → Channel) (ver : T → UInt16) (payload : Value) :
    accept channel ver (.unknown ⟨env.channel, env.ver.getD 0, ⟨env.tag, payload⟩⟩) =
      env.verdict make (none : Option M) := by
  rw [accept, unknownReason, verdict]
  split_ifs <;> rfl

/-- The envelope is read, and answered as it should be, exactly if its message is understood or
has a payload. -/
theorem understood_iff (hposition : position ∉ ["c", "v", "m"]) (channel : T → Channel)
    (ver : T → UInt16) (hchannel : ∀ c p v m, channel (make c p v m) = c)
    (hver : ∀ c p v m, ver (make c p v m) = v) :
    (∃ incoming, env.received make decodeMsg position = some incoming ∧
        accept channel ver incoming = env.verdict make (decodeMsg env.message)) ↔
      (decodeMsg env.message).isSome ∨ env.payload.isSome := by
  rw [env.received_eq hposition]
  cases decodeMsg env.message with
  | some msg =>
    simp only [Option.isSome_some, true_or, iff_true]
    exact ⟨_, rfl, env.accept_known channel ver hchannel hver msg⟩
  | none =>
    cases env.payload with
    | none => simp
    | some payload =>
      simp only [Option.isSome_some, or_true, iff_true]
      exact ⟨_, rfl, env.accept_unknown channel ver payload⟩

end NewerEnvelope

/-! ### The result -/

/-- An envelope of a newer peer is read, and answered with itself or with why it is skipped, the
channel before the version and the version before the message, exactly if its message is
understood or carries a payload. Both ways. -/
theorem skipped_iff (decodeClient : Value → Option ClientMsg)
    (decodeServer : Value → Option (ServerMsg D)) (env : NewerEnvelope) :
    ((∃ incoming, Incoming.decode (ClientEnvelope.decode decodeClient) (env.toValue "r") =
          some incoming ∧
        acceptClient incoming = env.verdict ClientEnvelope.mk (decodeClient env.message)) ↔
      (decodeClient env.message).isSome ∨ env.payload.isSome) ∧
    ((∃ incoming, Incoming.decode (ServerEnvelope.decode decodeServer) (env.toValue "s") =
          some incoming ∧
        acceptServer incoming = env.verdict ServerEnvelope.mk (decodeServer env.message)) ↔
      (decodeServer env.message).isSome ∨ env.payload.isSome) :=
  ⟨env.understood_iff (by decide) _ _ (fun _ _ _ _ => rfl) (fun _ _ _ _ => rfl),
    env.understood_iff (by decide) _ _ (fun _ _ _ _ => rfl) (fun _ _ _ _ => rfl)⟩

/-- `ClientMsg::Ping`, as it is decoded. -/
def decodePing : Value → Option ClientMsg
  | .map entries => do
    let tag ← field Value.text "t" entries
    if tag = "ping" then (field decodeU64 "d" entries).map .ping else none
  | _ => none

/-- A message that is new and has no payload is an error. -/
theorem not_skipped_unit : ¬ ∀ env : NewerEnvelope, ∃ incoming,
    Incoming.decode (ClientEnvelope.decode decodePing) (env.toValue "r") = some incoming := by
  intro h
  obtain ⟨incoming, hreceived⟩ := h ⟨.settings, 7, some 0, "settings_get", none⟩
  have hnone : NewerEnvelope.received ⟨.settings, 7, some 0, "settings_get", none⟩
      ClientEnvelope.mk decodePing "r" = none := by
    rw [NewerEnvelope.received_eq _ (by decide)]
    rfl
  cases hreceived.symm.trans hnone

end MoonCore
