import MoonCore.Wire.Batch
import MoonCore.Wire.Codec

/-!
# Envelopes as bytes

The envelopes of `wire::envelope` through the package that writes and reads them. The package is a
parameter (`RmpEnvelopes`), and so is what serde derives for the messages (`MessageSerde`): an
envelope whose message reads back reads back as itself, by itself and among others in the array of
a batch (`Wire.envelopes_read_back`).
-/

namespace MoonCore

open MsgPack
open Reader (exactly)

/-- What serde derives for a message: the name it is written under, what is written beside it, and
how a message is read. -/
structure MessageSerde (M : Type) where
  tag : M → String
  content : M → Option Value
  decode : Value → Option M

/-- `rmp_serde` at the envelopes of one side. Errors are what they say. -/
structure RmpEnvelopes (T : Type) where
  /-- `rmp_serde::to_vec_named` -/
  toVecNamed : T → Except String Bytes
  /-- `rmp_serde::from_slice::<Incoming<T>>` -/
  fromSlice : Bytes → Except String (Incoming T)
  /-- `rmp_serde::from_slice::<Vec<Incoming<T>>>` -/
  fromSliceVec : Bytes → Except String (List (Incoming T))

/-- The package follows the derives: what it writes is one value, the form of the envelope, and the
form of an envelope, or an array of such, is read as `Incoming` is derived to be. -/
structure RmpEnvelopes.Follows {T : Type} (rmp : RmpEnvelopes T) (position : String)
    (sent : T → NewerEnvelope) (typed : Value → Option T) : Prop where
  writes : ∀ env bytes, bytes.length < 2 ^ 32 → rmp.toVecNamed env = .ok bytes →
    exactly read bytes = some ((sent env).toValue position)
  reads : ∀ env bytes incoming, exactly read bytes = some ((sent env).toValue position) →
    Incoming.decode typed ((sent env).toValue position) = some incoming →
      rmp.fromSlice bytes = .ok incoming
  readsVec : ∀ (envs : List T) bytes incomings,
    exactly read bytes = some (.array (envs.map fun env => (sent env).toValue position)) →
    (envs.mapM fun env => Incoming.decode typed ((sent env).toValue position)) = some incomings →
      rmp.fromSliceVec bytes = .ok incomings

/-- An envelope of this build, as one of any peer under the same scheme. -/
def ClientEnvelope.sent (serde : MessageSerde ClientMsg) (env : ClientEnvelope) : NewerEnvelope :=
  ⟨env.channel, env.req, some env.ver, serde.tag env.msg, serde.content env.msg⟩

section

variable {D : Type}

/-- An envelope of this build, as one of any peer under the same scheme. -/
def ServerEnvelope.sent (serde : MessageSerde (ServerMsg D)) (env : ServerEnvelope D) :
    NewerEnvelope :=
  ⟨env.channel, env.seq, some env.ver, serde.tag env.msg, serde.content env.msg⟩

/-- The typed form of an envelope is what was written. -/
theorem ClientEnvelope.known_of_sent {serde : MessageSerde ClientMsg} {env : ClientEnvelope}
    (h : serde.decode (env.sent serde).message = some env.msg) :
    Incoming.decode (ClientEnvelope.decode serde.decode) ((env.sent serde).toValue "r") =
      some (.known env) := by
  rw [Incoming.decode, ClientEnvelope.decode,
    (env.sent serde).decodeEnvelope_toValue (by decide), h]
  rfl

theorem ServerEnvelope.known_of_sent {serde : MessageSerde (ServerMsg D)} {env : ServerEnvelope D}
    (h : serde.decode (env.sent serde).message = some env.msg) :
    Incoming.decode (ServerEnvelope.decode serde.decode) ((env.sent serde).toValue "s") =
      some (.known env) := by
  rw [Incoming.decode, ServerEnvelope.decode,
    (env.sent serde).decodeEnvelope_toValue (by decide), h]
  rfl

end

namespace Wire

variable {D : Type}

/-- Each item is read as itself. -/
theorem mapM_known {serde : MessageSerde (ServerMsg D)} {envs : List (ServerEnvelope D)}
    (h : ∀ env ∈ envs, serde.decode (env.sent serde).message = some env.msg) :
    (envs.mapM fun env => Incoming.decode (ServerEnvelope.decode serde.decode)
      ((env.sent serde).toValue "s")) = some (envs.map Incoming.known) := by
  induction envs with
  | nil => rfl
  | cons env envs ih =>
    obtain ⟨henv, henvs⟩ := List.forall_mem_cons.mp h
    rw [List.mapM_cons, ServerEnvelope.known_of_sent henv, ih henvs]
    rfl

/-- **Envelopes read back, alone and in a batch.** What either side writes of an envelope whose
message reads back is read as that envelope, and acted on exactly as its channel and version say;
and an array put together of any such envelopes the core wrote, fewer than `2 ^ 32`, is read as all
of them, in order. -/
theorem envelopes_read_back {clientSerde : MessageSerde ClientMsg}
    {serverSerde : MessageSerde (ServerMsg D)} {client : RmpEnvelopes ClientEnvelope}
    {server : RmpEnvelopes (ServerEnvelope D)}
    (hclient : client.Follows "r" (ClientEnvelope.sent clientSerde)
      (ClientEnvelope.decode clientSerde.decode))
    (hserver : server.Follows "s" (ServerEnvelope.sent serverSerde)
      (ServerEnvelope.decode serverSerde.decode)) :
    (∀ env bytes, clientSerde.decode (env.sent clientSerde).message = some env.msg →
      client.toVecNamed env = .ok bytes → bytes.length < 2 ^ 32 →
        (client.fromSlice bytes).map acceptClient =
          .ok ((gate env.channel env.ver).map fun () => env)) ∧
    (∀ env bytes, serverSerde.decode (env.sent serverSerde).message = some env.msg →
      server.toVecNamed env = .ok bytes → bytes.length < 2 ^ 32 →
        (server.fromSlice bytes).map acceptServer =
          .ok ((gate env.channel env.ver).map fun () => env)) ∧
    ∀ envs parts, (∀ env ∈ envs,
        serverSerde.decode (env.sent serverSerde).message = some env.msg) →
      List.Forall₂ (fun env part => server.toVecNamed env = .ok part ∧ part.length < 2 ^ 32)
        envs parts → parts.length < 2 ^ 32 →
        (server.fromSliceVec (msgpackArray parts)).map (List.map acceptServer) =
          .ok (envs.map fun env => (gate env.channel env.ver).map fun () => env) := by
  refine ⟨?_, ?_, ?_⟩
  · intro env bytes hmsg henv hsize
    have hread := hclient.writes env bytes hsize henv
    rw [hclient.reads env bytes _ hread (ClientEnvelope.known_of_sent hmsg)]
    rfl
  · intro env bytes hmsg henv hsize
    have hread := hserver.writes env bytes hsize henv
    rw [hserver.reads env bytes _ hread (ServerEnvelope.known_of_sent hmsg)]
    rfl
  · intro envs parts hmsgs hparts hcount
    have hreads : List.Forall₂ (fun part value => exactly read part = some value) parts
        (envs.map fun env => (env.sent serverSerde).toValue "s") := by
      refine List.forall₂_map_right_iff.mpr (hparts.flip.imp fun part env hpart => ?_)
      exact hserver.writes env part hpart.2 hpart.1
    -- The array is put together of frames, and read as one value.
    have harray : exactly read (msgpackArray parts) =
        some (.array (envs.map fun env => (env.sent serverSerde).toValue "s")) := by
      rw [Batcher.msgpackArray_eq]
      exact exactly_array hreads hcount
    rw [hserver.readsVec envs _ _ harray (mapM_known hmsgs)]
    change Except.ok ((envs.map Incoming.known).map acceptServer) = _
    rw [List.map_map]
    rfl

/-! ### A package that does just that -/

end Wire

namespace NewerEnvelope

theorem fits_message {env : NewerEnvelope} (h : ∀ payload ∈ env.payload, payload.Fits) :
    env.message.Fits := by
  refine .map (fun entry hentry => ?_) (fun entry hentry => ?_)
  · rcases List.mem_cons.mp hentry with rfl | hmem
    · exact .string _
    · obtain ⟨payload, -, rfl⟩ := List.mem_map.mp hmem
      exact .string _
  · rcases List.mem_cons.mp hentry with rfl | hmem
    · exact .string _
    · obtain ⟨payload, hpayload, rfl⟩ := List.mem_map.mp hmem
      exact h payload (Option.mem_toList.mp hpayload)

theorem fits_toValue {env : NewerEnvelope} (h : ∀ payload ∈ env.payload, payload.Fits)
    (position : String) : (env.toValue position).Fits := by
  have hnumber {n : ℕ} (hn : n < 256 ^ 8) : (Value.integer n).Fits :=
    .integer (by omega) (by omega)
  have hchannel := env.channel.number.toNat_lt
  have hposition := env.position.toNat_lt
  refine .map (fun entry hentry => ?_) (fun entry hentry => ?_)
  all_goals
    simp only [entries, List.mem_append, List.mem_cons, List.not_mem_nil, or_false, List.mem_map,
      Option.mem_toList] at hentry
  · rcases hentry with ((rfl | rfl) | ⟨ver, -, rfl⟩) | rfl <;> exact .string _
  · rcases hentry with ((rfl | rfl) | ⟨ver, -, rfl⟩) | rfl
    · exact hnumber (by omega)
    · exact hnumber (by omega)
    · have hver := ver.toNat_lt
      exact hnumber (by omega)
    · exact fits_message h

end NewerEnvelope

/-- A package that writes the envelopes that hold what it can write, and reads as it must. -/
def RmpEnvelopes.plain {T : Type} (position : String) (sent : T → NewerEnvelope)
    (typed : Value → Option T) (holds : T → Bool) : RmpEnvelopes T where
  toVecNamed env :=
    if holds env then .ok (write ((sent env).toValue position)) else .error "out of range"
  fromSlice bytes :=
    match (exactly read bytes).bind (Incoming.decode typed) with
    | some incoming => .ok incoming
    | none => .error "no envelope"
  fromSliceVec bytes :=
    match exactly read bytes with
    | some (.array values) =>
      match values.mapM (Incoming.decode typed) with
      | some incomings => .ok incomings
      | none => .error "no envelope"
    | _ => .error "no array"

theorem RmpEnvelopes.follows_plain {T : Type} {position : String} {sent : T → NewerEnvelope}
    {typed : Value → Option T} {holds : T → Bool}
    (h : ∀ env, holds env = true → ∀ payload ∈ (sent env).payload, payload.Fits) :
    (RmpEnvelopes.plain position sent typed holds).Follows position sent typed where
  writes env bytes hsize henv := by
    rw [plain] at henv
    dsimp only at henv
    split_ifs at henv with hholds
    obtain rfl := Except.ok.inj henv
    exact exactly_write (NewerEnvelope.fits_toValue (h env hholds) position) hsize
  reads env bytes incoming hread hdecode := by
    rw [plain]
    dsimp only
    rw [hread, Option.bind_some, hdecode]
  readsVec envs bytes incomings hread hdecode := by
    have hvalues : (envs.map fun env => (sent env).toValue position).mapM
        (Incoming.decode typed) = some incomings := by
      rw [List.mapM_map]
      exact hdecode
    rw [plain]
    dsimp only
    rw [hread]
    dsimp only
    rw [hvalues]

namespace Wire

/-- What the forms of the messages make of them. -/
def clientSerde : MessageSerde ClientMsg :=
  ⟨ClientMsg.variants.tag, ClientMsg.variants.content, ClientMsg.codec.decode⟩

/-- What the forms of the messages make of them. -/
def serverSerde : MessageSerde (ServerMsg ℕ) :=
  ⟨(ServerMsg.variants digits).tag, (ServerMsg.variants digits).content,
    (ServerMsg.codec digits).decode⟩

theorem fits_clientContent {msg : ClientMsg} (h : ClientMsg.codec.Valid msg) :
    ∀ payload ∈ clientSerde.content msg, payload.Fits :=
  ClientMsg.variants.fits msg h

theorem fits_serverContent {msg : ServerMsg ℕ} (h : (ServerMsg.codec digits).Valid msg) :
    ∀ payload ∈ serverSerde.content msg, payload.Fits :=
  (ServerMsg.variants digits).fits msg h

/-- The envelopes of a terminal. -/
def clientRmp : RmpEnvelopes ClientEnvelope :=
  .plain "r" (ClientEnvelope.sent clientSerde) (ClientEnvelope.decode clientSerde.decode)
    fun env => ClientMsg.codec.Valid env.msg

/-- The envelopes of a core. -/
def serverRmp : RmpEnvelopes (ServerEnvelope ℕ) :=
  .plain "s" (ServerEnvelope.sent serverSerde) (ServerEnvelope.decode serverSerde.decode)
    fun env => (ServerMsg.codec digits).Valid env.msg

theorem follows_clientRmp : clientRmp.Follows "r" (ClientEnvelope.sent clientSerde)
    (ClientEnvelope.decode clientSerde.decode) :=
  RmpEnvelopes.follows_plain fun _ h => fits_clientContent (of_decide_eq_true h)

theorem follows_serverRmp : serverRmp.Follows "s" (ServerEnvelope.sent serverSerde)
    (ServerEnvelope.decode serverSerde.decode) :=
  RmpEnvelopes.follows_plain fun _ h => fits_serverContent (of_decide_eq_true h)

/-- A pong on the control channel, and one from a build that is newer. -/
def twoEnvelopes : List (ServerEnvelope ℕ) := [⟨.control, 0, 0, .pong 7⟩, ⟨.tape, 9, 1, .pong 300⟩]

/-- A ping, the pong to it, and a batch of two pongs. -/
theorem envelopes_read_back_two :
    (∃ bytes, clientRmp.toVecNamed ⟨.control, 4, 0, .ping 7⟩ = .ok bytes ∧
      (clientRmp.fromSlice bytes).map acceptClient = .ok (.ok ⟨.control, 4, 0, .ping 7⟩)) ∧
    (∃ bytes, serverRmp.toVecNamed ⟨.control, 0, 0, .pong 7⟩ = .ok bytes ∧
      (serverRmp.fromSlice bytes).map acceptServer = .ok (.ok ⟨.control, 0, 0, .pong 7⟩)) ∧
    ∃ parts, List.Forall₂ (fun env part => serverRmp.toVecNamed env = .ok part)
        twoEnvelopes parts ∧
      (serverRmp.fromSliceVec (msgpackArray parts)).map (List.map acceptServer) =
        .ok [.ok ⟨.control, 0, 0, .pong 7⟩, .error (.futureVersion .tape 1)] := by
  obtain ⟨hping, hpong, hbatch⟩ := envelopes_read_back follows_clientRmp follows_serverRmp
  refine ⟨⟨_, rfl, hping ⟨.control, 4, 0, .ping 7⟩ _ rfl rfl (by decide +kernel)⟩,
    ⟨_, rfl, hpong ⟨.control, 0, 0, .pong 7⟩ _ rfl rfl (by decide +kernel)⟩,
    _, .cons rfl (.cons rfl .nil), ?_⟩
  exact hbatch twoEnvelopes _
    (List.forall_mem_cons.mpr ⟨rfl, List.forall_mem_singleton.mpr rfl⟩)
    (.cons ⟨rfl, by decide +kernel⟩ (.cons ⟨rfl, by decide +kernel⟩ .nil)) (by decide)

end Wire

end MoonCore
