import MoonCore.Wire.Forms
import MoonCore.Wire.Frame

/-!
# The messages as bytes

`wire::codec`. The package that writes and reads MessagePack is a parameter, `RmpSerde`: what it
writes of a message and what it makes of bytes, with its own errors. What is documented of it is a
hypothesis where a result needs it: that it follows the forms of the messages
(`RmpSerde.Follows`), or no more than that a message is written under its name and that bytes under
a name it does not know are refused (`RmpSerde.Tagged`).

What either side sends is what the other side reads (`Wire.frames_read_back`), and what a side sent
itself is no message to it (`Wire.not_reflected`).
-/

namespace MoonCore

open MsgPack
open Reader (exactly)

/-! ### The package -/

/-- `rmp_serde` at one type. Errors are what they say. -/
structure RmpSerde (T : Type*) where
  /-- `rmp_serde::to_vec_named` -/
  toVecNamed : T → Except String Bytes
  /-- `rmp_serde::from_slice` -/
  fromSlice : Bytes → Except String T

namespace RmpSerde

variable {T : Type*} {rmp : RmpSerde T}

/-- The package follows the form of the type: what it writes is one value, the form of the message,
and one value that has the form of a message is read as that message. -/
structure Follows (rmp : RmpSerde T) (codec : Codec T) : Prop where
  writes : ∀ msg bytes, codec.Valid msg → bytes.length < 2 ^ 32 →
    rmp.toVecNamed msg = .ok bytes → exactly read bytes = some (codec.encode msg)
  reads : ∀ bytes value msg, exactly read bytes = some value → codec.decode value = some msg →
    rmp.fromSlice bytes = .ok msg

/-- The type is an enum tagged under `t`: a message is written as a map with its name there, and a
map with another name there is refused. -/
structure Tagged (rmp : RmpSerde T) (names : List String) (tag : T → String) : Prop where
  writes : ∀ msg bytes, bytes.length < 2 ^ 32 → rmp.toVecNamed msg = .ok bytes →
    ∃ entries, exactly read bytes = some (.map entries) ∧
      Value.under "t" entries = [.string (tag msg)]
  refuses : ∀ bytes entries name, exactly read bytes = some (.map entries) →
    Value.under "t" entries = [.string name] → name ∉ names →
      ∃ why, rmp.fromSlice bytes = .error why

end RmpSerde

/-- A package that does just what the form says. -/
def Codec.rmpSerde {T : Type*} (codec : Codec T) : RmpSerde T where
  toVecNamed msg :=
    let bytes := write (codec.encode msg)
    if codec.Valid msg ∧ bytes.length < 2 ^ 32 then .ok bytes else .error "out of range"
  fromSlice bytes :=
    match (exactly read bytes).bind codec.decode with
    | some msg => .ok msg
    | none => .error "no such message"

namespace Codec

variable {T : Type*} (codec : Codec T) {msg : T} {bytes : Bytes}

theorem toVecNamed_eq_ok : codec.rmpSerde.toVecNamed msg = .ok bytes ↔
    codec.Valid msg ∧ bytes.length < 2 ^ 32 ∧ write (codec.encode msg) = bytes := by
  rw [rmpSerde]
  dsimp only
  constructor
  · intro h
    split_ifs at h with hvalid
    obtain rfl := Except.ok.inj h
    exact ⟨hvalid.1, hvalid.2, rfl⟩
  · rintro ⟨hvalid, hsize, rfl⟩
    exact if_pos ⟨hvalid, hsize⟩

theorem exactly_of_toVecNamed (h : codec.rmpSerde.toVecNamed msg = .ok bytes) :
    exactly read bytes = some (codec.encode msg) := by
  obtain ⟨hvalid, hsize, rfl⟩ := codec.toVecNamed_eq_ok.mp h
  exact exactly_write (codec.fits msg hvalid) hsize

theorem follows_rmpSerde : codec.rmpSerde.Follows codec where
  writes _ _ _ _ h := codec.exactly_of_toVecNamed h
  reads bytes value msg hread hdecode := by
    rw [rmpSerde]
    dsimp only
    rw [hread, Option.bind_some, hdecode]

theorem tagged_rmpSerde {tags : List String} (variants : Variants tags T)
    (h : "t" ≠ "d") : (variants.adjacent "t" "d" h).rmpSerde.Tagged tags variants.tag where
  writes msg bytes _ hmsg :=
    ⟨_, (variants.adjacent "t" "d" h).exactly_of_toVecNamed hmsg, variants.under_tag h msg⟩
  refuses bytes entries name hread hunder hname := by
    refine ⟨"no such message", ?_⟩
    rw [rmpSerde]
    dsimp only
    rw [hread, Option.bind_some, variants.decode_adjacent_eq_none h hunder hname]

end Codec

/-! ### Names -/

/-- The name of a message. -/
def ClientMsg.tag : ClientMsg → String
  | .hello .. => "hello"
  | .subscribe _ => "subscribe"
  | .unsubscribe _ => "unsubscribe"
  | .ping _ => "ping"

/-- The names of the messages of a terminal. -/
def ClientMsg.tags : List String := ["hello", "subscribe", "unsubscribe", "ping"]

/-- The name of a message. -/
def ServerMsg.tag {D : Type*} : ServerMsg D → String
  | .welcome _ => "welcome"
  | .event _ => "event"
  | .pong _ => "pong"
  | .failed .. => "failed"

/-- The names of the messages of the core. -/
def ServerMsg.tags : List String := ["welcome", "event", "pong", "failed"]

theorem ClientMsg.tag_mem (msg : ClientMsg) : msg.tag ∈ ClientMsg.tags := by
  cases msg <;> simp [tag, tags]

theorem ServerMsg.tag_mem {D : Type*} (msg : ServerMsg D) : msg.tag ∈ ServerMsg.tags := by
  cases msg <;> simp [tag, tags]

/-- A message of one side is none of the other's. -/
theorem ServerMsg.tag_not_mem {D : Type*} (msg : ServerMsg D) : msg.tag ∉ ClientMsg.tags := by
  have hapart : ∀ name ∈ ServerMsg.tags, name ∉ ClientMsg.tags := by decide
  exact hapart _ msg.tag_mem

theorem ClientMsg.tag_not_mem (msg : ClientMsg) : msg.tag ∉ ServerMsg.tags := by
  have hapart : ∀ name ∈ ClientMsg.tags, name ∉ ServerMsg.tags := by decide
  exact hapart _ msg.tag_mem

/-- The messages under their names. -/
theorem ClientMsg.tagged_rmpSerde :
    ClientMsg.codec.rmpSerde.Tagged ClientMsg.tags ClientMsg.tag := by
  have htag : ClientMsg.variants.tag = ClientMsg.tag := by
    funext msg
    cases msg <;> rfl
  exact htag ▸ Codec.tagged_rmpSerde ClientMsg.variants (by decide)

theorem ServerMsg.tagged_rmpSerde {D : Type*} (decimals : Decimals D) :
    (ServerMsg.codec decimals).rmpSerde.Tagged ServerMsg.tags ServerMsg.tag := by
  have htag : (ServerMsg.variants decimals).tag = ServerMsg.tag := by
    funext msg
    cases msg <;> rfl
  exact htag ▸ Codec.tagged_rmpSerde (ServerMsg.variants decimals) (by decide)

/-! ### Frames -/

namespace Wire

/-- Largest frame either side will accept. -/
def maxFrameBytes : ℕ := 8 * 1024 * 1024

/-- What a codec error says. -/
def errorText : CodecError → String
  | .tooLarge size => s!"frame is {size} bytes, over the {maxFrameBytes} limit"
  | .encode message => "encode failed: " ++ message
  | .decode message => "decode failed: " ++ message

variable {T D : Type*}

/-- A message, as a frame. -/
def encode (rmp : RmpSerde T) (msg : T) : Except CodecError Bytes :=
  match rmp.toVecNamed msg with
  | .error why => .error (.encode why)
  | .ok bytes =>
    if bytes.length > maxFrameBytes then .error (.tooLarge bytes.length) else .ok bytes

/-- A frame, as a message. Its length is looked at first. -/
def decode (rmp : RmpSerde T) (bytes : Bytes) : Except CodecError T :=
  if bytes.length > maxFrameBytes then .error (.tooLarge bytes.length)
  else (rmp.fromSlice bytes).mapError .decode

/-- What the core reads. -/
def decodeClient (rmp : RmpSerde ClientMsg) (bytes : Bytes) : Except CodecError ClientMsg :=
  decode rmp bytes

/-- What the terminal reads. -/
def decodeServer (rmp : RmpSerde (ServerMsg D)) (bytes : Bytes) :
    Except CodecError (ServerMsg D) :=
  decode rmp bytes

/-! ### What is sent is what is read -/

variable {rmp : RmpSerde T} {msg : T} {bytes : Bytes}

theorem encode_eq_ok : encode rmp msg = .ok bytes ↔
    rmp.toVecNamed msg = .ok bytes ∧ bytes.length ≤ maxFrameBytes := by
  rw [encode]
  cases rmp.toVecNamed msg with
  | error why => simp
  | ok written =>
    dsimp only
    constructor
    · intro h
      split_ifs at h with hlarge
      obtain rfl := Except.ok.inj h
      exact ⟨rfl, not_lt.mp hlarge⟩
    · rintro ⟨hwritten, hsize⟩
      obtain rfl := Except.ok.inj hwritten
      exact if_neg (not_lt.mpr hsize)

theorem length_lt_of_encode (h : encode rmp msg = .ok bytes) : bytes.length < 2 ^ 32 :=
  (encode_eq_ok.mp h).2.trans_lt (by decide)

/-- A frame is as short as a decoder wants it. -/
theorem decode_of_encode {U : Type*} (h : encode rmp msg = .ok bytes) (other : RmpSerde U) :
    decode other bytes = (other.fromSlice bytes).mapError .decode :=
  if_neg (not_lt.mpr (encode_eq_ok.mp h).2)

/-- What becomes of a message: a frame that reads back, or what the package says against writing
it, or how long its frame would be. -/
def ReadsBack (rmp : RmpSerde T) (msg : T) : Prop :=
  match rmp.toVecNamed msg with
  | .error why => encode rmp msg = .error (.encode why)
  | .ok bytes =>
    if bytes.length ≤ maxFrameBytes then encode rmp msg = .ok bytes ∧ decode rmp bytes = .ok msg
    else encode rmp msg = .error (.tooLarge bytes.length)

theorem ReadsBack.of_short (h : ReadsBack rmp msg) (hmsg : rmp.toVecNamed msg = .ok bytes)
    (hsize : bytes.length ≤ maxFrameBytes) :
    ∃ bytes, encode rmp msg = .ok bytes ∧ decode rmp bytes = .ok msg := by
  rw [ReadsBack, hmsg] at h
  dsimp only at h
  rw [if_pos hsize] at h
  exact ⟨bytes, h⟩

theorem readsBack {codec : Codec T} (hrmp : rmp.Follows codec) (hvalid : codec.Valid msg) :
    ReadsBack rmp msg := by
  rw [ReadsBack]
  cases hmsg : rmp.toVecNamed msg with
  | error why => rw [encode, hmsg]
  | ok bytes =>
    dsimp only
    split_ifs with hsize
    · have h : encode rmp msg = .ok bytes := encode_eq_ok.mpr ⟨hmsg, hsize⟩
      have hread := hrmp.writes msg bytes hvalid (length_lt_of_encode h) hmsg
      have hback := hrmp.reads bytes _ msg hread (codec.decode_encode msg hvalid)
      refine ⟨h, ?_⟩
      rw [decode_of_encode h, hback]
      rfl
    · rw [encode, hmsg]
      exact if_pos (not_le.mp hsize)

/-- **What either side sends is what the other side reads.** With a package that follows the forms
of the messages, every message of the core and of the terminal is encoded as a frame that the other
side decodes as that message, unless the package does not write it or its frame would be above the
limit; these are the errors `encode` has, and each is the one that applies. -/
theorem frames_read_back (decimals : Decimals D) {client : RmpSerde ClientMsg}
    {server : RmpSerde (ServerMsg D)} (hclient : client.Follows ClientMsg.codec)
    (hserver : server.Follows (ServerMsg.codec decimals)) :
    (∀ msg, ClientMsg.codec.Valid msg → ReadsBack client msg) ∧
      ∀ msg, (ServerMsg.codec decimals).Valid msg → ReadsBack server msg :=
  ⟨fun _ => readsBack hclient, fun _ => readsBack hserver⟩

/-- One digit, as decimals print it. -/
def digits : Decimals ℕ where
  Valid d := d < 10
  decidable d := d.decLt 10
  print d := String.singleton (.ofNat (48 + d))
  parse text :=
    match text.toList with
    | [c] => if c.isDigit then some (c.toNat - 48) else none
    | _ => none
  parse_print := by decide

/-- A print at 7 for 2. -/
def sevenMsg : ServerMsg ℕ :=
  .event ⟨1700000000000, .market (.trade ⟨btcusdt, 7, 2, .sell, 1699999999999, 4027555089⟩)⟩

/-- What an account holds. -/
def balancesMsg : ServerMsg ℕ := .event ⟨1700000000000, .account (.balances [⟨"USDT", 9, 1⟩])⟩

/-- The core tells what an account holds, and a terminal asks for a session. -/
theorem frames_read_back_balances :
    let server := (ServerMsg.codec digits).rmpSerde
    let client := ClientMsg.codec.rmpSerde
    (∃ bytes, encode server balancesMsg = .ok bytes ∧
      decodeServer server bytes = .ok balancesMsg) ∧
      ∃ bytes, encode client (.hello 2 "s3cret") = .ok bytes ∧
        decodeClient client bytes = .ok (.hello 2 "s3cret") := by
  intro server client
  obtain ⟨hclient, hserver⟩ := frames_read_back digits ClientMsg.codec.follows_rmpSerde
    (ServerMsg.codec digits).follows_rmpSerde
  exact ⟨(hserver balancesMsg (by decide)).of_short
      ((ServerMsg.codec digits).toVecNamed_eq_ok.mpr ⟨by decide, by decide +kernel, rfl⟩)
      (by decide +kernel),
    (hclient (.hello 2 "s3cret") (by decide)).of_short
      (ClientMsg.codec.toVecNamed_eq_ok.mpr ⟨by decide, by decide +kernel, rfl⟩)
      (by decide +kernel)⟩

/-! ### What is sent comes back -/

/-- A frame under a name the other type does not have is no message of it. -/
theorem decode_of_tagged {U : Type*} {other : RmpSerde U} {names others : List String}
    {tag : T → String} {otherTag : U → String} (hrmp : rmp.Tagged names tag)
    (hother : other.Tagged others otherTag) (htag : tag msg ∉ others)
    (h : encode rmp msg = .ok bytes) : ∃ why, decode other bytes = .error (.decode why) := by
  obtain ⟨entries, hread, hunder⟩ :=
    hrmp.writes msg bytes (length_lt_of_encode h) (encode_eq_ok.mp h).1
  obtain ⟨why, hwhy⟩ := hother.refuses bytes entries (tag msg) hread hunder htag
  refine ⟨why, ?_⟩
  rw [decode_of_encode h, hwhy]
  rfl

/-- **What a side sent itself is no message to it.** A frame of the core that comes back to it is
answered as malformed and changes nothing, whatever it carries and whoever is connected; and a
frame of the terminal that comes back is one it cannot decode. -/
theorem not_reflected {client : RmpSerde ClientMsg} {server : RmpSerde (ServerMsg D)}
    (hclient : client.Tagged ClientMsg.tags ClientMsg.tag)
    (hserver : server.Tagged ServerMsg.tags ServerMsg.tag) :
    (∀ msg bytes, encode server msg = .ok bytes →
      ∃ why, ∀ (session : Session) (auth : Auth),
        session.receive auth ((decodeClient client bytes).mapError errorText) =
          (session, (⟨.failed .malformed ("decode failed: " ++ why), false⟩ : Reaction D))) ∧
    ∀ msg bytes, encode client msg = .ok bytes →
      ∃ why, decodeServer server bytes = .error (.decode why) := by
  constructor
  · intro msg bytes h
    obtain ⟨why, hwhy⟩ := decode_of_tagged hserver hclient msg.tag_not_mem h
    refine ⟨why, fun session auth => ?_⟩
    rw [decodeClient, hwhy]
    rfl
  · intro msg bytes h
    exact decode_of_tagged hclient hserver msg.tag_not_mem h

/-- A terminal that sends a print back to the core, and a core that sends a ping back. -/
theorem not_reflected_seven :
    let server := (ServerMsg.codec digits).rmpSerde
    let client := ClientMsg.codec.rmpSerde
    (∃ bytes why, encode server sevenMsg = .ok bytes ∧
      (⟨true, [.trades btcusdt]⟩ : Session).receive ⟨"s3cret"⟩
          ((decodeClient client bytes).mapError errorText) =
        (⟨true, [.trades btcusdt]⟩,
          (⟨.failed .malformed ("decode failed: " ++ why), false⟩ : Reaction ℕ))) ∧
      ∃ bytes why, encode client (.ping 7) = .ok bytes ∧
        decodeServer server bytes = .error (.decode why) := by
  intro server client
  obtain ⟨hserver, hclient⟩ :=
    not_reflected ClientMsg.tagged_rmpSerde (ServerMsg.tagged_rmpSerde digits)
  have hprint : encode server sevenMsg = .ok (write ((ServerMsg.codec digits).encode sevenMsg)) :=
    encode_eq_ok.mpr ⟨(ServerMsg.codec digits).toVecNamed_eq_ok.mpr
      ⟨by decide, by decide +kernel, rfl⟩, by decide +kernel⟩
  have hping : encode client (.ping 7) = .ok (write (ClientMsg.codec.encode (.ping 7))) :=
    encode_eq_ok.mpr ⟨ClientMsg.codec.toVecNamed_eq_ok.mpr
      ⟨by decide, by decide +kernel, rfl⟩, by decide +kernel⟩
  obtain ⟨why, hwhy⟩ := hserver sevenMsg _ hprint
  exact ⟨⟨_, why, hprint, hwhy _ _⟩, _, (hclient (.ping 7) _ hping).imp fun _ h => ⟨hping, h⟩⟩

end Wire

end MoonCore
