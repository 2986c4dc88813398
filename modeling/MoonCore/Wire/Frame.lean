import Mathlib.Algebra.Group.Nat.Defs
import Mathlib.Algebra.Ring.Int.Defs
import Mathlib.Data.List.Basic
import Mathlib.Order.Lattice

/-!
# The frame

`wire::frame`: two bytes of preamble, then a body that may be compressed. What zstd does to a
body is a parameter: `compress` may fail, and may reach any ratio; the decoder refuses a stream,
or reads out bytes until the stream ends or turns out corrupt. Lengths are natural numbers: no
buffer is so long that a hundred times its length does not fit in a `usize`.

`encode` decides by what a body compresses to, `decode` by what a frame expands to.
`decode_encode_iff` says for which bodies the two agree.
-/

namespace MoonCore

/-- The bytes of a message, a body or a frame. -/
abbrev Bytes := List UInt8

/-- Why the codec refuses a frame or a message. -/
inductive CodecError where
  | tooLarge (size : ℕ)
  | encode (message : String)
  | decode (message : String)
  deriving DecidableEq

namespace Frame

/-- Envelope format. -/
def fmtV1 : UInt8 := 1

/-- Body is a zstd stream. -/
def flagZstd : UInt8 := 0b00000001

/-- Body is an array of envelopes rather than a single one. -/
def flagBatch : UInt8 := 0b00000010

/-- Bits with no meaning yet. -/
def flagReserved : UInt8 := 0b11111100

/-- Largest frame a terminal may send. -/
def maxFrameC2s : ℕ := 1024 * 1024

/-- Largest frame a core may send. -/
def maxFrameS2c : ℕ := 16 * 1024 * 1024

/-- Hard ceiling on decompressed size, whatever the ratio works out to. -/
def maxInflated : ℕ := 64 * 1024 * 1024

/-- A frame may not expand by more than this. -/
def maxInflateRatio : ℕ := 64

/-- Floor under the decompression budget, regardless of ratio. -/
def minInflateBudget : ℕ := 1024 * 1024

/-- Below this, compression loses to its own header. -/
def compressMinBytes : ℕ := 512

/-- And it is only worth sending compressed if it actually saved this much. -/
def compressMinGainPct : ℕ := 5

/-- Throughput matters more than ratio on a channel carrying ten thousand frames a second. -/
def zstdLevel : ℤ := 1

end Frame

/-- Which way a frame is travelling. -/
inductive Direction where
  | clientToServer
  | serverToClient
  deriving DecidableEq

/-- The size limit of a direction. -/
def Direction.maxFrame : Direction → ℕ
  | clientToServer => Frame.maxFrameC2s
  | serverToClient => Frame.maxFrameS2c

/-- The zstd library. -/
structure Zstd where
  /-- `bulk::compress` at a level. -/
  compress : Bytes → ℤ → Option Bytes
  /-- `stream::Decoder`: why it is no stream, or what can be read and what then fails. -/
  decoder : Bytes → Except String (Bytes × Option String)

/-- Decompression is a left inverse of compression. -/
def Zstd.Lossless (zstd : Zstd) : Prop :=
  ∀ body level z, zstd.compress body level = some z → zstd.decoder z = .ok (body, none)

/-- A frame with its preamble parsed and its body plain. -/
structure Frame where
  batch : Bool
  wasCompressed : Bool
  body : Bytes
  deriving DecidableEq

namespace Frame

variable (zstd : Zstd)

/-- The compressed form of a body, where sending it is worth it. -/
def compressed (body : Bytes) : Option Bytes :=
  (if compressMinBytes ≤ body.length then zstd.compress body zstdLevel else none).filter
    fun z => z.length * 100 ≤ body.length * (100 - compressMinGainPct)

/-- Wrap a body in a frame, compressing it if that is worth doing. -/
def encode (body : Bytes) (batch : Bool) (limit : ℕ) : Except CodecError Bytes :=
  let flags := if batch then flagBatch else 0
  let (flags, payload) :=
    match compressed zstd body with
    | some z => (flags ||| flagZstd, z)
    | none => (flags, body)
  let total := 2 + payload.length
  if total > limit then .error (.tooLarge total) else .ok (fmtV1 :: flags :: payload)

/-- How far a compressed body may expand: its length times the ratio, clamped. -/
def ceiling (compressed : ℕ) : ℕ :=
  max minInflateBudget (min maxInflated (compressed * maxInflateRatio))

/-- Decompress with a ceiling derived from the compressed size. -/
def inflate (compressed : Bytes) : Except CodecError Bytes :=
  let ceiling := ceiling compressed.length
  match zstd.decoder compressed with
  | .error e => .error (.decode s!"not a zstd stream: {e}")
  | .ok (stream, failure) =>
    -- one byte past the ceiling is read, and nothing after it
    let out := stream.take (ceiling + 1)
    match if out.length ≤ ceiling then failure else none with
    | some e => .error (.decode s!"zstd stream is corrupt: {e}")
    | none =>
      if out.length > ceiling then
        .error (.decode (s!"decompression ratio over {maxInflateRatio}:1 — " ++
          s!"{compressed.length} compressed bytes expanded past {ceiling}"))
      else .ok out

/-- A byte as Rust prints it with `{:#010b}`. -/
def binary (byte : UInt8) : String :=
  "0b" ++
    String.ofList ((List.range 8).map fun i => if byte.toNat.testBit (7 - i) then '1' else '0')

/-- Parse a frame: check the preamble, enforce the limit, decompress if needed. -/
def decode (frame : Bytes) (direction : Direction) : Except CodecError Frame :=
  if frame.length > direction.maxFrame then .error (.tooLarge frame.length)
  else
    match frame with
    | fmt :: flags :: body =>
      if fmt ≠ fmtV1 then
        .error (.decode s!"unknown envelope format {fmt}; this peer speaks {fmtV1}")
      else if flags &&& flagReserved ≠ 0 then
        .error (.decode s!"reserved flag bits set: {binary (flags &&& flagReserved)}")
      else
        let wasCompressed : Bool := flags &&& flagZstd ≠ 0
        let inflated := if wasCompressed then inflate zstd body else .ok body
        inflated.map fun body => ⟨flags &&& flagBatch ≠ 0, wasCompressed, body⟩
    | _ =>
      .error (.decode s!"frame is {frame.length} bytes, shorter than the 2-byte preamble")

/-! ### What the encoder sends -/

variable {zstd}

theorem compressed_eq_some {body z : Bytes} :
    compressed zstd body = some z ↔ compressMinBytes ≤ body.length ∧
      zstd.compress body zstdLevel = some z ∧
      z.length * 100 ≤ body.length * (100 - compressMinGainPct) := by
  rw [compressed, Option.filter_eq_some_iff, decide_eq_true_eq]
  by_cases hmin : compressMinBytes ≤ body.length
  · rw [if_pos hmin]
    exact ⟨fun ⟨hz, hgain⟩ => ⟨hmin, hz, hgain⟩, fun ⟨_, hz, hgain⟩ => ⟨hz, hgain⟩⟩
  · rw [if_neg hmin]
    exact ⟨fun ⟨hz, _⟩ => absurd hz (by simp), fun ⟨h, _⟩ => absurd h hmin⟩

/-- The flags of a batch, compressed or not. -/
def flags (batch wasCompressed : Bool) : UInt8 :=
  (if batch then flagBatch else 0) ||| (if wasCompressed then flagZstd else 0)

/-- A frame that goes out is within the limit and carries the compressed form, if that was worth
it, or the body. -/
theorem encode_eq_ok {body frame : Bytes} {batch : Bool} {limit : ℕ} :
    encode zstd body batch limit = .ok frame ↔
      (∃ z, compressed zstd body = some z ∧ 2 + z.length ≤ limit ∧
        frame = fmtV1 :: flags batch true :: z) ∨
      (compressed zstd body = none ∧ 2 + body.length ≤ limit ∧
        frame = fmtV1 :: flags batch false :: body) := by
  have hflags : flags batch false = if batch then flagBatch else 0 := by cases batch <;> rfl
  rw [encode, hflags]
  cases hz : compressed zstd body with
  | none =>
    by_cases hlimit : 2 + body.length > limit
    · simp [hlimit]
    · simp [not_lt.mp hlimit, hlimit, eq_comm]
  | some z =>
    have hzstd : flags batch true = (if batch then flagBatch else 0) ||| flagZstd := rfl
    rw [hzstd]
    by_cases hlimit : 2 + z.length > limit
    · simp [hlimit]
    · simp [not_lt.mp hlimit, hlimit, eq_comm]

theorem flags_reserved : ∀ batch wasCompressed,
    flags batch wasCompressed &&& flagReserved = 0 := by decide

theorem flags_batch : ∀ batch wasCompressed,
    decide (flags batch wasCompressed &&& flagBatch ≠ 0) = batch := by decide

theorem flags_zstd : ∀ batch wasCompressed,
    decide (flags batch wasCompressed &&& flagZstd ≠ 0) = wasCompressed := by decide

/-! ### What the decoder makes of it -/

/-- The preamble of an encoder is read back as it was written. -/
theorem decode_flags (batch wasCompressed : Bool) {payload : Bytes} {direction : Direction}
    (hlimit : 2 + payload.length ≤ direction.maxFrame) :
    decode zstd (fmtV1 :: flags batch wasCompressed :: payload) direction =
      (if wasCompressed then inflate zstd payload else .ok payload).map
        fun body => ⟨batch, wasCompressed, body⟩ := by
  have hlength : ¬ (fmtV1 :: flags batch wasCompressed :: payload).length > direction.maxFrame := by
    simp only [List.length_cons]
    omega
  rw [decode, if_neg hlength]
  simp only [flags_reserved, flags_batch, flags_zstd, ne_eq, not_true_eq_false, if_false]

/-- A body within the ceiling comes out whole. -/
theorem inflate_of_le {z body : Bytes} (hz : zstd.decoder z = .ok (body, none))
    (hle : body.length ≤ ceiling z.length) : inflate zstd z = .ok body := by
  have htake : body.take (ceiling z.length + 1) = body := List.take_of_length_le (by omega)
  have hnot : ¬ body.length > ceiling z.length := not_lt.mpr hle
  simp only [inflate, hz, htake, if_pos hle, if_neg hnot]

/-- A body past the ceiling does not come out. -/
theorem inflate_of_lt {z body : Bytes} (hz : zstd.decoder z = .ok (body, none))
    (hlt : ceiling z.length < body.length) :
    inflate zstd z = .error (.decode (s!"decompression ratio over {maxInflateRatio}:1 — " ++
      s!"{z.length} compressed bytes expanded past {ceiling z.length}")) := by
  have hlength : (body.take (ceiling z.length + 1)).length = ceiling z.length + 1 := by
    rw [List.length_take]
    omega
  have hnot : ¬ ceiling z.length + 1 ≤ ceiling z.length := by omega
  have hpast : ceiling z.length + 1 > ceiling z.length := by omega
  simp only [inflate, hz, hlength, if_neg hnot, if_pos hpast]

/-- A body that expands past the ceiling is worth compressing, if the compressed form fits. -/
theorem compressed_of_ceiling_lt {body z : Bytes} {direction : Direction}
    (hz : zstd.compress body zstdLevel = some z) (hfits : 2 + z.length ≤ direction.maxFrame)
    (hlt : ceiling z.length < body.length) : compressed zstd body = some z := by
  have hmax : z.length ≤ maxFrameS2c := by
    cases direction <;>
      simp only [Direction.maxFrame, maxFrameC2s, maxFrameS2c] at hfits ⊢ <;> omega
  simp only [ceiling, minInflateBudget, maxInflated, maxInflateRatio] at hlt
  refine compressed_eq_some.mpr ⟨?_, hz, ?_⟩
  · simp only [compressMinBytes]
    omega
  · simp only [compressMinGainPct]
    simp only [maxFrameS2c] at hmax
    omega

/-- **Round trip.** A frame the encoder makes of a body is decoded to that body and batch flag, in
the direction it was made for, exactly when the body's compressed form does not fit the frame
or the body is within the ceiling the decoder derives from it. -/
theorem decode_encode_iff (hzstd : zstd.Lossless) (body : Bytes) (batch : Bool)
    (direction : Direction) :
    (∀ frame, encode zstd body batch direction.maxFrame = .ok frame →
      ∃ decoded, decode zstd frame direction = .ok decoded ∧ decoded.body = body ∧
        decoded.batch = batch) ↔
    ∀ z, zstd.compress body zstdLevel = some z → 2 + z.length ≤ direction.maxFrame →
      body.length ≤ ceiling z.length := by
  constructor
  · intro hround z hz hfits
    by_contra hle
    have hlt : ceiling z.length < body.length := not_le.mp hle
    have hworth := compressed_of_ceiling_lt hz hfits hlt
    obtain ⟨decoded, hdecoded, -⟩ :=
      hround _ (encode_eq_ok.mpr (.inl ⟨z, hworth, hfits, rfl⟩))
    rw [decode_flags batch true hfits, if_pos rfl, inflate_of_lt (hzstd _ _ _ hz) hlt] at hdecoded
    cases hdecoded
  · intro hceiling frame hframe
    obtain ⟨z, hworth, hfits, rfl⟩ | ⟨-, hfits, rfl⟩ := encode_eq_ok.mp hframe
    · obtain ⟨-, hz, -⟩ := compressed_eq_some.mp hworth
      have hinflate := inflate_of_le (hzstd _ _ _ hz) (hceiling z hz hfits)
      refine ⟨⟨batch, true, body⟩, ?_, rfl, rfl⟩
      rw [decode_flags batch true hfits, if_pos rfl, hinflate]
      rfl
    · exact ⟨⟨batch, false, body⟩, decode_flags batch false hfits, rfl, rfl⟩

/-- Two mebibytes of zeroes. -/
private def zeroes : Bytes := List.replicate (2 * 1024 * 1024) 0

/-- A compressor that gets the zeroes down to two bytes and leaves everything else as it is. -/
private def runs : Zstd where
  compress body _ := if body = zeroes then some [1, 1] else some (0 :: body)
  decoder
    | 0 :: body => .ok (body, none)
    | 1 :: _ => .ok (zeroes, none)
    | _ => .error "unknown frame descriptor"

private theorem runs_lossless : runs.Lossless := by
  intro body level z hz
  simp only [runs] at hz ⊢
  by_cases hbody : body = zeroes
  · rw [if_pos hbody] at hz
    rw [← Option.some.inj hz, hbody]
    rfl
  · rw [if_neg hbody] at hz
    rw [← Option.some.inj hz]
    rfl

/-- A short message. -/
theorem decode_encode_iff_short :
    ∃ decoded, decode runs [1, 2, 7, 8, 9] .clientToServer = .ok decoded ∧
      decoded.body = [7, 8, 9] ∧ decoded.batch = true := by
  have hne : ([7, 8, 9] : Bytes) ≠ zeroes := fun h => by
    have hlength := congrArg List.length h
    rw [zeroes, List.length_replicate] at hlength
    simp at hlength
  refine (decode_encode_iff runs_lossless [7, 8, 9] true .clientToServer).mpr ?_
    [1, 2, 7, 8, 9] rfl
  intro z hz _
  simp only [runs, if_neg hne, Option.some.injEq] at hz
  rw [← hz]
  decide

/-- The zeroes are sent compressed, and refused as a decompression bomb. -/
theorem not_decode_encode_zeroes :
    runs.Lossless ∧
      encode runs zeroes false Direction.serverToClient.maxFrame = .ok [1, 1, 1, 1] ∧
      decode runs [1, 1, 1, 1] .serverToClient = .error (.decode
        "decompression ratio over 64:1 — 2 compressed bytes expanded past 1048576") := by
  have hlength : zeroes.length = 2 * 1024 * 1024 := by rw [zeroes, List.length_replicate]
  have hz : runs.compress zeroes zstdLevel = some [1, 1] := by simp only [runs, if_true]
  have hfits : 2 + ([1, 1] : Bytes).length ≤ Direction.serverToClient.maxFrame := by decide
  have hlt : ceiling ([1, 1] : Bytes).length < zeroes.length := by
    rw [hlength]
    decide
  refine ⟨runs_lossless, encode_eq_ok.mpr (.inl ⟨[1, 1], ?_, hfits, rfl⟩), ?_⟩
  · exact compressed_of_ceiling_lt hz hfits hlt
  · refine (decode_flags false true hfits).trans ?_
    rw [if_pos rfl, inflate_of_lt (runs_lossless _ _ _ hz) hlt]
    rfl

end Frame

end MoonCore
