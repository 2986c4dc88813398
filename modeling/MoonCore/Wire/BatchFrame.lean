import MoonCore.ForMathlib.Bytes
import MoonCore.Wire.Batch

/-!
# A batch and its frame

`wire::batch` closes a batch after the message that completes it, `wire::frame` refuses a frame
above a limit. A message that would be framed by itself can therefore take its neighbours with
it: `Batcher.batches_fit` says exactly which messages may follow what is held.
-/

namespace MoonCore

variable {D : Type*} {zstd : Zstd}

/-- The frame of a body is within the limit for what a core sends. -/
def Frame.Fits (zstd : Zstd) (body : Bytes) (batch : Bool) : Prop :=
  ∃ frame, Frame.encode zstd body batch Frame.maxFrameS2c = .ok frame

/-- A body that fits as it is fits compressed. -/
theorem fits_of_length_le {body : Bytes} (h : 2 + body.length ≤ Frame.maxFrameS2c)
    (batch : Bool) : Frame.Fits zstd body batch := by
  cases hz : Frame.compressed zstd body with
  | none => exact ⟨_, Frame.encode_eq_ok.mpr (.inr ⟨hz, h, rfl⟩)⟩
  | some z =>
    have hgain := (Frame.compressed_eq_some.mp hz).2.2
    have hpct : 100 - Frame.compressMinGainPct = 95 := rfl
    rw [hpct] at hgain
    exact ⟨_, Frame.encode_eq_ok.mpr (.inl ⟨z, hz, by omega, rfl⟩)⟩

/-- Whether a body fits does not depend on the batch flag. -/
theorem Frame.Fits.congr {body : Bytes} {batch : Bool} (h : Frame.Fits zstd body batch)
    (other : Bool) : Frame.Fits zstd body other := by
  obtain ⟨frame, hframe⟩ := h
  rcases Frame.encode_eq_ok.mp hframe with ⟨z, hz, hlength, -⟩ | ⟨hz, hlength, -⟩
  · exact ⟨_, Frame.encode_eq_ok.mpr (.inl ⟨z, hz, hlength, rfl⟩)⟩
  · exact ⟨_, Frame.encode_eq_ok.mpr (.inr ⟨hz, hlength, rfl⟩)⟩

/-- Compression that is never worth it. -/
def Zstd.Useless (zstd : Zstd) : Prop := ∀ body, Frame.compressed zstd body = none

/-- Without compression a body has to fit as it is. -/
theorem Zstd.Useless.length_le (h : zstd.Useless) {body : Bytes} {batch : Bool}
    (hfits : Frame.Fits zstd body batch) : 2 + body.length ≤ Frame.maxFrameS2c := by
  obtain ⟨frame, hframe⟩ := hfits
  rcases Frame.encode_eq_ok.mp hframe with ⟨z, hz, -⟩ | ⟨-, hlength, -⟩
  · rw [h] at hz
    cases hz
  · exact hlength

/-- How long the header of an array of `n` parts is. -/
def headerLength (n : ℕ) : ℕ := if n ≤ 15 then 1 else if n ≤ 0xffff then 3 else 5

theorem length_msgpackArray (parts : List Bytes) :
    (msgpackArray parts).length = headerLength parts.length + parts.flatten.length := by
  rw [msgpackArray, headerLength, List.length_append]
  split_ifs <;> simp [Nat.add_comm]

/-- A message that is framed by itself within the limit. -/
def BatcherCall.FitsAlone (codec : EnvelopeCodec D) (zstd : Zstd) : BatcherCall D → Prop
  | .push env _ => ∀ part, codec.encode env = .ok part → Frame.Fits zstd part false
  | _ => True

namespace Batcher

/-- A call that leaves what is held within a frame: a message that goes out by itself, that
cannot be encoded, or that finds nothing held, or one that fits a plain frame together with the
parts held and the header over all of them. -/
def Room (codec : EnvelopeCodec D) (batcher : Batcher) : BatcherCall D → Prop
  | .push env _ =>
    env.channel.class_ ≤ neverBatchAboveClass ∨ batcher.parts = [] ∨
      ∀ part, codec.encode env = .ok part →
        2 + headerLength (batcher.parts.length + 1) + batcher.parts.flatten.length + part.length ≤
          Frame.maxFrameS2c
  | _ => True

/-- What is held fits a frame, if anything is, and is less than what closes a batch. -/
structure Framed (zstd : Zstd) (batcher : Batcher) : Prop where
  bytes_eq : batcher.bytes = batcher.parts.flatten.length
  fits : batcher.parts ≠ [] → ∀ reason,
    Frame.Fits zstd (batcher.take reason).2.body (batcher.take reason).2.isArray

theorem framed_new (zstd : Zstd) : Framed zstd new := ⟨rfl, fun h => absurd rfl h⟩

variable {codec : EnvelopeCodec D} {batcher : Batcher}

theorem hold_bytes (h : batcher.bytes = batcher.parts.flatten.length) (part : Bytes) (now : ℕ) :
    (batcher.hold part now).bytes = (batcher.hold part now).parts.flatten.length := by
  rw [hold, List.flatten_append, List.flatten_singleton, List.length_append, h]

/-- What has something before it goes out as an array. -/
theorem take_hold (hne : batcher.parts ≠ []) (part : Bytes) (now : ℕ) (reason : FlushReason) :
    ((batcher.hold part now).take reason).2 =
      ⟨msgpackArray (batcher.parts ++ [part]), true, batcher.parts.length + 1, reason⟩ := by
  obtain ⟨parts, bytes, openedAt⟩ := batcher
  obtain ⟨first, rest, rfl⟩ := List.exists_cons_of_ne_nil hne
  cases rest with
  | nil => rfl
  | cons second rest =>
    rw [take, hold]
    simp

theorem length_array_hold (batcher : Batcher) (part : Bytes) :
    (msgpackArray (batcher.parts ++ [part])).length =
      headerLength (batcher.parts.length + 1) + batcher.parts.flatten.length + part.length := by
  rw [length_msgpackArray, List.length_append, List.length_singleton, List.flatten_append,
    List.flatten_singleton, List.length_append, ← Nat.add_assoc]

/-- Where there is room for a message, what is then held fits. -/
theorem Framed.hold (h : Framed zstd batcher) {env : ServerEnvelope D} {part : Bytes} {now : ℕ}
    (hpart : codec.encode env = .ok part) (hclass : neverBatchAboveClass < env.channel.class_)
    (halone : (BatcherCall.push env now).FitsAlone codec zstd)
    (hroom : Room codec batcher (.push env now)) : Framed zstd (batcher.hold part now) where
  bytes_eq := hold_bytes h.bytes_eq part now
  fits := by
    intro _ reason
    rcases hroom with hurgent | hempty | hroom
    · omega
    · obtain ⟨parts, bytes, openedAt⟩ := batcher
      obtain rfl : parts = [] := hempty
      exact halone part hpart
    · by_cases hempty : batcher.parts = []
      · obtain ⟨parts, bytes, openedAt⟩ := batcher
        obtain rfl : parts = [] := hempty
        exact halone part hpart
      · rw [take_hold hempty]
        refine fits_of_length_le ?_ true
        have hlength := hroom part hpart
        rw [length_array_hold]
        omega

/-- The batch an answer carries fits its frame, if it carries one. -/
def Emits (zstd : Zstd) (answer : Except CodecError (Option Batch)) : Prop :=
  ∀ batch ∈ emittedBy answer, Frame.Fits zstd batch.body batch.isArray

theorem emits_some {batch : Batch} (h : Frame.Fits zstd batch.body batch.isArray) :
    Emits zstd (.ok (some batch)) := List.forall_mem_singleton.mpr h

theorem emits_nothing {answer : Except CodecError (Option Batch)} (h : emittedBy answer = []) :
    Emits zstd answer := by
  rw [Emits, h]
  exact List.forall_mem_nil _

/-- A call for which there is room keeps what is held within a frame, and emits what fits. -/
theorem Framed.next (h : Framed zstd batcher) {call : BatcherCall D}
    (halone : call.FitsAlone codec zstd) (hroom : Room codec batcher call) :
    Framed zstd ((machine codec).next batcher call) ∧
      Emits zstd ((machine codec).out batcher call) := by
  cases call with
  | push env now =>
    change Framed zstd (batcher.push codec env now).1 ∧ Emits zstd (batcher.push codec env now).2
    rcases push_cases codec batcher env now with ⟨e, -, hpush⟩ |
      ⟨part, hpart, ⟨hclass, hpush⟩ | ⟨hclass, ⟨-, hpush⟩ | ⟨reason, -, hpush⟩⟩⟩
    · rw [hpush]
      exact ⟨h, emits_nothing rfl⟩
    · rw [hpush]
      exact ⟨h, emits_some (halone part hpart)⟩
    · rw [hpush]
      exact ⟨h.hold hpart hclass halone hroom, emits_nothing rfl⟩
    · have hmore := h.hold hpart hclass halone hroom
      rw [hpush]
      exact ⟨framed_new zstd, emits_some (hmore.fits (parts_hold_ne_nil batcher part now) reason)⟩
  | flushDue now =>
    change Framed zstd (batcher.flushDue now).1 ∧ Emits zstd (.ok (batcher.flushDue now).2)
    rw [flushDue]
    split_ifs with hdue
    · exact ⟨framed_new zstd, emits_some (h.fits hdue.1 .deadline)⟩
    · exact ⟨h, emits_nothing rfl⟩
  | flush =>
    change Framed zstd batcher.flush.1 ∧ Emits zstd (.ok batcher.flush.2)
    rw [flush]
    split_ifs with hne
    · exact ⟨framed_new zstd, emits_some (h.fits hne .requested)⟩
    · exact ⟨h, emits_nothing rfl⟩

/-- **Run lemma.** Where every message fits by itself and finds room, every batch fits. -/
theorem emits_of_along {calls : List (BatcherCall D)}
    (halone : ∀ call ∈ calls, call.FitsAlone codec zstd)
    (hroom : (machine codec).Along (Room codec) new calls) :
    (machine codec).Along (fun batcher call => Emits zstd ((machine codec).out batcher call)) new
      calls := by
  have hboth : (machine codec).Along
      (fun batcher call => call.FitsAlone codec zstd ∧ Room codec batcher call) new calls := by
    rw [Machine.along_iff_forall_split] at hroom ⊢
    rintro pre call post rfl
    exact ⟨halone call (by simp), hroom pre call post rfl⟩
  exact hboth.imp_of_invariant (fun batcher call h hcall => (h.next hcall.1 hcall.2).1)
    (fun batcher call h hcall => (h.next hcall.1 hcall.2).2) (framed_new zstd)

/-! ### Without room -/

/-- The byte counter is what the parts held add up to. -/
theorem bytes_next (h : batcher.bytes = batcher.parts.flatten.length) (call : BatcherCall D) :
    ((machine codec).next batcher call).bytes =
      ((machine codec).next batcher call).parts.flatten.length := by
  cases call with
  | push env now =>
    change (batcher.push codec env now).1.bytes =
      (batcher.push codec env now).1.parts.flatten.length
    rcases push_cases codec batcher env now with ⟨e, -, hpush⟩ |
      ⟨part, -, ⟨-, hpush⟩ | ⟨-, ⟨-, hpush⟩ | ⟨reason, -, hpush⟩⟩⟩
    · rw [hpush]
      exact h
    · rw [hpush]
      exact h
    · rw [hpush]
      exact hold_bytes h part now
    · rw [hpush]
      rfl
  | flushDue now =>
    change (batcher.flushDue now).1.bytes = (batcher.flushDue now).1.parts.flatten.length
    rw [flushDue]
    split_ifs
    · rfl
    · exact h
  | flush =>
    change batcher.flush.1.bytes = batcher.flush.1.parts.flatten.length
    rw [flush]
    split_ifs
    · rfl
    · exact h

/-- More than a frame holds closes the batch. -/
theorem closes_ne_none {now : ℕ}
    (h : Frame.maxFrameS2c < 2 + headerLength batcher.parts.length + batcher.bytes) :
    batcher.closes now ≠ none := by
  have hheader : headerLength batcher.parts.length ≤ 5 := by
    rw [headerLength]
    split_ifs <;> omega
  have hbytes : batchFlushBytes ≤ batcher.bytes := by
    rw [Frame.maxFrameS2c] at h
    rw [batchFlushBytes]
    omega
  rw [closes, if_pos hbytes]
  split_ifs <;> simp

/-- Without compression, a message for which there is no room goes out in a batch that does not
fit. -/
theorem room_of_emits (huseless : zstd.Useless)
    (hbytes : batcher.bytes = batcher.parts.flatten.length) {call : BatcherCall D}
    (hemits : Emits zstd ((machine codec).out batcher call)) : Room codec batcher call := by
  cases call with
  | push env now =>
    change Emits zstd (batcher.push codec env now).2 at hemits
    by_contra hroom
    simp only [Room, not_or, not_forall, not_le] at hroom
    obtain ⟨hclass, hne, part, hpart, hlength⟩ := hroom
    have hover : Frame.maxFrameS2c < 2 + headerLength (batcher.hold part now).parts.length +
        (batcher.hold part now).bytes := by
      rw [length_hold, hold_bytes hbytes, hold, List.flatten_append, List.flatten_singleton,
        List.length_append]
      omega
    rcases push_cases codec batcher env now with ⟨e, he, -⟩ |
      ⟨part', hpart', ⟨hurgent, -⟩ | ⟨-, ⟨hopen, -⟩ | ⟨reason, -, hpush⟩⟩⟩
    · rw [hpart] at he
      cases he
    · omega
    · obtain rfl := Except.ok.inj (hpart'.symm.trans hpart)
      exact closes_ne_none hover hopen
    · obtain rfl := Except.ok.inj (hpart'.symm.trans hpart)
      rw [hpush] at hemits
      have hfits := hemits _ (List.mem_singleton_self _)
      rw [take_hold hne] at hfits
      have hshort := huseless.length_le hfits
      rw [length_array_hold] at hshort
      omega
  | flushDue now => trivial
  | flush => trivial

/-- **Run lemma.** Without compression, where every batch fits every message found room. -/
theorem along_of_emits (huseless : zstd.Useless) {calls : List (BatcherCall D)}
    (hemits : (machine codec).Along
      (fun batcher call => Emits zstd ((machine codec).out batcher call)) new calls) :
    (machine codec).Along (Room codec) new calls :=
  hemits.imp_of_invariant (I := fun batcher => batcher.bytes = batcher.parts.flatten.length)
    (fun _ call h _ => bytes_next h call) (fun _ _ h hcall => room_of_emits huseless h hcall) rfl

/-- The batches of a run fit exactly if each step's answer does. -/
theorem forall_emitted_iff_along (codec : EnvelopeCodec D) (zstd : Zstd)
    (calls : List (BatcherCall D)) :
    (∀ batch ∈ emitted ((machine codec).trace new calls),
        Frame.Fits zstd batch.body batch.isArray) ↔
      (machine codec).Along (fun batcher call => Emits zstd ((machine codec).out batcher call))
        new calls := by
  rw [← Machine.forall_mem_trace_iff_along (M := machine codec)
    (Q := fun _ answer => Emits zstd answer)]
  constructor
  · intro h asked hasked batch hbatch
    exact h batch (List.mem_flatMap.mpr ⟨asked, hasked, hbatch⟩)
  · intro h batch hbatch
    obtain ⟨asked, hasked, hmem⟩ := List.mem_flatMap.mp hbatch
    exact h asked hasked batch hmem

/-- In a run whose messages each fit a frame by themselves, every batch fits its frame if every
message that is held fits a plain frame together with what is held already. Where compression
does not help, it is only then that they all do. -/
theorem batches_fit (codec : EnvelopeCodec D) (zstd : Zstd) (calls : List (BatcherCall D))
    (halone : ∀ call ∈ calls, call.FitsAlone codec zstd) :
    ((machine codec).Along (Room codec) new calls →
      ∀ batch ∈ emitted ((machine codec).trace new calls),
        Frame.Fits zstd batch.body batch.isArray) ∧
      (zstd.Useless →
        ((∀ batch ∈ emitted ((machine codec).trace new calls),
            Frame.Fits zstd batch.body batch.isArray) ↔
          (machine codec).Along (Room codec) new calls)) := by
  have hfit : (machine codec).Along (Room codec) new calls →
      ∀ batch ∈ emitted ((machine codec).trace new calls),
        Frame.Fits zstd batch.body batch.isArray :=
    fun hroom => (forall_emitted_iff_along codec zstd calls).mpr (emits_of_along halone hroom)
  refine ⟨hfit, fun huseless => ⟨fun h => ?_, hfit⟩⟩
  exact along_of_emits huseless ((forall_emitted_iff_along codec zstd calls).mp h)

/-- A compressor that stores what it is given. -/
def storing : Zstd := ⟨fun body _ => some body, fun stored => .ok (stored, none)⟩

theorem useless_storing : storing.Useless := by
  intro body
  rw [Option.eq_none_iff_forall_ne_some]
  intro z hz
  obtain ⟨hmin, hcompress, hgain⟩ := Frame.compressed_eq_some.mp hz
  obtain rfl : body = z := Option.some.inj hcompress
  have hpct : 100 - Frame.compressMinGainPct = 95 := rfl
  have hbytes : Frame.compressMinBytes = 512 := rfl
  rw [hpct] at hgain
  rw [hbytes] at hmin
  omega

theorem fitsAlone_pong {channel : Channel} {seq : UInt64} {ver : UInt16} {nonce : UInt64}
    (now : ℕ) :
    (BatcherCall.push ⟨channel, seq, ver, .pong nonce⟩ now).FitsAlone pongCodec zstd := by
  intro part hpart
  simp only [pongCodec] at hpart
  split_ifs at hpart
  obtain rfl := Except.ok.inj hpart
  have hlength : (pongBytes channel.number seq.toUInt8 ver.toUInt8 nonce.toUInt8).length = 23 := rfl
  refine fits_of_length_le ?_ false
  rw [hlength]
  decide

/-- Two quotes that go out together. -/
theorem batches_fit_quotes :
    (∀ batch ∈ emitted ((machine pongCodec).trace new
        [.push ⟨.tape, 1, 0, .pong 1⟩ 0, .push ⟨.tape, 2, 0, .pong 2⟩ 1, .flush]),
      Frame.Fits storing batch.body batch.isArray) ↔
      (machine pongCodec).Along (Room pongCodec) new
        [.push ⟨.tape, 1, 0, .pong 1⟩ 0, .push ⟨.tape, 2, 0, .pong 2⟩ 1, .flush] :=
  (batches_fit pongCodec storing _ (by
    simp only [List.forall_mem_cons]
    exact ⟨fitsAlone_pong 0, fitsAlone_pong 1, trivial, List.forall_mem_nil _⟩)).2 useless_storing

/-- `{"c": c, "s": s, "v": v, "m": {"t": "failed", "d": {"code": "malformed", "message": …}}}` in
MessagePack, up to the text of the message. -/
def failedBytes (c s v : UInt8) (length : ℕ) : Bytes :=
  [0x84, 0xa1, 0x63, c, 0xa1, 0x73, s, 0xa1, 0x76, v, 0xa1, 0x6d, 0x82, 0xa1, 0x74, 0xa6, 0x66,
    0x61, 0x69, 0x6c, 0x65, 0x64, 0xa1, 0x64, 0x82, 0xa4, 0x63, 0x6f, 0x64, 0x65, 0xa9, 0x6d, 0x61,
    0x6c, 0x66, 0x6f, 0x72, 0x6d, 0x65, 0x64, 0xa7, 0x6d, 0x65, 0x73, 0x73, 0x61, 0x67, 0x65,
    0xdb] ++ beBytes 4 length

/-- The envelopes that are pongs, or failures with a long text, as they are written. -/
def failedCodec : EnvelopeCodec ℕ where
  encode env :=
    match env with
    | ⟨channel, seq, ver, .failed .malformed message⟩ =>
      let text := message.toUTF8.toList
      .ok (failedBytes channel.number seq.toUInt8 ver.toUInt8 text.length ++ text)
    | env => pongCodec.encode env
  read := pongCodec.read

theorem length_toUTF8_replicate (n : ℕ) :
    (String.ofList (List.replicate n 'a')).toUTF8.toList.length = n := by
  rw [length_toUTF8]
  induction n with
  | zero => rfl
  | succ n ih =>
    have hsplit : String.ofList (List.replicate (n + 1) 'a') =
        String.ofList (List.replicate n 'a') ++ String.singleton 'a' := by
      rw [List.replicate_succ', String.ofList_append]
      rfl
    rw [hsplit, String.utf8ByteSize_append, ih]
    rfl

/-- A failure on the report channel, with a text of `n` letters. -/
def longFailure (n : ℕ) : ServerEnvelope ℕ :=
  ⟨.report, 1, 0, .failed .malformed (.ofList (List.replicate n 'a'))⟩

theorem encode_longFailure (n : ℕ) : ∃ part, failedCodec.encode (longFailure n) = .ok part ∧
    part.length = 53 + n := by
  refine ⟨_, rfl, ?_⟩
  rw [List.length_append, failedBytes, List.length_append, length_beBytes, length_toUTF8_replicate]
  rfl

/-- A message that fills a frame by itself, after a quote. -/
theorem not_batches_fit :
    ∃ calls : List (BatcherCall ℕ),
      (∀ call ∈ calls, call.FitsAlone failedCodec storing) ∧
        ¬ ∀ batch ∈ emitted ((machine failedCodec).trace new calls),
            Frame.Fits storing batch.body batch.isArray := by
  obtain ⟨part, hpart, hlength⟩ := encode_longFailure (Frame.maxFrameS2c - 55)
  have hmax : 55 ≤ Frame.maxFrameS2c := by decide
  refine ⟨[.push ⟨.tape, 1, 0, .pong 1⟩ 0, .push (longFailure (Frame.maxFrameS2c - 55)) 1], ?_, ?_⟩
  · simp only [List.forall_mem_cons]
    refine ⟨fun other hother => ?_, fun other hother => ?_, List.forall_mem_nil _⟩
    · have hquote : failedCodec.encode ⟨.tape, 1, 0, .pong 1⟩ =
          pongCodec.encode ⟨.tape, 1, 0, .pong 1⟩ := rfl
      rw [hquote] at hother
      exact fitsAlone_pong 0 other hother
    · obtain rfl := Except.ok.inj (hother.symm.trans hpart)
      exact fits_of_length_le (by omega) false
  · intro hfit
    have hroom := along_of_emits useless_storing ((forall_emitted_iff_along _ _ _).mp hfit)
    obtain ⟨-, hroom, -⟩ := hroom
    rcases hroom with hurgent | hempty | hroom
    · exact absurd hurgent (by decide)
    · exact absurd hempty (List.cons_ne_nil _ _)
    · have hover := hroom part hpart
      have hheld : ((machine failedCodec).next new
          (.push ⟨.tape, 1, 0, .pong 1⟩ 0)).parts.flatten.length = 23 := rfl
      rw [hheld] at hover
      omega

end Batcher

end MoonCore
