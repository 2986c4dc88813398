import Mathlib.Data.List.Perm.Basic
import MoonCore.ForMathlib.MsgPack
import MoonCore.Machine.Run
import MoonCore.Wire.Envelope
import MoonCore.Wire.Frame

/-!
# Merging many small messages into one frame

`wire::batch`. Messages of the urgent channels go out alone; everything else accumulates until
one of three bounds is reached. How an envelope is written as MessagePack, and read back, is a
parameter (`EnvelopeCodec`); an array of them is put together here. Instants are nanoseconds.

`Batcher.Carries` is the invariant: what was accepted is what the emitted batches and the held
parts decode to. `Batcher.delivers` reads it off a run.
-/

namespace MoonCore

/-- Upper bound on the latency batching may add, in milliseconds. -/
def batchFlushMs : ℕ := 5

/-- Size worth waiting for. -/
def batchFlushBytes : ℕ := 64 * 1024

/-- So that one frame does not turn into a miniature snapshot. -/
def batchMaxItems : ℕ := 256

/-- Priority classes at or below this are never batched. -/
def neverBatchAboveClass : ℕ := 1

/-- Why a batch was closed. -/
inductive FlushReason where
  /-- A latency-sensitive message arrived and went out on its own. -/
  | urgent
  | deadline
  | bytes
  | items
  /-- The caller asked. -/
  | requested
  deriving DecidableEq

/-- A frame's worth of messages, already encoded. -/
structure Batch where
  /-- One envelope, or an array of them. -/
  body : Bytes
  isArray : Bool
  count : ℕ
  reason : FlushReason
  deriving DecidableEq

/-- How envelopes are written and read. -/
structure EnvelopeCodec (D : Type*) where
  /-- `rmp_serde::to_vec_named` -/
  encode : ServerEnvelope D → Except String Bytes
  /-- `rmp_serde::from_slice`, up to the end of the envelope. -/
  read : Reader (ServerEnvelope D)

/-- What is written reads back, whatever follows it. -/
def EnvelopeCodec.Lawful {D : Type*} (codec : EnvelopeCodec D) : Prop :=
  ∀ env part, codec.encode env = .ok part → codec.read.Reads part env

/-- Accumulates outbound messages until one of the bounds is reached. -/
structure Batcher where
  /-- Encodings in arrival order. -/
  parts : List Bytes
  bytes : ℕ
  openedAt : Option ℕ
  deriving DecidableEq

/-- What can be asked of a batcher. -/
inductive BatcherCall (D : Type*) where
  | push (env : ServerEnvelope D) (now : ℕ)
  | flushDue (now : ℕ)
  | flush

/-- Concatenate pre-encoded values under a MessagePack array header. -/
def msgpackArray (parts : List Bytes) : Bytes :=
  let n := parts.length
  let header : Bytes :=
    if n ≤ 15 then [0x90 ||| UInt8.ofNat n]
    else if n ≤ 0xffff then 0xdc :: beBytes 2 n
    else 0xdd :: beBytes 4 n
  header ++ parts.flatten

namespace Batcher

/-- A batcher with nothing in it. -/
def new : Batcher := ⟨[], 0, none⟩

/-- When the accumulated batch must go out. -/
def deadline (batcher : Batcher) : Option ℕ :=
  batcher.openedAt.map fun t => t + batchFlushMs * 1000000

/-- Whether it must go out now. -/
def isDue (batcher : Batcher) (now : ℕ) : Bool := batcher.deadline.any fun d => d ≤ now

/-- Close the batch. A single message is sent as itself. -/
def take (batcher : Batcher) (reason : FlushReason) : Batcher × Batch :=
  (new,
    match batcher.parts with
    | [body] => ⟨body, false, 1, reason⟩
    | parts => ⟨msgpackArray parts, true, parts.length, reason⟩)

/-- The bound that a message just added has reached, if it has. -/
def closes (batcher : Batcher) (now : ℕ) : Option FlushReason :=
  if batchMaxItems ≤ batcher.parts.length then some .items
  else if batchFlushBytes ≤ batcher.bytes then some .bytes
  else if batcher.isDue now then some .deadline
  else none

/-- The accumulator with one more message. -/
def hold (batcher : Batcher) (encoded : Bytes) (now : ℕ) : Batcher where
  openedAt := if batcher.parts = [] then some now else batcher.openedAt
  bytes := batcher.bytes + encoded.length
  parts := batcher.parts ++ [encoded]

variable {D : Type*}

/-- Offer a message. -/
def push (codec : EnvelopeCodec D) (batcher : Batcher) (env : ServerEnvelope D) (now : ℕ) :
    Batcher × Except CodecError (Option Batch) :=
  match codec.encode env with
  | .error e => (batcher, .error (.encode e))
  | .ok encoded =>
    if env.channel.class_ ≤ neverBatchAboveClass then
      (batcher, .ok (some ⟨encoded, false, 1, .urgent⟩))
    else
      let batcher := batcher.hold encoded now
      match batcher.closes now with
      | none => (batcher, .ok none)
      | some reason =>
        let (batcher, batch) := batcher.take reason
        (batcher, .ok (some batch))

/-- Flush if the time bound has passed. -/
def flushDue (batcher : Batcher) (now : ℕ) : Batcher × Option Batch :=
  if batcher.parts ≠ [] ∧ batcher.isDue now then
    let (batcher, batch) := batcher.take .deadline
    (batcher, some batch)
  else (batcher, none)

/-- Flush whatever is held. -/
def flush (batcher : Batcher) : Batcher × Option Batch :=
  if batcher.parts ≠ [] then
    let (batcher, batch) := batcher.take .requested
    (batcher, some batch)
  else (batcher, none)

/-- One call on the batcher. -/
def step (codec : EnvelopeCodec D) (batcher : Batcher) :
    BatcherCall D → Batcher × Except CodecError (Option Batch)
  | .push env now => batcher.push codec env now
  | .flushDue now =>
    let (batcher, batch) := batcher.flushDue now
    (batcher, .ok batch)
  | .flush =>
    let (batcher, batch) := batcher.flush
    (batcher, .ok batch)

/-- A batcher, stepping on the calls made to it. -/
def machine (codec : EnvelopeCodec D) :
    Machine Batcher (BatcherCall D) (Except CodecError (Option Batch)) :=
  ⟨step codec⟩

end Batcher

/-! ### What goes in and what comes out -/

variable {D : Type*}

/-- The batch an answer carries, if it carries one. -/
def emittedBy : Except CodecError (Option Batch) → List Batch
  | .ok (some batch) => [batch]
  | _ => []

/-- The message a call and its answer got accepted, if they did. -/
def acceptedBy : BatcherCall D → Except CodecError (Option Batch) → List (ServerEnvelope D)
  | .push env _, .ok _ => [env]
  | _, _ => []

/-- What was emitted, in order. -/
def emitted (trace : List (BatcherCall D × Except CodecError (Option Batch))) : List Batch :=
  trace.flatMap fun call => emittedBy call.2

/-- What was accepted, in order. -/
def accepted (trace : List (BatcherCall D × Except CodecError (Option Batch))) :
    List (ServerEnvelope D) :=
  trace.flatMap fun call => acceptedBy call.1 call.2

theorem emitted_concat (trace : List (BatcherCall D × Except CodecError (Option Batch)))
    (call : BatcherCall D) (answer : Except CodecError (Option Batch)) :
    emitted (trace ++ [(call, answer)]) = emitted trace ++ emittedBy answer := by
  rw [emitted, List.flatMap_append, List.flatMap_singleton]
  rfl

theorem accepted_concat (trace : List (BatcherCall D × Except CodecError (Option Batch)))
    (call : BatcherCall D) (answer : Except CodecError (Option Batch)) :
    accepted (trace ++ [(call, answer)]) = accepted trace ++ acceptedBy call answer := by
  rw [accepted, List.flatMap_append, List.flatMap_singleton]
  rfl

/-- What the body of a batch decodes to: an array of envelopes, or one of them. -/
def EnvelopeCodec.decodeBatch (codec : EnvelopeCodec D) (batch : Batch) :
    Option (List (ServerEnvelope D)) :=
  if batch.isArray then Reader.exactly (MsgPack.readArray codec.read) batch.body
  else (Reader.exactly codec.read batch.body).map fun env => [env]

/-- A batch decodes to these messages, and says how many they are and whether they are an
array. -/
structure Batch.Holds (codec : EnvelopeCodec D) (batch : Batch) (envs : List (ServerEnvelope D)) :
    Prop where
  decoded : codec.decodeBatch batch = some envs
  count : batch.count = envs.length
  isArray : batch.isArray = true ↔ envs.length ≠ 1

namespace Batcher

variable {codec : EnvelopeCodec D} {batcher : Batcher}

theorem msgpackArray_eq (parts : List Bytes) :
    msgpackArray parts = MsgPack.arrayHeader parts.length ++ parts.flatten := rfl

/-- A batch decodes to the messages it was closed over. -/
theorem holds_take (hcodec : codec.Lawful) {held : List (ServerEnvelope D)}
    (hheld : List.Forall₂ (fun part env => codec.encode env = .ok part) batcher.parts held)
    (hne : batcher.parts ≠ []) (hlength : batcher.parts.length < 256 ^ 4) (reason : FlushReason) :
    (batcher.take reason).2.Holds codec held := by
  have hreads : List.Forall₂ codec.read.Reads batcher.parts held :=
    hheld.imp fun part env h => hcodec env part h
  obtain ⟨parts, bytes, openedAt⟩ := batcher
  dsimp only at hheld hne hlength hreads
  cases hreads with
  | nil => exact absurd rfl hne
  | @cons part env parts envs hpart hparts =>
    cases hparts with
    | nil =>
      refine ⟨?_, rfl, by simp [take]⟩
      rw [EnvelopeCodec.decodeBatch, take, if_neg (by simp)]
      dsimp only
      rw [hpart.exactly]
      rfl
    | @cons part' env' parts envs hpart' hparts =>
      refine ⟨?_, ?_, by simp [take]⟩
      · have harray := MsgPack.reads_array (.cons hpart (.cons hpart' hparts)) hlength
        rw [← msgpackArray_eq] at harray
        rw [EnvelopeCodec.decodeBatch, take, if_pos rfl]
        exact harray.exactly
      · exact congrArg (· + 2) hparts.length_eq

/-- The emitted batches decode to `msgs` and the held parts encode `held`; together these are the
messages taken in, each channel's in order. -/
structure Carries (codec : EnvelopeCodec D) (batcher : Batcher) (batches : List Batch)
    (took : List (ServerEnvelope D)) (msgs : List (List (ServerEnvelope D)))
    (held : List (ServerEnvelope D)) : Prop where
  emitted : List.Forall₂ (Batch.Holds codec) batches msgs
  encoded : List.Forall₂ (fun part env => codec.encode env = .ok part) batcher.parts held
  quiet : ∀ env ∈ held, neverBatchAboveClass < env.channel.class_
  perm : (msgs.flatten ++ held).Perm took
  order : ∀ channel, (msgs.flatten ++ held).filter (fun env => env.channel = channel) =
    took.filter fun env => env.channel = channel

namespace Carries

variable {batches : List Batch} {took held : List (ServerEnvelope D)}
  {msgs : List (List (ServerEnvelope D))}

theorem new (codec : EnvelopeCodec D) : Carries codec .new [] [] [] [] where
  emitted := .nil
  encoded := .nil
  quiet := by simp
  perm := .nil
  order := fun _ => rfl

/-- One more message is held. -/
theorem hold (h : Carries codec batcher batches took msgs held) {env : ServerEnvelope D}
    {part : Bytes} (hpart : codec.encode env = .ok part)
    (hclass : neverBatchAboveClass < env.channel.class_) (now : ℕ) :
    Carries codec (batcher.hold part now) batches (took ++ [env]) msgs (held ++ [env]) where
  emitted := h.emitted
  encoded := List.rel_append h.encoded (.cons hpart .nil)
  quiet := List.forall_mem_append.mpr ⟨h.quiet, List.forall_mem_singleton.mpr hclass⟩
  perm := by
    rw [← List.append_assoc]
    exact h.perm.append_right [env]
  order := by
    intro channel
    rw [← List.append_assoc, List.filter_append, h.order, List.filter_append]

/-- What is held goes out. -/
theorem take (h : Carries codec batcher batches took msgs held) (hcodec : codec.Lawful)
    (hne : batcher.parts ≠ []) (hlength : batcher.parts.length ≤ batchMaxItems)
    (reason : FlushReason) :
    Carries codec .new (batches ++ [(batcher.take reason).2]) took (msgs ++ [held]) [] where
  emitted := by
    have hfits : batcher.parts.length < 256 ^ 4 := hlength.trans_lt (by decide)
    exact List.rel_append h.emitted (.cons (holds_take hcodec h.encoded hne hfits reason) .nil)
  encoded := .nil
  quiet := by simp
  perm := by
    rw [List.flatten_append, List.flatten_singleton, List.append_nil]
    exact h.perm
  order := by
    intro channel
    rw [List.flatten_append, List.flatten_singleton, List.append_nil]
    exact h.order channel

/-- An urgent message goes out past what is held, none of which is of its channel. -/
theorem urgent (h : Carries codec batcher batches took msgs held) (hcodec : codec.Lawful)
    {env : ServerEnvelope D} {part : Bytes} (hpart : codec.encode env = .ok part)
    (hclass : env.channel.class_ ≤ neverBatchAboveClass) :
    Carries codec batcher (batches ++ [⟨part, false, 1, .urgent⟩]) (took ++ [env])
      (msgs ++ [[env]]) held where
  emitted := by
    refine List.rel_append h.emitted (.cons ⟨?_, rfl, by simp⟩ .nil)
    rw [EnvelopeCodec.decodeBatch, if_neg (by simp)]
    dsimp only
    rw [(hcodec env part hpart).exactly]
    rfl
  encoded := h.encoded
  quiet := h.quiet
  perm := by
    rw [List.flatten_append, List.flatten_singleton, List.append_assoc]
    calc (msgs.flatten ++ ([env] ++ held)).Perm (msgs.flatten ++ (held ++ [env])) :=
          List.perm_append_comm.append_left _
      _ = (msgs.flatten ++ held) ++ [env] := (List.append_assoc _ _ _).symm
      (msgs.flatten ++ held ++ [env]).Perm (took ++ [env]) := h.perm.append_right [env]
  order := by
    intro channel
    have horder := h.order channel
    rw [List.filter_append] at horder
    rw [List.flatten_append, List.flatten_singleton, List.filter_append, List.filter_append,
      List.filter_append]
    by_cases hchannel : env.channel = channel
    · have hnone : held.filter (fun other => other.channel = channel) = [] := by
        rw [List.filter_eq_nil_iff]
        intro other hother hsame
        have hquiet := h.quiet other hother
        rw [of_decide_eq_true hsame, ← hchannel] at hquiet
        omega
      rw [hnone, List.append_nil] at horder
      rw [hnone, List.append_nil, horder]
    · have hnot : [env].filter (fun other => other.channel = channel) = [] :=
        List.filter_cons_of_neg (by simpa using hchannel)
      rw [hnot, List.append_nil, List.append_nil, horder]

end Carries

/-! ### Every step -/

/-- What `push` does: refuse a message that cannot be encoded, send an urgent one at once, hold
another one, or hold it and close the batch. -/
theorem push_cases (codec : EnvelopeCodec D) (batcher : Batcher) (env : ServerEnvelope D)
    (now : ℕ) :
    (∃ e, codec.encode env = .error e ∧
      batcher.push codec env now = (batcher, .error (.encode e))) ∨
    ∃ part, codec.encode env = .ok part ∧
      ((env.channel.class_ ≤ neverBatchAboveClass ∧
          batcher.push codec env now = (batcher, .ok (some ⟨part, false, 1, .urgent⟩))) ∨
        neverBatchAboveClass < env.channel.class_ ∧
          ((batcher.hold part now).closes now = none ∧
              batcher.push codec env now = (batcher.hold part now, .ok none) ∨
            ∃ reason, (batcher.hold part now).closes now = some reason ∧
              batcher.push codec env now =
                (.new, .ok (some ((batcher.hold part now).take reason).2)))) := by
  rw [push]
  cases hencode : codec.encode env with
  | error e => exact .inl ⟨e, rfl, rfl⟩
  | ok part =>
    refine .inr ⟨part, rfl, ?_⟩
    dsimp only
    split_ifs with hclass
    · exact .inl ⟨hclass, rfl⟩
    · refine .inr ⟨not_le.mp hclass, ?_⟩
      cases hcloses : (batcher.hold part now).closes now with
      | none => exact .inl ⟨rfl, rfl⟩
      | some reason => exact .inr ⟨reason, rfl, rfl⟩

theorem length_hold (batcher : Batcher) (part : Bytes) (now : ℕ) :
    (batcher.hold part now).parts.length = batcher.parts.length + 1 := List.length_append

theorem parts_hold_ne_nil (batcher : Batcher) (part : Bytes) (now : ℕ) :
    (batcher.hold part now).parts ≠ [] :=
  List.append_ne_nil_of_right_ne_nil _ (List.cons_ne_nil part [])

/-- A batch that is not closed has room for another message. -/
theorem length_lt_of_closes {now : ℕ} (h : batcher.closes now = none) :
    batcher.parts.length < batchMaxItems := by
  rw [closes] at h
  split_ifs at h with hitems
  exact not_le.mp hitems

/-- The invariant of a run. -/
def Sound (codec : EnvelopeCodec D) (batcher : Batcher)
    (trace : List (BatcherCall D × Except CodecError (Option Batch))) : Prop :=
  batcher.parts.length < batchMaxItems ∧
    ∃ msgs held, Carries codec batcher (emitted trace) (accepted trace) msgs held

variable {trace : List (BatcherCall D × Except CodecError (Option Batch))}

theorem length_new_lt : new.parts.length < batchMaxItems := by decide

theorem sound_new (codec : EnvelopeCodec D) : Sound codec .new [] :=
  ⟨length_new_lt, [], [], .new codec⟩

/-- A call that takes nothing in and sends nothing out. -/
theorem Sound.idle (h : Sound codec batcher trace) {call : BatcherCall D}
    {answer : Except CodecError (Option Batch)} (hsent : emittedBy answer = [])
    (htook : acceptedBy call answer = []) : Sound codec batcher (trace ++ [(call, answer)]) := by
  rw [Sound, emitted_concat, accepted_concat, hsent, htook, List.append_nil, List.append_nil]
  exact h

/-- A call that sends out what is held. -/
theorem Sound.take (h : Sound codec batcher trace) (hcodec : codec.Lawful)
    (hne : batcher.parts ≠ []) {call : BatcherCall D} (reason : FlushReason)
    (htook : acceptedBy call (.ok (some (batcher.take reason).2)) = []) :
    Sound codec .new (trace ++ [(call, .ok (some (batcher.take reason).2))]) := by
  obtain ⟨hlength, msgs, held, hcarries⟩ := h
  rw [Sound, emitted_concat, accepted_concat, htook, List.append_nil]
  exact ⟨length_new_lt, msgs ++ [held], [], hcarries.take hcodec hne hlength.le reason⟩

theorem Sound.push (h : Sound codec batcher trace) (hcodec : codec.Lawful)
    (env : ServerEnvelope D) (now : ℕ) :
    Sound codec (batcher.push codec env now).1
      (trace ++ [(.push env now, (batcher.push codec env now).2)]) := by
  rcases push_cases codec batcher env now with
    ⟨e, -, hpush⟩ | ⟨part, hpart, ⟨hclass, hpush⟩ | ⟨hclass, ⟨hopen, hpush⟩ | ⟨reason, -, hpush⟩⟩⟩
  · rw [hpush]
    exact h.idle rfl rfl
  · obtain ⟨hlength, msgs, held, hcarries⟩ := h
    rw [hpush, Sound, emitted_concat, accepted_concat]
    exact ⟨hlength, _, _, hcarries.urgent hcodec hpart hclass⟩
  · obtain ⟨-, msgs, held, hcarries⟩ := h
    have hnothing : emittedBy (.ok none) = [] := rfl
    rw [hpush, Sound, emitted_concat, accepted_concat, hnothing, List.append_nil]
    exact ⟨length_lt_of_closes hopen, _, _, hcarries.hold hpart hclass now⟩
  · obtain ⟨hlength, msgs, held, hcarries⟩ := h
    have hmore := hcarries.hold hpart hclass now
    have hne := parts_hold_ne_nil batcher part now
    have hfits : (batcher.hold part now).parts.length ≤ batchMaxItems := by
      rw [length_hold]
      exact hlength
    rw [hpush, Sound, emitted_concat, accepted_concat]
    exact ⟨length_new_lt, _, _, hmore.take hcodec hne hfits reason⟩

theorem Sound.next (h : Sound codec batcher trace) (hcodec : codec.Lawful)
    (call : BatcherCall D) :
    Sound codec ((machine codec).next batcher call)
      (trace ++ [(call, (machine codec).out batcher call)]) := by
  cases call with
  | push env now => exact h.push hcodec env now
  | flushDue now =>
    change Sound codec (batcher.flushDue now).1
      (trace ++ [(.flushDue now, .ok (batcher.flushDue now).2)])
    rw [flushDue]
    split_ifs with hdue
    · exact h.take hcodec hdue.1 .deadline rfl
    · exact h.idle rfl rfl
  | flush =>
    change Sound codec batcher.flush.1 (trace ++ [(.flush, .ok batcher.flush.2)])
    rw [flush]
    split_ifs with hne
    · exact h.take hcodec hne .requested rfl
    · exact h.idle rfl rfl

/-! ### The result -/

/-- After any run, the emitted batches decode to lists of messages, each batch says how many its
body holds and whether it is an array, and the held parts decode to messages. Together these are
the accepted messages, each exactly once, and those of any one channel are in the order in which
they were pushed. An urgent message is answered with itself, alone, and changes nothing. -/
theorem delivers (codec : EnvelopeCodec D) (hcodec : codec.Lawful)
    (calls : List (BatcherCall D)) :
    let batcher := (machine codec).run .new calls
    let trace := (machine codec).trace .new calls
    (∃ msgs held, List.Forall₂ (Batch.Holds codec) (emitted trace) msgs ∧
      List.Forall₂ (fun part env => codec.read.exactly part = some env) batcher.parts held ∧
      (msgs.flatten ++ held).Perm (accepted trace) ∧
      ∀ channel, (msgs.flatten ++ held).filter (fun env => env.channel = channel) =
        (accepted trace).filter fun env => env.channel = channel) ∧
      ∀ env now part, env.channel.class_ ≤ neverBatchAboveClass → codec.encode env = .ok part →
        let batch : Batch := ⟨part, false, 1, .urgent⟩
        (machine codec).next batcher (.push env now) = batcher ∧
          (machine codec).out batcher (.push env now) = .ok (some batch) ∧
          batch.Holds codec [env] := by
  have hsound := Machine.run_invariant_trace (M := machine codec) (J := Sound codec)
    (fun batcher trace call h => h.next hcodec call) (sound_new codec) calls
  rw [List.nil_append] at hsound
  obtain ⟨-, msgs, held, hcarries⟩ := hsound
  refine ⟨⟨msgs, held, hcarries.emitted, ?_, hcarries.perm, hcarries.order⟩, ?_⟩
  · exact hcarries.encoded.imp fun part env hpart => (hcodec env part hpart).exactly
  · intro env now part hclass hpart
    have hpush : ((machine codec).run .new calls).push codec env now =
        ((machine codec).run .new calls, .ok (some ⟨part, false, 1, .urgent⟩)) := by
      rw [push, hpart]
      dsimp only
      rw [if_pos hclass]
    refine ⟨congrArg Prod.fst hpush, congrArg Prod.snd hpush, ?_, rfl, by simp⟩
    rw [EnvelopeCodec.decodeBatch, if_neg (by simp)]
    dsimp only
    rw [(hcodec env part hpart).exactly]
    rfl

/-- `{"c": c, "s": s, "v": v, "m": {"t": "pong", "d": n}}` in MessagePack, for small numbers. -/
def pongBytes (c s v n : UInt8) : Bytes :=
  [0x84, 0xa1, 0x63, c, 0xa1, 0x73, s, 0xa1, 0x76, v, 0xa1, 0x6d, 0x82, 0xa1, 0x74, 0xa4, 0x70,
    0x6f, 0x6e, 0x67, 0xa1, 0x64, n]

/-- The envelopes that are pongs with small numbers, as they are written and read. -/
def pongCodec : EnvelopeCodec ℕ where
  encode env :=
    match env with
    | ⟨channel, seq, ver, .pong nonce⟩ =>
      if channel.number.toNat < 128 ∧ seq.toNat < 128 ∧ ver.toNat < 128 ∧ nonce.toNat < 128 then
        .ok (pongBytes channel.number seq.toUInt8 ver.toUInt8 nonce.toUInt8)
      else .error "a number above 127"
    | _ => .error "not a pong"
  read bytes :=
    match bytes with
    | _ :: _ :: _ :: c :: _ :: _ :: s :: _ :: _ :: v :: _ :: _ :: _ :: _ :: _ :: _ :: _ :: _ :: _ ::
        _ :: _ :: _ :: n :: rest =>
      if bytes.take 23 = pongBytes c s v n then
        some (⟨⟨c⟩, s.toUInt64, v.toUInt16, .pong n.toUInt64⟩, rest)
      else none
    | _ => none

theorem read_pongBytes (c s v n : UInt8) (rest : Bytes) :
    pongCodec.read (pongBytes c s v n ++ rest) =
      some (⟨⟨c⟩, s.toUInt64, v.toUInt16, .pong n.toUInt64⟩, rest) :=
  if_pos rfl

theorem lawful_pongCodec : pongCodec.Lawful := by
  rintro ⟨channel, seq, ver, msg⟩ part hencode rest
  cases msg with
  | pong nonce =>
    simp only [pongCodec] at hencode
    split_ifs at hencode with hsmall
    obtain rfl := Except.ok.inj hencode
    obtain ⟨-, hseq, hver, hnonce⟩ := hsmall
    have h64 : ∀ n : UInt64, n.toNat < 128 → n.toUInt8.toUInt64 = n := by
      intro n hn
      refine UInt64.toNat_inj.mp ?_
      rw [UInt8.toNat_toUInt64, UInt64.toNat_toUInt8]
      omega
    have h16 : ver.toUInt8.toUInt16 = ver := by
      refine UInt16.toNat_inj.mp ?_
      rw [UInt8.toNat_toUInt16, UInt16.toNat_toUInt8]
      omega
    rw [read_pongBytes, h64 seq hseq, h64 nonce hnonce, h16]
  | welcome => cases hencode
  | event => cases hencode
  | failed => cases hencode

/-- A quote, an acknowledgement that overtakes it, and another quote. -/
theorem delivers_overtaken :
    let trace := (machine pongCodec).trace .new
      [.push ⟨.tape, 1, 0, .pong 1⟩ 0, .push ⟨.command, 1, 0, .pong 2⟩ 1,
        .push ⟨.tape, 2, 0, .pong 3⟩ 2, .flush]
    ∃ msgs held, List.Forall₂ (Batch.Holds pongCodec) (emitted trace) msgs ∧
      (msgs.flatten ++ held).Perm (accepted trace) := by
  obtain ⟨⟨msgs, held, hemitted, -, hperm, -⟩, -⟩ := delivers pongCodec lawful_pongCodec
    [.push ⟨.tape, 1, 0, .pong 1⟩ 0, .push ⟨.command, 1, 0, .pong 2⟩ 1,
      .push ⟨.tape, 2, 0, .pong 3⟩ 2, .flush]
  exact ⟨msgs, held, hemitted, hperm⟩

end Batcher

end MoonCore
