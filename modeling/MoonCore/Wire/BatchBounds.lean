import Mathlib.Algebra.Order.BigOperators.Group.List
import Mathlib.Algebra.Order.Ring.Nat
import Mathlib.Data.List.TakeWhile
import MoonCore.Wire.Batch

/-!
# How much a batcher holds, and how long

Every call is made at an instant (`Batcher.clocked`). The messages held are read off the calls and
their answers (`waitingIn`), and `Batcher.Bounded` is the invariant: the accumulator is those
messages, below both bounds on its size, and its deadline is five milliseconds after the oldest of
them was pushed. A caller that flushes at every deadline that stands when its instant comes
(`FlushesDue`) never holds a message for longer: `Batcher.bounds`.
-/

namespace MoonCore

variable {D : Type*}

/-- A call to a batcher, without the instant it is made at. -/
inductive BatcherOp (D : Type*) where
  | push (env : ServerEnvelope D)
  | flushDue
  | flush

/-- The call as it is made at an instant. -/
def BatcherOp.call (op : BatcherOp D) (now : ℕ) : BatcherCall D :=
  match op with
  | .push env => .push env now
  | .flushDue => .flushDue now
  | .flush => .flush

/-- The latency batching may add, in nanoseconds. -/
def batchFlush : ℕ := batchFlushMs * 1000000

/-- The messages held, each with the instant of its push, after one more call and its answer. -/
def waitingAfter (waiting : List (ServerEnvelope D × ℕ)) :
    (ℕ × BatcherOp D) × Except CodecError (Option Batch) → List (ServerEnvelope D × ℕ)
  | ((now, .push env), .ok none) => waiting ++ [(env, now)]
  | ((_, .push _), .ok (some batch)) => if batch.reason = .urgent then waiting else []
  | (_, .ok (some _)) => []
  | _ => waiting

/-- The messages that went out with a call and its answer. -/
def sentBy (waiting : List (ServerEnvelope D × ℕ)) :
    (ℕ × BatcherOp D) × Except CodecError (Option Batch) → List (ServerEnvelope D × ℕ)
  | ((now, .push env), .ok (some batch)) =>
    if batch.reason = .urgent then [(env, now)] else waiting ++ [(env, now)]
  | (_, .ok (some _)) => waiting
  | _ => []

/-- The messages held after a run. -/
def waitingIn (trace : List ((ℕ × BatcherOp D) × Except CodecError (Option Batch))) :
    List (ServerEnvelope D × ℕ) :=
  trace.foldl waitingAfter []

/-- The batch is made of these messages, and none but its last one reaches a bound. -/
def Batch.Bounded (codec : EnvelopeCodec D) (batch : Batch) (msgs : List (ServerEnvelope D × ℕ)) :
    Prop :=
  ∃ parts : List Bytes, List.Forall₂ (fun part m => codec.encode m.1 = .ok part) parts msgs ∧
    batch.body = (if parts.length = 1 then parts.flatten else msgpackArray parts) ∧
    batch.count = parts.length ∧ 0 < parts.length ∧ parts.length ≤ batchMaxItems ∧
    (parts.dropLast.map List.length).sum < batchFlushBytes

namespace Batcher

/-- A batcher stepping on calls made at an instant. -/
def clocked (codec : EnvelopeCodec D) :
    Machine Batcher (ℕ × BatcherOp D) (Except CodecError (Option Batch)) :=
  ⟨fun batcher call => step codec batcher (call.2.call call.1)⟩

/-- The accumulator holds these messages, below its bounds. -/
structure Bounded (codec : EnvelopeCodec D) (batcher : Batcher)
    (waiting : List (ServerEnvelope D × ℕ)) : Prop where
  encoded : List.Forall₂ (fun part m => codec.encode m.1 = .ok part) batcher.parts waiting
  few : batcher.parts.length < batchMaxItems
  bytes_eq : batcher.bytes = (batcher.parts.map List.length).sum
  small : batcher.bytes < batchFlushBytes
  deadline_eq : batcher.deadline = waiting.head?.map fun m => m.2 + batchFlush

/-- The caller flushes at every deadline that still stands when its instant comes, if the run goes
on beyond it. -/
def FlushesDue (codec : EnvelopeCodec D) (calls : List (ℕ × BatcherOp D)) : Prop :=
  ∀ pre post d, calls = pre ++ post → (∀ c ∈ pre, c.1 < d) → (∀ c ∈ post, d ≤ c.1) →
    ((clocked codec).run .new pre).deadline = some d → (∃ c ∈ post, d < c.1) →
      (d, .flushDue) ∈ post

variable {codec : EnvelopeCodec D} {batcher : Batcher} {waiting : List (ServerEnvelope D × ℕ)}

theorem bounded_new (codec : EnvelopeCodec D) : Bounded codec .new [] :=
  ⟨.nil, by decide, rfl, by decide, rfl⟩

/-- Next and answer of each kind of call. -/
theorem next_push (codec : EnvelopeCodec D) (batcher : Batcher) (env : ServerEnvelope D)
    (now : ℕ) : (clocked codec).next batcher (now, .push env) = (batcher.push codec env now).1 :=
  rfl

theorem out_push (codec : EnvelopeCodec D) (batcher : Batcher) (env : ServerEnvelope D)
    (now : ℕ) : (clocked codec).out batcher (now, .push env) = (batcher.push codec env now).2 :=
  rfl

theorem next_flushDue (codec : EnvelopeCodec D) (batcher : Batcher) (now : ℕ) :
    (clocked codec).next batcher (now, .flushDue) = (batcher.flushDue now).1 := rfl

theorem out_flushDue (codec : EnvelopeCodec D) (batcher : Batcher) (now : ℕ) :
    (clocked codec).out batcher (now, .flushDue) = .ok (batcher.flushDue now).2 := rfl

theorem next_flush (codec : EnvelopeCodec D) (batcher : Batcher) (now : ℕ) :
    (clocked codec).next batcher (now, .flush) = batcher.flush.1 := rfl

theorem out_flush (codec : EnvelopeCodec D) (batcher : Batcher) (now : ℕ) :
    (clocked codec).out batcher (now, .flush) = .ok batcher.flush.2 := rfl

theorem deadline_eq_map (batcher : Batcher) :
    batcher.deadline = batcher.openedAt.map fun opened => opened + batchFlush := rfl

/-- A batch that is not closed has room for another message in bytes, too. -/
theorem bytes_lt_of_closes {now : ℕ} (h : batcher.closes now = none) :
    batcher.bytes < batchFlushBytes := by
  rw [closes] at h
  split_ifs at h with hitems hbytes
  exact not_le.mp hbytes

/-- Why a batch is closed is never that a message is urgent. -/
theorem reason_ne_urgent {now : ℕ} {reason : FlushReason}
    (h : batcher.closes now = some reason) : reason ≠ .urgent := by
  rw [closes] at h
  split_ifs at h <;> simp [← Option.some.inj h]

theorem take_reason (batcher : Batcher) (reason : FlushReason) :
    (batcher.take reason).2.reason = reason := by
  rw [take]
  split <;> rfl

/-- What is held goes out, when all but the last message held is below the bounds. -/
theorem bounded_take {msgs : List (ServerEnvelope D × ℕ)}
    (hencoded : List.Forall₂ (fun part m => codec.encode m.1 = .ok part) batcher.parts msgs)
    (hne : batcher.parts ≠ []) (hfew : batcher.parts.length ≤ batchMaxItems)
    (hsmall : (batcher.parts.dropLast.map List.length).sum < batchFlushBytes)
    (reason : FlushReason) : (batcher.take reason).2.Bounded codec msgs := by
  refine ⟨batcher.parts, hencoded, ?_, ?_, List.length_pos_iff.mpr hne, hfew, hsmall⟩
  · rw [take]
    split
    · rename_i body hparts
      rw [hparts]
      simp
    · rename_i hparts
      rw [if_neg]
      intro hone
      obtain ⟨body, hbody⟩ := List.length_eq_one_iff.mp hone
      exact hparts body hbody
  · rw [take]
    split
    · rename_i body hparts
      rw [hparts]
      rfl
    · rfl

/-- What is held without its last message is no larger than what is held. -/
theorem sum_dropLast_le (parts : List Bytes) :
    (parts.dropLast.map List.length).sum ≤ (parts.map List.length).sum :=
  ((List.dropLast_sublist parts).map List.length).sum_le_sum fun _ _ => Nat.zero_le _

theorem Bounded.take (h : Bounded codec batcher waiting) (hne : batcher.parts ≠ [])
    (reason : FlushReason) : (batcher.take reason).2.Bounded codec waiting := by
  refine bounded_take h.encoded hne h.few.le ?_ reason
  have hsmall := h.small
  rw [h.bytes_eq] at hsmall
  exact lt_of_le_of_lt (sum_dropLast_le batcher.parts) hsmall

/-- A message that is not urgent: the bounds hold with it, or it is the last of its batch. -/
theorem Bounded.hold (h : Bounded codec batcher waiting) {env : ServerEnvelope D} {part : Bytes}
    (hpart : codec.encode env = .ok part) (now : ℕ) :
    ((batcher.hold part now).closes now = none →
      Bounded codec (batcher.hold part now) (waiting ++ [(env, now)])) ∧
    ∀ reason, ((batcher.hold part now).take reason).2.Bounded codec (waiting ++ [(env, now)]) := by
  have hencoded : List.Forall₂ (fun part m => codec.encode m.1 = .ok part)
      (batcher.hold part now).parts (waiting ++ [(env, now)]) :=
    List.rel_append h.encoded (.cons hpart .nil)
  constructor
  · intro hcloses
    refine ⟨hencoded, length_lt_of_closes hcloses, ?_, bytes_lt_of_closes hcloses, ?_⟩
    · rw [Batcher.hold, h.bytes_eq, List.map_append, List.sum_append, List.map_singleton,
        List.sum_singleton]
    · have hdeadline := h.deadline_eq
      have hlength := h.encoded.length_eq
      rw [deadline, Batcher.hold]
      dsimp only
      split_ifs with hempty
      · -- the first message opens the batch
        rw [hempty, List.length_nil, eq_comm, List.length_eq_zero_iff] at hlength
        rw [hlength]
        rfl
      · rw [deadline] at hdeadline
        rw [hdeadline, List.head?_append_of_ne_nil]
        rintro rfl
        exact hempty (List.length_eq_zero_iff.mp hlength)
  · intro reason
    refine bounded_take hencoded (parts_hold_ne_nil _ _ _) ?_ ?_ reason
    · rw [length_hold]
      exact h.few
    · have hsmall := h.small
      rw [h.bytes_eq] at hsmall
      rw [Batcher.hold]
      dsimp only
      rwa [List.dropLast_concat]

/-- **Every call** keeps the accumulator in its bounds, and so is what it sends out. -/
theorem Bounded.next (h : Bounded codec batcher waiting) (call : ℕ × BatcherOp D) :
    Bounded codec ((clocked codec).next batcher call)
      (waitingAfter waiting (call, (clocked codec).out batcher call)) ∧
    ∀ batch ∈ emittedBy ((clocked codec).out batcher call),
      batch.Bounded codec (sentBy waiting (call, (clocked codec).out batcher call)) := by
  obtain ⟨now, op⟩ := call
  cases op with
  | push env =>
    rw [next_push, out_push]
    rcases push_cases codec batcher env now with
      ⟨e, -, hpush⟩ |
      ⟨part, hpart, ⟨-, hpush⟩ | ⟨-, ⟨hopen, hpush⟩ | ⟨reason, hcloses, hpush⟩⟩⟩
    · rw [hpush]
      exact ⟨h, by simp [emittedBy]⟩
    · -- an urgent message goes out by itself
      rw [hpush, waitingAfter, sentBy, if_pos rfl, if_pos rfl, emittedBy]
      refine ⟨h, List.forall_mem_singleton.mpr ⟨[part], .cons hpart .nil, ?_⟩⟩
      simp [batchMaxItems, batchFlushBytes]
    · rw [hpush]
      exact ⟨(h.hold hpart now).1 hopen, by simp [emittedBy]⟩
    · -- the message closes the batch it is the last of
      have hreason : ((batcher.hold part now).take reason).2.reason ≠ .urgent := by
        rw [take_reason]
        exact reason_ne_urgent hcloses
      rw [hpush, waitingAfter, sentBy, if_neg hreason, if_neg hreason, emittedBy]
      exact ⟨bounded_new codec, List.forall_mem_singleton.mpr ((h.hold hpart now).2 reason)⟩
  | flushDue =>
    rw [next_flushDue, out_flushDue, flushDue]
    split_ifs with hdue
    · exact ⟨bounded_new codec, List.forall_mem_singleton.mpr (h.take hdue.1 .deadline)⟩
    · exact ⟨h, by simp [emittedBy]⟩
  | flush =>
    rw [next_flush, out_flush, flush]
    split_ifs with hne
    · exact ⟨bounded_new codec, List.forall_mem_singleton.mpr (h.take hne .requested)⟩
    · exact ⟨h, by simp [emittedBy]⟩

/-! ### Along a run -/

/-- The accumulator of a run holds the messages that are waiting, within its bounds. -/
theorem bounded_run (codec : EnvelopeCodec D) (calls : List (ℕ × BatcherOp D)) :
    Bounded codec ((clocked codec).run .new calls)
      (waitingIn ((clocked codec).trace .new calls)) := by
  have hstep : ∀ batcher trace call, Bounded codec batcher (waitingIn trace) →
      Bounded codec ((clocked codec).next batcher call)
        (waitingIn (trace ++ [(call, (clocked codec).out batcher call)])) := by
    intro batcher trace call h
    rw [waitingIn, List.foldl_concat]
    exact (h.next call).1
  have hnew : Bounded codec .new (waitingIn []) := bounded_new codec
  have hrun := Machine.run_invariant_trace (M := clocked codec)
    (J := fun batcher trace => Bounded codec batcher (waitingIn trace)) hstep hnew calls
  rwa [List.nil_append] at hrun

/-- The instants at which the waiting messages were pushed are instants of calls, in order. -/
theorem waiting_sublist (trace : List ((ℕ × BatcherOp D) × Except CodecError (Option Batch))) :
    ((waitingIn trace).map Prod.snd).Sublist (trace.map fun asked => asked.1.1) := by
  induction trace using List.reverseRecOn with
  | nil => exact List.nil_sublist _
  | append_singleton trace asked ih =>
    have hkept := ih.trans (List.sublist_append_left _ [asked.1.1])
    rw [waitingIn, List.foldl_concat, ← waitingIn, List.map_append,
      List.map_singleton]
    rw [waitingAfter.eq_def]
    split
    · rw [List.map_append]
      exact ih.append_right _
    · split_ifs
      · exact hkept
      · exact List.nil_sublist _
    · exact List.nil_sublist _
    · exact hkept

/-- The instant at which the batch was opened: one call clears it, leaves it, or is it. -/
theorem openedAt_next (codec : EnvelopeCodec D) (batcher : Batcher) (call : ℕ × BatcherOp D) :
    ((clocked codec).next batcher call).openedAt = none ∨
      ((clocked codec).next batcher call).openedAt = batcher.openedAt ∨
      ((clocked codec).next batcher call).openedAt = some call.1 := by
  obtain ⟨now, op⟩ := call
  cases op with
  | push env =>
    rw [next_push]
    rcases push_cases codec batcher env now with
      ⟨e, -, hpush⟩ | ⟨part, -, ⟨-, hpush⟩ | ⟨-, ⟨-, hpush⟩ | ⟨reason, -, hpush⟩⟩⟩
    · exact .inr (.inl (by rw [hpush]))
    · exact .inr (.inl (by rw [hpush]))
    · rw [hpush, hold]
      dsimp only
      split_ifs
      · exact .inr (.inr rfl)
      · exact .inr (.inl rfl)
    · exact .inl (by rw [hpush]; rfl)
  | flushDue =>
    rw [next_flushDue, flushDue]
    split_ifs
    · exact .inl rfl
    · exact .inr (.inl rfl)
  | flush =>
    rw [next_flush, flush]
    split_ifs
    · exact .inl rfl
    · exact .inr (.inl rfl)

/-- A deadline that stands is met by a flush at its instant. -/
theorem Bounded.flushDue_next (h : Bounded codec batcher waiting) {d : ℕ}
    (hdeadline : batcher.deadline = some d) :
    ((clocked codec).next batcher (d, .flushDue)).openedAt = none := by
  have hne : batcher.parts ≠ [] := by
    intro hparts
    have hlength := h.encoded.length_eq
    rw [hparts, List.length_nil, eq_comm, List.length_eq_zero_iff] at hlength
    have hnone := h.deadline_eq
    rw [hlength, hdeadline] at hnone
    cases hnone
  have hdue : batcher.isDue d = true := by
    rw [isDue, hdeadline, Option.any_some]
    exact decide_eq_true le_rfl
  rw [next_flushDue, flushDue, if_pos ⟨hne, hdue⟩]
  rfl

/-- A batch that is open all along was not flushed at its deadline. -/
theorem Bounded.standing (h : Bounded codec batcher waiting) {opened : ℕ}
    {calls : List (ℕ × BatcherOp D)} (hlate : ∀ c ∈ calls, opened < c.1)
    (hopen : ((clocked codec).run batcher calls).openedAt = some opened) :
    batcher.openedAt = some opened ∧ (opened + batchFlush, .flushDue) ∉ calls := by
  induction calls generalizing batcher waiting with
  | nil => exact ⟨hopen, List.not_mem_nil⟩
  | cons call calls ih =>
    have hrest := ih (h.next call).1 (fun c hc => hlate c (List.mem_cons_of_mem call hc)) hopen
    have hnow := hlate call List.mem_cons_self
    have hsame : batcher.openedAt = some opened := by
      rcases openedAt_next codec batcher call with hnext | hnext | hnext
      · rw [hnext] at hrest
        cases hrest.1
      · rw [← hnext]
        exact hrest.1
      · rw [hnext] at hrest
        have heq := Option.some.inj hrest.1
        omega
    have hdeadline : batcher.deadline = some (opened + batchFlush) := by
      rw [deadline_eq_map, hsame, Option.map_some]
    refine ⟨hsame, fun hmem => ?_⟩
    rcases List.mem_cons.mp hmem with rfl | hmem
    · rw [h.flushDue_next hdeadline] at hrest
      cases hrest.1
    · exact hrest.2 hmem

/-- Of calls in order, those from an instant on are the ones left by dropping those before it. -/
theorem le_of_mem_dropWhile {calls : List (ℕ × BatcherOp D)}
    (hsorted : (calls.map Prod.fst).Pairwise (· ≤ ·)) {d : ℕ} {c : ℕ × BatcherOp D}
    (hc : c ∈ calls.dropWhile fun c => decide (c.1 < d)) : d ≤ c.1 := by
  induction calls with
  | nil => exact absurd hc List.not_mem_nil
  | cons call calls ih =>
    rw [List.map_cons, List.pairwise_cons] at hsorted
    rw [List.dropWhile_cons] at hc
    split_ifs at hc with hbefore
    · exact ih hsorted.2 hc
    · have hcall : d ≤ call.1 := by simpa using hbefore
      rcases List.mem_cons.mp hc with rfl | hmem
      · exact hcall
      · exact hcall.trans (hsorted.1 c.1 (List.mem_map_of_mem hmem))

/-- Where every standing deadline is flushed at, none is passed. -/
theorem FlushesDue.le_deadline {calls pre post : List (ℕ × BatcherOp D)}
    {call : ℕ × BatcherOp D} (hflush : FlushesDue codec calls)
    (hsorted : (calls.map Prod.fst).Pairwise (· ≤ ·)) (hcalls : calls = pre ++ call :: post)
    {opened : ℕ} (hopen : ((clocked codec).run .new pre).openedAt = some opened) :
    call.1 ≤ opened + batchFlush := by
  by_contra hlate
  have hfrom : ∀ c ∈ call :: post, opened + batchFlush < c.1 := by
    rw [hcalls, List.map_append, List.pairwise_append, List.map_cons, List.pairwise_cons]
      at hsorted
    intro c hc
    rcases List.mem_cons.mp hc with rfl | hc
    · exact not_le.mp hlate
    · exact (not_le.mp hlate).trans_le (hsorted.2.1.1 c.1 (List.mem_map_of_mem hc))
  -- the deadline stands before the first call at its instant or later, and it was not flushed at
  obtain ⟨early, late, rfl, hearly, hle⟩ : ∃ early late, pre = early ++ late ∧
      (∀ c ∈ early, c.1 < opened + batchFlush) ∧ ∀ c ∈ late, opened + batchFlush ≤ c.1 := by
    have hpre : (pre.map Prod.fst).Pairwise (· ≤ ·) := by
      rw [hcalls, List.map_append, List.pairwise_append] at hsorted
      exact hsorted.1
    refine ⟨pre.takeWhile fun c => decide (c.1 < opened + batchFlush),
      pre.dropWhile fun c => decide (c.1 < opened + batchFlush),
      List.takeWhile_append_dropWhile.symm, fun c hc => ?_, fun c => le_of_mem_dropWhile hpre⟩
    have hbefore := List.mem_takeWhile_imp hc
    exact of_decide_eq_true hbefore
  rw [Machine.run_append] at hopen
  have hpos : 0 < batchFlush := by decide
  obtain ⟨hstands, hnot⟩ := (bounded_run codec early).standing
    (fun c hc => (Nat.lt_add_of_pos_right hpos).trans_le (hle c hc)) hopen
  have hdeadline : ((clocked codec).run .new early).deadline = some (opened + batchFlush) := by
    rw [deadline_eq_map, hstands, Option.map_some]
  rw [List.append_assoc] at hcalls
  have hmem := hflush early (late ++ call :: post) _ hcalls hearly
    (List.forall_mem_append.mpr ⟨hle, fun c hc => (hfrom c hc).le⟩) hdeadline
    ⟨call, List.mem_append_right _ List.mem_cons_self, not_le.mp hlate⟩
  rcases List.mem_append.mp hmem with hmem | hmem
  · exact hnot hmem
  · exact absurd (hfrom _ hmem) (lt_irrefl _)

/-- **The bounds of a batcher.** After every call the accumulator holds the messages that are
waiting, fewer than `batchMaxItems` of them and of fewer than `batchFlushBytes` bytes together, and
its deadline is five milliseconds after the oldest was pushed, if there is one. Every batch sent
holds at most `batchMaxItems` messages, which without the last are below `batchFlushBytes`. If the
caller flushes at every deadline, no message waits longer than the five milliseconds. -/
theorem bounds (codec : EnvelopeCodec D) (calls : List (ℕ × BatcherOp D))
    (hsorted : (calls.map Prod.fst).Pairwise (· ≤ ·)) :
    (∀ pre, pre <+: calls →
      Bounded codec ((clocked codec).run .new pre) (waitingIn ((clocked codec).trace .new pre))) ∧
    (∀ pre call post, calls = pre ++ call :: post →
      ∀ batch ∈ emittedBy ((clocked codec).out ((clocked codec).run .new pre) call),
        batch.Bounded codec (sentBy (waitingIn ((clocked codec).trace .new pre))
          (call, (clocked codec).out ((clocked codec).run .new pre) call))) ∧
    (FlushesDue codec calls → ∀ pre call post, calls = pre ++ call :: post →
      ∀ m ∈ waitingIn ((clocked codec).trace .new pre), call.1 ≤ m.2 + batchFlush) := by
  refine ⟨fun pre _ => bounded_run codec pre,
    fun pre call post _ => ((bounded_run codec pre).next call).2, ?_⟩
  intro hflush pre call post hcalls m hm
  have hbounded := bounded_run codec pre
  have horder : ((waitingIn ((clocked codec).trace .new pre)).map Prod.snd).Pairwise (· ≤ ·) := by
    have hsub := waiting_sublist ((clocked codec).trace .new pre)
    have hinputs : ((clocked codec).trace .new pre).map (fun asked => asked.1.1) =
        pre.map Prod.fst := by
      rw [← Machine.map_fst_trace (clocked codec) .new pre, List.map_map,
        Machine.map_fst_trace]
      rfl
    rw [hcalls, List.map_append, List.pairwise_append] at hsorted
    rw [hinputs] at hsub
    exact hsorted.1.sublist hsub
  rcases hwait : waitingIn ((clocked codec).trace .new pre) with _ | ⟨oldest, rest⟩
  · rw [hwait] at hm
    exact absurd hm List.not_mem_nil
  · have hdeadline := hbounded.deadline_eq
    rw [hwait, List.head?_cons, Option.map_some, deadline_eq_map, Option.map_eq_some_iff]
      at hdeadline
    obtain ⟨opened, hopen, heq⟩ := hdeadline
    have hcall := hflush.le_deadline hsorted hcalls hopen
    rw [heq] at hcall
    rw [hwait] at hm horder
    rcases List.mem_cons.mp hm with rfl | hrest
    · exact hcall
    · rw [List.map_cons, List.pairwise_cons] at horder
      have hold := horder.1 m.2 (List.mem_map_of_mem hrest)
      omega

/-- Two quotes three milliseconds apart, and the flush at the deadline of the first. -/
private def twoQuotes : List (ℕ × BatcherOp ℕ) :=
  [(0, .push ⟨.tape, 1, 0, .pong 1⟩), (3000000, .push ⟨.tape, 2, 0, .pong 3⟩),
    (5000000, .flushDue), (9000000, .flush)]

private theorem flushesDue_twoQuotes : FlushesDue pongCodec twoQuotes := by
  have hdeadline : ∀ k < 5, ∀ d ∈ ((clocked pongCodec).run .new (twoQuotes.take k)).deadline,
      k < 3 ∧ d = 5000000 := by
    decide +kernel
  intro pre post d hcalls _ _ hd _
  have hlength : pre.length < 5 := by
    have h4 : twoQuotes.length = 4 := rfl
    rw [hcalls, List.length_append] at h4
    omega
  have htake : twoQuotes.take pre.length = pre := by rw [hcalls, List.take_left]
  have hdrop : twoQuotes.drop pre.length = post := by rw [hcalls, List.drop_left]
  obtain ⟨hk, rfl⟩ := hdeadline pre.length hlength d (by rw [htake]; exact hd)
  rw [← hdrop]
  -- the flush is the third call
  have hflush : (5000000, .flushDue) ∈ twoQuotes.drop 2 := List.mem_cons_self
  exact (List.drop_sublist_drop_left _ (Nat.lt_succ_iff.mp hk)).subset hflush

/-- The first quote waits from its push to the flush at its deadline, the second for less. -/
theorem bounds_twoQuotes :
    (∀ m ∈ waitingIn ((clocked pongCodec).trace .new (twoQuotes.take 2)),
      5000000 ≤ m.2 + batchFlush) ∧
    Bounded pongCodec ((clocked pongCodec).run .new (twoQuotes.take 2))
      (waitingIn ((clocked pongCodec).trace .new (twoQuotes.take 2))) := by
  obtain ⟨hbounded, -, hheld⟩ := bounds pongCodec twoQuotes (by decide)
  exact ⟨hheld flushesDue_twoQuotes (twoQuotes.take 2) (5000000, .flushDue) [(9000000, .flush)] rfl,
    hbounded _ (List.take_prefix _ _)⟩

end Batcher

end MoonCore
