import Mathlib.Data.List.Nodup
import Mathlib.Logic.Function.Basic
import MoonCore.ForMathlib.Bounded
import MoonCore.Wire.Event

/-!
# Picking a session back up after a break

`wire::resume`. A `ResumeLog` numbers the events of each channel from 1 and keeps the last of
them; `resume` answers what a terminal has seen with what it missed, or names the channel as
lost. Sequence numbers are 64-bit and their arithmetic is checked: `Overflow` is the outcome of
an addition that does not fit.

`Ring.Holds` is the invariant of a ring over the events recorded so far, and
`resume_exact_iff` the result: a resume is exact, and no addition overflows, if and only if
every channel's events fit in 64 bits and no terminal acknowledges `u64::MAX` on a resumable
channel that has a ring.
-/

namespace MoonCore

/-- An addition on sequence numbers did not fit in 64 bits. -/
inductive Overflow where
  | overflow
  deriving DecidableEq

/-- The number after a sequence number. -/
def nextSeqAfter (seq : ℕ) : Except Overflow ℕ :=
  if seq + 1 < 2 ^ 64 then .ok (seq + 1) else .error .overflow

/-- How far back a resume can reach, in nanoseconds. -/
def resumeWindow : ℕ := 120 * 10 ^ 9

/-- Events retained per channel. -/
def ringCapacity (channel : Channel) : ℕ :=
  if channel = .account then 8192
  else if channel = .command then 2048
  else if channel = .tape then 16384
  else if channel = .candles then 4096
  else if channel = .alerts then 512
  else if channel = .reference ∨ channel = .settings then 256
  else 0

/-- Why a resume could not happen. -/
inductive Impossible where
  /-- The core restarted. -/
  | epochChanged (theirs ours : UInt64)
  deriving DecidableEq

/-- What the terminal gets back. -/
structure Resumed (β : Type) where
  /-- Per channel, the events it missed, oldest first. -/
  replay : List (Channel × List (ServerEvent β))
  /-- Channels that could not be replayed. -/
  lost : List Channel
  deriving DecidableEq

/-- Put what a channel missed in front of an answer: nothing where it is up to date. -/
def Resumed.add {β : Type} (self : Resumed β) (channel : Channel) :
    Option (List (ServerEvent β)) → Resumed β
  | none => { self with lost := channel :: self.lost }
  | some [] => self
  | some events => { self with replay := (channel, events) :: self.replay }

/-- An event in a ring, with its sequence and when it was published. -/
structure Held (β : Type) where
  seq : ℕ
  at_ : ℕ
  event : ServerEvent β

/-- One channel's history. -/
structure Ring (β : Type) where
  capacity : ℕ
  entries : List (Held β)
  nextSeq : ℕ

/-- The replayable history of one session. -/
structure ResumeLog (β : Type) where
  epoch : UInt64
  rings : Channel → Option (Ring β)

variable {β : Type}

namespace Ring

/-- Nothing published yet. -/
def new (capacity : ℕ) : Ring β := ⟨capacity, [], 1⟩

/-- Number an event and keep it. -/
def push (self : Ring β) (event : ServerEvent β) (now : ℕ) : Except Overflow (Ring β × ℕ) := do
  let seq := self.nextSeq
  let nextSeq ← nextSeqAfter self.nextSeq
  let entries :=
    if self.capacity > 0 then pushBounded self.capacity self.entries ⟨seq, now, event⟩
    else self.entries
  return ({ self with nextSeq := nextSeq, entries := entries }, seq)

/-- What the history still holds after `afterSeq`, whose successor is `following`. -/
def reach (self : Ring β) (afterSeq following now : ℕ) : Option (List (ServerEvent β)) :=
  -- checked first, so that a terminal which missed nothing resumes on an idle channel too
  if following = self.nextSeq then some []
  else if afterSeq ≥ self.nextSeq then none
  else
    match self.entries.head? with
    | none => none
    | some oldest =>
      if oldest.seq > following then none
      else if now - oldest.at_ > resumeWindow then none
      else some ((self.entries.filter fun held => decide (held.seq > afterSeq)).map Held.event)

/-- Everything after `afterSeq`, or `none` if the history no longer reaches that far. -/
def since (self : Ring β) (afterSeq now : ℕ) : Except Overflow (Option (List (ServerEvent β))) := do
  let following ← nextSeqAfter afterSeq
  return self.reach afterSeq following now

end Ring

namespace ResumeLog

/-- A log of this core lifetime. -/
def new (epoch : UInt64) : ResumeLog β := ⟨epoch, fun _ => none⟩

/-- Put a ring in its channel's place. -/
def store (self : ResumeLog β) (channel : Channel) (ring : Ring β) : ResumeLog β :=
  { self with rings := Function.update self.rings channel (some ring) }

/-- Record an outgoing event and return the sequence it was given. -/
def record (self : ResumeLog β) (event : ServerEvent β) (now : ℕ) :
    Except Overflow (ResumeLog β × ℕ) := do
  let channel := event.channel
  let ring := (self.rings channel).getD (Ring.new (ringCapacity channel))
  let (ring, seq) ← ring.push event now
  return (self.store channel ring, seq)

/-- Next sequence a channel will use. -/
def nextSeq (self : ResumeLog β) (channel : Channel) : ℕ :=
  (self.rings channel).elim 1 Ring.nextSeq

/-- What one acknowledgement is answered with: the missed events, or `none` for a channel that
cannot be replayed. -/
def answer (self : ResumeLog β) (now : ℕ) (ack : Channel × UInt64) :
    Except Overflow (Option (List (ServerEvent β))) :=
  if !ack.1.resumable then .ok none
  else
    match self.rings ack.1 with
    | none => .ok none
    | some ring => ring.since ack.2.toNat now

/-- The answers to a list of acknowledgements, in its order. -/
def collect (self : ResumeLog β) (now : ℕ) :
    List (Channel × UInt64) → Except Overflow (Resumed β)
  | [] => .ok ⟨[], []⟩
  | ack :: acks => do
    let missed ← self.answer now ack
    let rest ← self.collect now acks
    return rest.add ack.1 missed

/-- Answer a resume request. -/
def resume (self : ResumeLog β) (theirEpoch : UInt64) (acks : List (Channel × UInt64)) (now : ℕ) :
    Except Overflow (Except Impossible (Resumed β)) := do
  -- before anything else: a mismatch means every sequence the terminal holds is another core's
  if theirEpoch ≠ self.epoch then return .error (.epochChanged theirEpoch self.epoch)
  let found ← self.collect now acks
  return .ok
    { replay := found.replay.mergeSort fun a b => decide (a.1.number ≤ b.1.number)
      lost := found.lost.mergeSort fun a b => decide (a.number ≤ b.number) }

/-- Record a history of stamped events. -/
def recordAll (self : ResumeLog β) : List (ServerEvent β × ℕ) → Except Overflow (ResumeLog β)
  | [] => .ok self
  | (event, now) :: history => do
    let (log, _) ← self.record event now
    log.recordAll history

end ResumeLog

/-! ### Numbered histories -/

/-- Stamped events with consecutive sequence numbers. -/
def numbered (seq : ℕ) : List (ServerEvent β × ℕ) → List (Held β)
  | [] => []
  | (event, now) :: events => ⟨seq, now, event⟩ :: numbered (seq + 1) events

theorem length_numbered (seq : ℕ) (events : List (ServerEvent β × ℕ)) :
    (numbered seq events).length = events.length := by
  induction events generalizing seq with
  | nil => rfl
  | cons e events ih => rw [numbered, List.length_cons, ih, List.length_cons]

theorem map_event_numbered (seq : ℕ) (events : List (ServerEvent β × ℕ)) :
    (numbered seq events).map Held.event = events.map Prod.fst := by
  induction events generalizing seq with
  | nil => rfl
  | cons e events ih => rw [numbered, List.map_cons, ih, List.map_cons]

theorem numbered_concat (seq : ℕ) (events : List (ServerEvent β × ℕ)) (e : ServerEvent β × ℕ) :
    numbered seq (events ++ [e]) = numbered seq events ++ [⟨seq + events.length, e.2, e.1⟩] := by
  induction events generalizing seq with
  | nil => rfl
  | cons e' events ih =>
    rw [List.cons_append, numbered, ih, numbered, List.cons_append, List.length_cons,
      Nat.add_right_comm, Nat.add_assoc]

/-- Dropping from a numbered list advances the numbers. -/
theorem drop_numbered (seq k : ℕ) (events : List (ServerEvent β × ℕ)) :
    (numbered seq events).drop k = numbered (seq + k) (events.drop k) := by
  induction k generalizing seq events with
  | zero => rfl
  | succ k ih =>
    cases events with
    | nil => rfl
    | cons e events =>
      rw [numbered, List.drop_succ_cons, ih, List.drop_succ_cons, Nat.add_right_comm,
        Nat.add_assoc]

theorem le_seq_of_mem_numbered {seq : ℕ} {events : List (ServerEvent β × ℕ)} {held : Held β}
    (h : held ∈ numbered seq events) : seq ≤ held.seq := by
  induction events generalizing seq with
  | nil => exact absurd h List.not_mem_nil
  | cons e events ih =>
    rcases List.mem_cons.mp h with rfl | hrest
    · exact le_rfl
    · exact Nat.le_of_succ_le (ih hrest)

/-- The events after a number, in a list numbered from no later than the next one. -/
theorem filter_numbered {seq after : ℕ} (h : seq ≤ after + 1) (events : List (ServerEvent β × ℕ)) :
    (numbered seq events).filter (fun held => decide (held.seq > after)) =
      numbered (after + 1) (events.drop (after + 1 - seq)) := by
  induction events generalizing seq with
  | nil => rw [numbered, List.drop_nil, List.filter_nil, numbered]
  | cons e events ih =>
    rcases Nat.lt_or_eq_of_le h with hlt | rfl
    · have hskip : ¬ seq > after := by omega
      have hdrop : after + 1 - seq = after + 1 - (seq + 1) + 1 := by omega
      rw [numbered, List.filter_cons_of_neg (by simpa using hskip), ih hlt, hdrop,
        List.drop_succ_cons]
    · rw [Nat.sub_self, List.drop_zero]
      refine List.filter_eq_self.mpr fun held hheld => ?_
      have hle : after + 1 ≤ held.seq := le_seq_of_mem_numbered hheld
      exact decide_eq_true hle

namespace Ring

/-- A ring over the events recorded on its channel: it counts them from 1 and keeps the last. -/
structure Holds (ring : Ring β) (events : List (ServerEvent β × ℕ)) : Prop where
  nextSeq_eq : ring.nextSeq = events.length + 1
  entries_eq : ring.entries = (numbered 1 events).rtake ring.capacity

theorem holds_new (capacity : ℕ) : (new capacity : Ring β).Holds [] :=
  ⟨rfl, (List.rtake_nil capacity).symm⟩

theorem nextSeqAfter_ok {seq : ℕ} (h : seq + 1 < 2 ^ 64) : nextSeqAfter seq = .ok (seq + 1) :=
  if_pos h

theorem nextSeqAfter_overflow {seq : ℕ} (h : ¬ seq + 1 < 2 ^ 64) :
    nextSeqAfter seq = .error .overflow :=
  if_neg h

variable {ring : Ring β} {events : List (ServerEvent β × ℕ)}

/-- Recording an event whose number has a successor. -/
theorem Holds.push_ok (h : ring.Holds events) (hfits : events.length + 1 + 1 < 2 ^ 64)
    (event : ServerEvent β) (now : ℕ) :
    ∃ ring', ring.push event now = .ok (ring', events.length + 1) ∧
      ring'.capacity = ring.capacity ∧ ring'.Holds (events ++ [(event, now)]) := by
  obtain ⟨hnext, hentries⟩ := h
  have hnumbered : numbered 1 (events ++ [(event, now)]) =
      numbered 1 events ++ [⟨events.length + 1, now, event⟩] := by
    rw [numbered_concat, Nat.add_comm 1]
  refine ⟨{ ring with
    nextSeq := events.length + 1 + 1
    entries := (numbered 1 (events ++ [(event, now)])).rtake ring.capacity }, ?_, rfl, ?_, rfl⟩
  · have hpushed : (if ring.capacity > 0 then
        pushBounded ring.capacity ring.entries ⟨events.length + 1, now, event⟩ else ring.entries) =
        (numbered 1 (events ++ [(event, now)])).rtake ring.capacity := by
      split_ifs with hcap
      · rw [hnumbered, hentries, ← rtake_pushBounded le_rfl, pushBounded, rtake_rtake le_rfl]
      · rw [hentries, Nat.eq_zero_of_not_pos hcap, List.rtake_zero, List.rtake_zero]
    simp only [push, hnext, nextSeqAfter_ok hfits]
    rw [← hpushed]
    rfl
  · rw [List.length_append, List.length_singleton]

/-- Recording an event whose number has no successor. -/
theorem Holds.push_overflow (h : ring.Holds events) (hfull : ¬ events.length + 1 + 1 < 2 ^ 64)
    (event : ServerEvent β) (now : ℕ) : ring.push event now = .error .overflow := by
  simp only [push, h.nextSeq_eq, nextSeqAfter_overflow hfull]
  rfl

/-- What a ring holds out after a number it is past: the events after it, if the oldest entry is
the next one or earlier and not older than the window. -/
theorem Holds.reach_of_lt (h : ring.Holds events) {after : ℕ} (hlt : after < events.length)
    (now : ℕ) :
    ring.reach after (after + 1) now =
      match (events.rtake ring.capacity).head? with
      | none => none
      | some oldest =>
        if 1 + (events.length - ring.capacity) > after + 1 then none
        else if now - oldest.2 > resumeWindow then none
        else some ((events.drop after).map Prod.fst) := by
  obtain ⟨hnext, hentries⟩ := h
  have hheld : ring.entries = numbered (1 + (events.length - ring.capacity))
      (events.rtake ring.capacity) := by
    rw [hentries, List.rtake, length_numbered, drop_numbered, List.rtake]
  rw [reach, hnext, if_neg (by omega), if_neg (by omega)]
  rcases hlast : events.rtake ring.capacity with _ | ⟨e, rest⟩
  · rw [hheld, hlast, numbered, List.head?_nil, List.head?_nil]
  · have hhead : ring.entries.head? =
        some ⟨1 + (events.length - ring.capacity), e.2, e.1⟩ := by
      rw [hheld, hlast, numbered, List.head?_cons]
    rw [hhead, List.head?_cons]
    dsimp only
    split_ifs with hfirst hold
    · rfl
    · rfl
    · -- the filter leaves exactly the events after the acknowledgement
      have hreach : 1 + (events.length - ring.capacity) ≤ after + 1 := Nat.not_lt.mp hfirst
      rw [hheld, filter_numbered hreach, map_event_numbered, List.rtake, List.drop_drop]
      congr 3
      omega

/-- A ring holds out exactly the events after a number, or nothing at all; never a part of
them. -/
theorem Holds.reach_cases (h : ring.Holds events) (after now : ℕ) :
    ring.reach after (after + 1) now = none ∧ after ≠ events.length ∨
      after ≤ events.length ∧
        ring.reach after (after + 1) now = some ((events.drop after).map Prod.fst) := by
  rcases Nat.lt_trichotomy after events.length with hlt | rfl | hgt
  · rw [h.reach_of_lt hlt]
    split
    · exact .inl ⟨rfl, hlt.ne⟩
    · split_ifs
      · exact .inl ⟨rfl, hlt.ne⟩
      · exact .inl ⟨rfl, hlt.ne⟩
      · exact .inr ⟨hlt.le, rfl⟩
  · rw [reach, h.nextSeq_eq, if_pos rfl, List.drop_length]
    exact .inr ⟨le_rfl, rfl⟩
  · rw [reach, h.nextSeq_eq, if_neg (by omega), if_pos (by omega)]
    exact .inl ⟨rfl, hgt.ne'⟩

theorem since_ok {after : ℕ} (hfits : after + 1 < 2 ^ 64) (ring : Ring β) (now : ℕ) :
    ring.since after now = .ok (ring.reach after (after + 1) now) := by
  rw [since, nextSeqAfter_ok hfits]
  rfl

theorem since_overflow {after : ℕ} (hfits : ¬ after + 1 < 2 ^ 64) (ring : Ring β) (now : ℕ) :
    ring.since after now = .error .overflow := by
  simp only [since, nextSeqAfter_overflow hfits]
  rfl

end Ring

/-! ### Logs -/

/-- The events of a history that go out on a channel. -/
def sentOn (history : List (ServerEvent β × ℕ)) (channel : Channel) : List (ServerEvent β × ℕ) :=
  history.filter fun e => decide (e.1.channel = channel)

/-- Every event of the history, on every channel, has a number with a successor. -/
def Fits (history : List (ServerEvent β × ℕ)) : Prop :=
  ∀ channel, (sentOn history channel).length + 1 < 2 ^ 64

theorem fits_nil : Fits ([] : List (ServerEvent β × ℕ)) :=
  fun _ => Nat.lt_of_lt_of_le Nat.one_lt_two (by decide)

theorem sentOn_concat_self (history : List (ServerEvent β × ℕ)) (event : ServerEvent β) (now : ℕ) :
    sentOn (history ++ [(event, now)]) event.channel =
      sentOn history event.channel ++ [(event, now)] := by
  simp [sentOn]

theorem sentOn_concat_of_ne (history : List (ServerEvent β × ℕ)) {event : ServerEvent β}
    {channel : Channel} (h : channel ≠ event.channel) (now : ℕ) :
    sentOn (history ++ [(event, now)]) channel = sentOn history channel := by
  simp [sentOn, h.symm]

theorem length_sentOn_le (past rest : List (ServerEvent β × ℕ)) (channel : Channel) :
    (sentOn past channel).length ≤ (sentOn (past ++ rest) channel).length := by
  rw [sentOn, sentOn, List.filter_append, List.length_append]
  exact Nat.le_add_right _ _

namespace ResumeLog

/-- The ring of a channel, an empty one where nothing was recorded. -/
def ring (self : ResumeLog β) (channel : Channel) : Ring β :=
  (self.rings channel).getD (Ring.new (ringCapacity channel))

/-- A log over a history: every channel's ring is one over the events sent on it, and there is a
ring where there is an event. -/
structure Holds (log : ResumeLog β) (history : List (ServerEvent β × ℕ)) : Prop where
  ring_holds : ∀ channel, (log.ring channel).Holds (sentOn history channel)
  capacity_eq : ∀ channel, (log.ring channel).capacity = ringCapacity channel
  rings_none : ∀ channel, log.rings channel = none ↔ sentOn history channel = []

theorem store_rings_of_ne (log : ResumeLog β) {channel other : Channel} (h : channel ≠ other)
    (ring : Ring β) : (log.store other ring).rings channel = log.rings channel :=
  Function.update_of_ne h _ _

theorem store_rings_self (log : ResumeLog β) (channel : Channel) (ring : Ring β) :
    (log.store channel ring).rings channel = some ring :=
  Function.update_self _ _ _

theorem holds_new (epoch : UInt64) : (new epoch : ResumeLog β).Holds [] :=
  ⟨fun _ => Ring.holds_new _, fun _ => rfl, fun _ => iff_of_true rfl rfl⟩

variable {log : ResumeLog β} {history : List (ServerEvent β × ℕ)}

/-- Recording an event whose number has a successor. -/
theorem Holds.record_ok (h : log.Holds history) (event : ServerEvent β) (now : ℕ)
    (hfits : (sentOn history event.channel).length + 1 + 1 < 2 ^ 64) :
    ∃ log', log.record event now = .ok (log', (sentOn history event.channel).length + 1) ∧
      log'.epoch = log.epoch ∧ log'.Holds (history ++ [(event, now)]) := by
  obtain ⟨ring', hpush, hcap, hring'⟩ := (h.ring_holds event.channel).push_ok hfits event now
  refine ⟨log.store event.channel ring', ?_, rfl, ?_⟩
  · rw [ring] at hpush
    simp only [record, hpush]
    rfl
  · refine ⟨fun channel => ?_, fun channel => ?_, fun channel => ?_⟩
    all_goals
      rcases eq_or_ne channel event.channel with rfl | hne
    · rw [sentOn_concat_self, ring, store_rings_self]
      exact hring'
    · rw [sentOn_concat_of_ne history hne, ring, store_rings_of_ne log hne]
      exact h.ring_holds channel
    · rw [ring, store_rings_self]
      exact hcap.trans (h.capacity_eq event.channel)
    · rw [ring, store_rings_of_ne log hne]
      exact h.capacity_eq channel
    · rw [sentOn_concat_self, store_rings_self]
      exact iff_of_false (by simp) (by simp)
    · rw [sentOn_concat_of_ne history hne, store_rings_of_ne log hne]
      exact h.rings_none channel

/-- Recording an event whose number has no successor. -/
theorem Holds.record_overflow (h : log.Holds history) (event : ServerEvent β) (now : ℕ)
    (hfull : ¬ (sentOn history event.channel).length + 1 + 1 < 2 ^ 64) :
    log.record event now = .error .overflow := by
  have hpush := (h.ring_holds event.channel).push_overflow hfull event now
  rw [ring] at hpush
  simp only [record, hpush]
  rfl

/-- Recording a history: it succeeds exactly when all of it fits, and leaves a log over it. -/
theorem Holds.recordAll_cases (h : log.Holds history) (hfits : Fits history)
    (rest : List (ServerEvent β × ℕ)) :
    (Fits (history ++ rest) ∧ ∃ log', log.recordAll rest = .ok log' ∧ log'.epoch = log.epoch ∧
      log'.Holds (history ++ rest)) ∨
    (¬ Fits (history ++ rest) ∧ log.recordAll rest = .error .overflow) := by
  induction rest generalizing log history with
  | nil => exact .inl (by rw [List.append_nil]; exact ⟨hfits, log, rfl, rfl, h⟩)
  | cons e rest ih =>
    obtain ⟨event, now⟩ := e
    have hsplit : history ++ (event, now) :: rest = history ++ [(event, now)] ++ rest := by
      rw [List.append_assoc, List.singleton_append]
    rw [hsplit]
    by_cases hroom : (sentOn history event.channel).length + 1 + 1 < 2 ^ 64
    · obtain ⟨log', hrecord, hepoch, hlog'⟩ := h.record_ok event now hroom
      have hfits' : Fits (history ++ [(event, now)]) := by
        intro channel
        rcases eq_or_ne channel event.channel with rfl | hne
        · rw [sentOn_concat_self, List.length_append]
          exact hroom
        · rw [sentOn_concat_of_ne history hne]
          exact hfits channel
      have hrest : log.recordAll ((event, now) :: rest) = log'.recordAll rest := by
        rw [recordAll, hrecord]
        rfl
      rw [hrest, ← hepoch]
      exact ih hlog' hfits'
    · refine .inr ⟨fun hall => hroom ?_, ?_⟩
      · have hlength := length_sentOn_le (history ++ [(event, now)]) rest event.channel
        rw [sentOn_concat_self, List.length_append] at hlength
        exact lt_of_le_of_lt (Nat.succ_le_succ hlength) (hall event.channel)
      · rw [recordAll, h.record_overflow event now hroom]
        rfl

theorem Holds.nextSeq_eq (h : log.Holds history) (channel : Channel) :
    log.nextSeq channel = (sentOn history channel).length + 1 := by
  have hring := (h.ring_holds channel).nextSeq_eq
  rw [ring] at hring
  rw [nextSeq, ← hring]
  cases log.rings channel <;> rfl

/-- The one acknowledgement that cannot be answered without overflow: the largest number, on a
resumable channel that has a ring. -/
def Overflows (history : List (ServerEvent β × ℕ)) (ack : Channel × UInt64) : Prop :=
  ack.1.resumable = true ∧ sentOn history ack.1 ≠ [] ∧ ¬ ack.2.toNat + 1 < 2 ^ 64

/-- A channel on which nothing was sent has no ring to answer from. -/
theorem Holds.answer_of_sentOn_nil (h : log.Holds history) {ack : Channel × UInt64}
    (hsent : sentOn history ack.1 = []) (now : ℕ) : log.answer now ack = .ok none := by
  rw [answer, (h.rings_none ack.1).mpr hsent]
  split_ifs <;> rfl

/-- A resumable channel is answered from its ring. -/
theorem Holds.answer_of_sent (h : log.Holds history) {ack : Channel × UInt64}
    (hres : ack.1.resumable = true) (hsent : sentOn history ack.1 ≠ [])
    (hfits : ack.2.toNat + 1 < 2 ^ 64) (now : ℕ) :
    log.answer now ack =
      .ok ((log.ring ack.1).reach ack.2.toNat (ack.2.toNat + 1) now) := by
  obtain ⟨r, hring⟩ := Option.ne_none_iff_exists'.mp (mt (h.rings_none ack.1).mp hsent)
  rw [answer, hres, Bool.not_true, if_neg Bool.false_ne_true, ring, hring, Option.getD_some]
  exact Ring.since_ok hfits r now

/-- What one acknowledgement is answered with: nothing, or exactly what was missed. -/
theorem Holds.answer_ok (h : log.Holds history) (now : ℕ) {ack : Channel × UInt64}
    (hack : ¬ Overflows history ack) :
    log.answer now ack = .ok none ∨
      ack.1.resumable = true ∧ ack.2.toNat ≤ (sentOn history ack.1).length ∧
        log.answer now ack =
          .ok (some (((sentOn history ack.1).drop ack.2.toNat).map Prod.fst)) := by
  rcases hres : ack.1.resumable with _ | _
  · rw [answer, hres]
    exact .inl rfl
  rcases eq_or_ne (sentOn history ack.1) [] with hnil | hsent
  · exact .inl (h.answer_of_sentOn_nil hnil now)
  · have hfits : ack.2.toNat + 1 < 2 ^ 64 := by
      by_contra hfull
      exact hack ⟨hres, hsent, hfull⟩
    rw [h.answer_of_sent hres hsent hfits]
    rcases (h.ring_holds ack.1).reach_cases ack.2.toNat now with ⟨hnone, -⟩ | ⟨hle, hsome⟩
    · exact .inl (by rw [hnone])
    · exact .inr ⟨rfl, hle, by rw [hsome]⟩

theorem Holds.answer_overflow (h : log.Holds history) (now : ℕ) {ack : Channel × UInt64}
    (hack : Overflows history ack) : log.answer now ack = .error .overflow := by
  obtain ⟨hres, hsent, hfull⟩ := hack
  obtain ⟨r, hring⟩ := Option.ne_none_iff_exists'.mp (mt (h.rings_none ack.1).mp hsent)
  rw [answer, hres, hring, Bool.not_true, if_neg Bool.false_ne_true]
  exact Ring.since_overflow hfull r now

theorem mem_lost_add {r : Resumed β} {channel c : Channel}
    {missed : Option (List (ServerEvent β))} :
    c ∈ (r.add channel missed).lost ↔ channel = c ∧ missed = none ∨ c ∈ r.lost := by
  rcases missed with _ | _ | ⟨e, es⟩ <;> simp [Resumed.add, eq_comm]

theorem mem_replay_add {r : Resumed β} {channel c : Channel}
    {missed : Option (List (ServerEvent β))} {events : List (ServerEvent β)} :
    (c, events) ∈ (r.add channel missed).replay ↔
      channel = c ∧ missed = some events ∧ events ≠ [] ∨ (c, events) ∈ r.replay := by
  rcases missed with _ | _ | ⟨e, es⟩
  · simp [Resumed.add]
  · simp only [Resumed.add, Option.some.injEq]
    refine ⟨.inr, fun h => h.resolve_left ?_⟩
    rintro ⟨-, rfl, hne⟩
    exact hne rfl
  · simp only [Resumed.add, List.mem_cons, Prod.mk.injEq, Option.some.injEq]
    refine or_congr_left ⟨?_, ?_⟩
    · rintro ⟨rfl, rfl⟩
      exact ⟨rfl, rfl, List.cons_ne_nil e es⟩
    · rintro ⟨rfl, rfl, -⟩
      exact ⟨rfl, rfl⟩

/-- Acknowledgements that can all be answered are collected: the channels without an answer are
lost, and those that missed something are replayed. -/
theorem collect_ok {now : ℕ} {acks : List (Channel × UInt64)}
    (h : ∀ ack ∈ acks, ∃ missed, log.answer now ack = .ok missed) :
    ∃ r, log.collect now acks = .ok r ∧
      (∀ channel, channel ∈ r.lost ↔ ∃ ack ∈ acks, ack.1 = channel ∧
        log.answer now ack = .ok none) ∧
      ∀ channel events, (channel, events) ∈ r.replay ↔ ∃ ack ∈ acks, ack.1 = channel ∧
        log.answer now ack = .ok (some events) ∧ events ≠ [] := by
  induction acks with
  | nil => exact ⟨⟨[], []⟩, rfl, by simp, by simp⟩
  | cons ack acks ih =>
    obtain ⟨missed, hmissed⟩ := h ack List.mem_cons_self
    obtain ⟨rest, hrest, hlost, hreplay⟩ := ih fun a ha => h a (List.mem_cons_of_mem ack ha)
    refine ⟨rest.add ack.1 missed, ?_, fun channel => ?_, fun channel events => ?_⟩
    · rw [collect, hmissed, hrest]
      rfl
    · simp only [mem_lost_add, hlost, List.exists_mem_cons_iff, hmissed, Except.ok.injEq]
    · simp only [mem_replay_add, hreplay, List.exists_mem_cons_iff, hmissed, Except.ok.injEq]

/-- An acknowledgement that overflows leaves the request without an answer. -/
theorem collect_overflow {now : ℕ} {acks : List (Channel × UInt64)} {ack : Channel × UInt64}
    (hmem : ack ∈ acks) (h : log.answer now ack = .error .overflow) (r : Resumed β) :
    log.collect now acks ≠ .ok r := by
  induction acks generalizing r with
  | nil => exact absurd hmem List.not_mem_nil
  | cons first acks ih =>
    intro hcollect
    rw [collect] at hcollect
    rcases hfirst : log.answer now first with _ | missed
    · rw [hfirst] at hcollect
      cases hcollect
    · rcases List.mem_cons.mp hmem with rfl | hrest
      · rw [h] at hfirst
        cases hfirst
      · rcases hacks : log.collect now acks with _ | rest
        · rw [hfirst, hacks] at hcollect
          cases hcollect
        · exact ih hrest rest hacks

end ResumeLog

/-! ### Exactness -/

/-- An exact answer to a list of acknowledgements, over the events sent on each channel. -/
structure ResumeExact (log : ResumeLog β) (history : List (ServerEvent β × ℕ))
    (acks : List (Channel × UInt64)) (r : Resumed β) : Prop where
  /-- A channel that cannot be resumed is lost. -/
  not_resumable : ∀ ack ∈ acks, ack.1.resumable = false → ack.1 ∈ r.lost
  /-- One that can is lost, or replayed from its acknowledgement on, or up to date. -/
  resumable : ∀ ack ∈ acks, ack.1.resumable = true → ack.1 ∈ r.lost ∨
    (ack.1, ((sentOn history ack.1).drop ack.2.toNat).map Prod.fst) ∈ r.replay ∨
    ack.1 ∉ r.lost ∧ (∀ events, (ack.1, events) ∉ r.replay) ∧
      ack.2.toNat = (sentOn history ack.1).length
  /-- A replay is never partial. -/
  whole : ∀ ack ∈ acks, ∀ events, (ack.1, events) ∈ r.replay →
    events = ((sentOn history ack.1).drop ack.2.toNat).map Prod.fst
  /-- An acknowledgement of something never sent loses the channel. -/
  ahead : ∀ ack ∈ acks, log.nextSeq ack.1 ≤ ack.2.toNat → ack.1 ∈ r.lost
  disjoint : ∀ channel ∈ r.lost, ∀ events, (channel, events) ∉ r.replay
  replay_sorted : r.replay.Pairwise fun a b => a.1.number ≤ b.1.number
  lost_sorted : r.lost.Pairwise fun a b => a.number ≤ b.number

/-- Distinct channels are acknowledged once: what some acknowledgement of a channel is like, its
only one is. -/
private theorem exists_ack_iff {acks : List (Channel × UInt64)} (h : (acks.map Prod.fst).Nodup)
    {ack : Channel × UInt64} (hack : ack ∈ acks) {P : Channel × UInt64 → Prop} :
    (∃ ack' ∈ acks, ack'.1 = ack.1 ∧ P ack') ↔ P ack := by
  constructor
  · rintro ⟨ack', hack', heq, hP⟩
    rwa [List.inj_on_of_nodup_map h hack' hack heq] at hP
  · exact fun hP => ⟨ack, hack, rfl, hP⟩

namespace ResumeLog

variable {log : ResumeLog β} {history : List (ServerEvent β × ℕ)}

/-- A resume none of whose acknowledgements overflows: the channels without an answer are lost,
those that missed something are replayed, and both lists are in the order of the channels. -/
theorem Holds.resume_answers (h : log.Holds history) {acks : List (Channel × UInt64)}
    (hacks : ∀ ack ∈ acks, ¬ Overflows history ack) (now : ℕ) :
    ∃ r, log.resume log.epoch acks now = .ok (.ok r) ∧
      (∀ channel, channel ∈ r.lost ↔ ∃ ack ∈ acks, ack.1 = channel ∧
        log.answer now ack = .ok none) ∧
      (∀ channel events, (channel, events) ∈ r.replay ↔ ∃ ack ∈ acks, ack.1 = channel ∧
        log.answer now ack = .ok (some events) ∧ events ≠ []) ∧
      (r.replay.Pairwise fun a b => a.1.number ≤ b.1.number) ∧
      r.lost.Pairwise fun a b => a.number ≤ b.number := by
  have hanswers : ∀ ack ∈ acks, ∃ missed, log.answer now ack = .ok missed := by
    intro ack hack
    rcases h.answer_ok now (hacks ack hack) with hnone | ⟨-, -, hsome⟩
    · exact ⟨_, hnone⟩
    · exact ⟨_, hsome⟩
  obtain ⟨found, hfound, hlost, hreplay⟩ := collect_ok hanswers
  refine ⟨_, by rw [resume, if_neg (by simp), hfound]; rfl, fun channel => ?_,
    fun channel events => ?_, ?_, ?_⟩
  · rw [List.mem_mergeSort, hlost]
  · rw [List.mem_mergeSort, hreplay]
  · refine (List.pairwise_mergeSort (fun a b c => ?_) (fun a b => ?_) found.replay).imp
      fun hab => of_decide_eq_true hab
    · simpa using UInt8.le_trans
    · simpa using UInt8.le_total a.1.number b.1.number
  · refine (List.pairwise_mergeSort (fun a b c => ?_) (fun a b => ?_) found.lost).imp
      fun hab => of_decide_eq_true hab
    · simpa using UInt8.le_trans
    · simpa using UInt8.le_total a.number b.number

/-- A resume none of whose acknowledgements overflows is exact. -/
theorem Holds.resume_ok (h : log.Holds history) {acks : List (Channel × UInt64)}
    (hdistinct : (acks.map Prod.fst).Nodup) (hacks : ∀ ack ∈ acks, ¬ Overflows history ack)
    (now : ℕ) :
    ∃ r, log.resume log.epoch acks now = .ok (.ok r) ∧ ResumeExact log history acks r := by
  obtain ⟨r, hresume, hlost, hreplay, hreplay_sorted, hlost_sorted⟩ := h.resume_answers hacks now
  -- what the answer says of an acknowledged channel is decided by its one acknowledgement
  have hlost' : ∀ ack ∈ acks, ack.1 ∈ r.lost ↔ log.answer now ack = .ok none :=
    fun ack hack => (hlost ack.1).trans (exists_ack_iff hdistinct hack)
  have hreplay' : ∀ ack ∈ acks, ∀ events, (ack.1, events) ∈ r.replay ↔
      log.answer now ack = .ok (some events) ∧ events ≠ [] :=
    fun ack hack events => (hreplay ack.1 events).trans (exists_ack_iff hdistinct hack)
  refine ⟨r, hresume, ?_⟩
  constructor
  · intro ack hack hres
    rw [hlost' ack hack, answer, hres]
    rfl
  · intro ack hack _
    simp only [hlost' ack hack, hreplay' ack hack]
    rcases h.answer_ok now (hacks ack hack) with hnone | ⟨-, hle, hsome⟩
    · exact .inl hnone
    · rcases Nat.lt_or_eq_of_le hle with hlt | heq
      · refine .inr (.inl ⟨hsome, ?_⟩)
        rw [Ne, List.map_eq_nil_iff, List.drop_eq_nil_iff]
        omega
      · refine .inr (.inr ⟨?_, fun events => ?_, heq⟩)
        · rw [hsome]
          simp
        · rw [hsome, heq, List.drop_length]
          rintro ⟨hevents, hne⟩
          exact hne (Option.some.inj (Except.ok.inj hevents)).symm
  · intro ack hack events hmem
    rw [hreplay' ack hack] at hmem
    rcases h.answer_ok now (hacks ack hack) with hnone | ⟨-, -, hsome⟩
    · rw [hnone] at hmem
      cases hmem.1
    · exact Option.some.inj (Except.ok.inj (hmem.1.symm.trans hsome))
  · intro ack hack hahead
    rw [h.nextSeq_eq] at hahead
    rw [hlost' ack hack]
    rcases h.answer_ok now (hacks ack hack) with hnone | ⟨-, hle, -⟩
    · exact hnone
    · exact absurd hle (Nat.not_le.mpr hahead)
  · intro channel hchannel events hmem
    obtain ⟨ack, hack, rfl, hnone⟩ := (hlost channel).mp hchannel
    have hsome := ((hreplay' ack hack events).mp hmem).1
    rw [hnone] at hsome
    cases hsome
  · exact hreplay_sorted
  · exact hlost_sorted

/-- A resume one of whose acknowledgements overflows has no answer. -/
theorem Holds.resume_overflow (h : log.Holds history) {acks : List (Channel × UInt64)}
    {ack : Channel × UInt64} (hmem : ack ∈ acks) (hack : Overflows history ack) (now : ℕ)
    (r : Resumed β) : log.resume log.epoch acks now ≠ .ok (.ok r) := by
  intro hresume
  rw [resume, if_neg (by simp)] at hresume
  rcases hfound : log.collect now acks with _ | found
  · rw [hfound] at hresume
    cases hresume
  · exact collect_overflow hmem (h.answer_overflow now hack) found hfound

/-- **Resume exactness.** For a history recorded in this epoch and acknowledgements of distinct
channels: the history is recorded, a foreign epoch is refused, and the resume is answered exactly,
with no addition on sequence numbers overflowing, if and only if every channel's events have
numbers with a successor and so does every acknowledgement of a resumable channel that has
events. -/
theorem resume_exact_iff (epoch : UInt64) (history : List (ServerEvent β × ℕ))
    (acks : List (Channel × UInt64)) (hdistinct : (acks.map Prod.fst).Nodup) (now : ℕ) :
    (∃ log, (new epoch : ResumeLog β).recordAll history = .ok log ∧
      (∀ theirs, theirs ≠ epoch →
        log.resume theirs acks now = .ok (.error (.epochChanged theirs epoch))) ∧
      ∃ r, log.resume epoch acks now = .ok (.ok r) ∧ ResumeExact log history acks r) ↔
    Fits history ∧ ∀ ack ∈ acks, ack.1.resumable = true → sentOn history ack.1 ≠ [] →
      ack.2.toNat + 1 < 2 ^ 64 := by
  rcases (holds_new epoch).recordAll_cases fits_nil history with
    ⟨hfits, log, hlog, rfl, hholds⟩ | ⟨hfull, hoverflow⟩
  · rw [List.nil_append] at hfits hholds
    constructor
    · rintro ⟨log', hlog', -, r, hresume, -⟩
      obtain rfl : log = log' := Except.ok.inj (hlog.symm.trans hlog')
      refine ⟨hfits, fun ack hack hres hsent => ?_⟩
      by_contra hnot
      exact hholds.resume_overflow hack ⟨hres, hsent, hnot⟩ now r hresume
    · rintro ⟨-, hacks⟩
      refine ⟨log, hlog, fun theirs hne => ?_, ?_⟩
      · rw [resume, if_pos hne]
        rfl
      · refine hholds.resume_ok hdistinct (fun ack hack => ?_) now
        exact fun ⟨hres, hsent, hnot⟩ => hnot (hacks ack hack hres hsent)
  · rw [List.nil_append] at hfull
    refine iff_of_false ?_ fun h => hfull h.1
    rintro ⟨log, hlog, -⟩
    rw [hoverflow] at hlog
    cases hlog

/-- Three prints on the tape, a second apart. -/
private def threePrints : List (ServerEvent ℕ × ℕ) :=
  [(.other .tape 1, 0), (.other .tape 2, 10 ^ 9), (.other .tape 3, 2 * 10 ^ 9)]

/-- A terminal that has seen one of three prints, and asks for the book as well. -/
theorem resume_exact_iff_threePrints :
    ∃ log, (new 7 : ResumeLog ℕ).recordAll threePrints = .ok log ∧
      (∀ theirs, theirs ≠ 7 → log.resume theirs [(.tape, 1), (.book, 0)] (3 * 10 ^ 9) =
        .ok (.error (.epochChanged theirs 7))) ∧
      ∃ r, log.resume 7 [(.tape, 1), (.book, 0)] (3 * 10 ^ 9) = .ok (.ok r) ∧
        ResumeExact log threePrints [(.tape, 1), (.book, 0)] r := by
  refine (resume_exact_iff 7 threePrints [(.tape, 1), (.book, 0)] (by decide) (3 * 10 ^ 9)).mpr
    ⟨fun channel => ?_, by decide⟩
  have hle : (sentOn threePrints channel).length ≤ 3 := List.length_filter_le _ _
  exact lt_of_le_of_lt (Nat.succ_le_succ hle) (by decide)

/-- After one print, an acknowledgement of the largest number on the tape is not answered: the
addition that looks for its successor overflows. -/
theorem not_resume_exact_max :
    ¬ ∃ log, (new 7 : ResumeLog ℕ).recordAll [(.other .tape 1, 0)] = .ok log ∧
      ∃ r, log.resume 7 [(.tape, 18446744073709551615)] 0 = .ok (.ok r) := by
  rintro ⟨log, hlog, r, hresume⟩
  rcases (holds_new 7).recordAll_cases fits_nil [(.other .tape 1, 0)] with
    ⟨-, log', hlog', hepoch, hholds⟩ | ⟨-, hoverflow⟩
  · obtain rfl : log' = log := Except.ok.inj (hlog'.symm.trans hlog)
    have hoverflows : Overflows [(.other .tape 1, 0)] (.tape, 18446744073709551615) :=
      ⟨rfl, by simp [sentOn, ServerEvent.channel], by decide⟩
    have hnone := hholds.resume_overflow (List.mem_singleton_self _) hoverflows 0 r
    rw [hepoch] at hnone
    exact hnone hresume
  · rw [hoverflow] at hlog
    cases hlog

end ResumeLog

end MoonCore
