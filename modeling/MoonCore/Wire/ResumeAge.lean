import MoonCore.Wire.Resume

/-!
# How old a gap may be

A break shorter than `resumeWindow` is meant to be resumed from the ring: everything missed is
still held and recent (`RecentGap`). The age is judged on the oldest entry of the ring, though,
which need not be one that was missed. `gap_resumed_iff` says when the gap is resumed
nevertheless: the terminal missed nothing, or the whole ring is younger than the window.

A terminal that missed nothing is left alone at any age, once its channel has a ring:
`untouched_iff`. The next number of a channel that sent nothing is 1 all the same.
-/

namespace MoonCore

variable {β : Type}

/-- What a terminal has missed of a channel: the events numbered after its acknowledgement. -/
def missed (history : List (ServerEvent β × ℕ)) (ack : Channel × UInt64) : List (Held β) :=
  (numbered 1 (sentOn history ack.1)).filter fun held => decide (held.seq > ack.2.toNat)

/-- A number in a numbered list. -/
theorem exists_mem_numbered {k : ℕ} {events : List (ServerEvent β × ℕ)} (h : k < events.length)
    (seq : ℕ) : ∃ held ∈ numbered seq events, held.seq = seq + k := by
  induction events generalizing k seq with
  | nil => exact absurd h (Nat.not_lt_zero k)
  | cons e events ih =>
    rw [numbered]
    cases k with
    | zero => exact ⟨_, List.mem_cons_self, rfl⟩
    | succ k =>
      obtain ⟨held, hheld, hseq⟩ := ih (Nat.lt_of_succ_lt_succ h) (seq + 1)
      exact ⟨held, List.mem_cons_of_mem _ hheld, by omega⟩

theorem mem_of_mem_numbered {seq : ℕ} {events : List (ServerEvent β × ℕ)} {held : Held β}
    (h : held ∈ numbered seq events) : (held.event, held.at_) ∈ events := by
  induction events generalizing seq with
  | nil => exact absurd h List.not_mem_nil
  | cons e events ih =>
    rcases List.mem_cons.mp h with rfl | hrest
    · exact List.mem_cons_self
    · exact List.mem_cons_of_mem e (ih hrest)

theorem map_event_missed (history : List (ServerEvent β × ℕ)) (ack : Channel × UInt64) :
    (missed history ack).map Held.event =
      ((sentOn history ack.1).drop ack.2.toNat).map Prod.fst := by
  rw [missed, filter_numbered (by omega), map_event_numbered, Nat.add_sub_cancel]

namespace ResumeLog

/-- A break the history still reaches over: every event missed is in the ring of its channel, and
was recorded no longer than the window ago. -/
structure RecentGap (log : ResumeLog β) (history : List (ServerEvent β × ℕ))
    (ack : Channel × UInt64) (now : ℕ) : Prop where
  retained : ∀ held ∈ missed history ack, ∃ ring, log.rings ack.1 = some ring ∧ held ∈ ring.entries
  recent : ∀ held ∈ missed history ack, now - held.at_ ≤ resumeWindow

/-- A channel picked up where the terminal left it: it is not lost, and its replay, if there is
one to give, is what was missed. -/
structure PickedUp (r : Resumed β) (channel : Channel) (missed : List (ServerEvent β)) : Prop where
  not_lost : channel ∉ r.lost
  replay_iff : ∀ events, (channel, events) ∈ r.replay ↔ events = missed ∧ events ≠ []

/-- Everything in the ring of a channel is younger than the window. -/
def Young (history : List (ServerEvent β × ℕ)) (channel : Channel) (now : ℕ) : Prop :=
  ∀ oldest ∈ ((sentOn history channel).rtake (ringCapacity channel)).head?,
    now - oldest.2 ≤ resumeWindow

variable {log : ResumeLog β} {history : List (ServerEvent β × ℕ)}

/-- A channel that never sent more than its ring holds has all of it. -/
theorem Holds.recentGap (h : log.Holds history) {ack : Channel × UInt64} {now : ℕ}
    (hroom : (sentOn history ack.1).length ≤ ringCapacity ack.1)
    (hrecent : ∀ e ∈ (sentOn history ack.1).drop ack.2.toNat, now - e.2 ≤ resumeWindow) :
    log.RecentGap history ack now := by
  constructor
  · intro held hheld
    have hheld := (List.mem_filter.mp hheld).1
    have hsent : sentOn history ack.1 ≠ [] := List.ne_nil_of_mem (mem_of_mem_numbered hheld)
    obtain ⟨r, hr⟩ := Option.ne_none_iff_exists'.mp (mt (h.rings_none ack.1).mp hsent)
    have hring := (h.ring_holds ack.1).entries_eq
    rw [h.capacity_eq, List.rtake, length_numbered, Nat.sub_eq_zero_of_le hroom, List.drop_zero,
      ring, hr, Option.getD_some] at hring
    exact ⟨r, hr, hring ▸ hheld⟩
  · intro held hheld
    rw [missed, filter_numbered (by omega), Nat.add_sub_cancel] at hheld
    exact hrecent _ (mem_of_mem_numbered hheld)

/-- A ring that holds all that was missed holds it out unless its oldest entry is too old. -/
theorem Holds.reach_eq_none_iff (h : log.Holds history) {ack : Channel × UInt64}
    (hlt : ack.2.toNat < (sentOn history ack.1).length) {now : ℕ}
    (hgap : log.RecentGap history ack now) :
    (log.ring ack.1).reach ack.2.toNat (ack.2.toNat + 1) now = none ↔
      ¬ Young history ack.1 now := by
  have hring := h.ring_holds ack.1
  -- the first event missed is held, so the ring is not empty and reaches back far enough
  obtain ⟨held, hheld, hseq⟩ := exists_mem_numbered hlt 1
  have hmissed : held ∈ missed history ack :=
    List.mem_filter.mpr ⟨hheld, decide_eq_true (by omega)⟩
  obtain ⟨r, hr, hentry⟩ := hgap.retained held hmissed
  have hentry : held ∈ (log.ring ack.1).entries := by rwa [ring, hr, Option.getD_some]
  rw [hring.entries_eq, List.rtake, length_numbered, drop_numbered] at hentry
  have hreach := le_seq_of_mem_numbered hentry
  rw [hring.reach_of_lt hlt, Young, h.capacity_eq]
  rw [← List.rtake, h.capacity_eq] at hentry
  rw [h.capacity_eq] at hreach
  rcases hlast : (sentOn history ack.1).rtake (ringCapacity ack.1) with _ | ⟨e, rest⟩
  · rw [hlast] at hentry
    exact absurd hentry List.not_mem_nil
  · rw [List.head?_cons]
    dsimp only
    rw [if_neg (by omega)]
    split_ifs with hold
    · refine iff_of_true rfl fun hyoung => ?_
      exact absurd (hyoung e rfl) (Nat.not_le.mpr hold)
    · refine iff_of_false (by simp) (not_not.mpr fun oldest holdest => ?_)
      rw [← Option.some.inj holdest]
      exact Nat.not_lt.mp hold

/-- Within a recent gap, the answer to an acknowledgement. -/
theorem Holds.answer_eq_none_iff (h : log.Holds history) {ack : Channel × UInt64}
    (hres : ack.1.resumable = true) (hack : ¬ Overflows history ack) {now : ℕ}
    (hgap : log.RecentGap history ack now) :
    log.answer now ack = .ok none ↔
      ¬ (sentOn history ack.1 ≠ [] ∧ ack.2.toNat ≤ (sentOn history ack.1).length ∧
        (ack.2.toNat = (sentOn history ack.1).length ∨ Young history ack.1 now)) := by
  rcases eq_or_ne (sentOn history ack.1) [] with hnil | hsent
  · exact iff_of_true (h.answer_of_sentOn_nil hnil now) fun hcond => hcond.1 hnil
  have hfits : ack.2.toNat + 1 < 2 ^ 64 := by
    by_contra hfull
    exact hack ⟨hres, hsent, hfull⟩
  rw [h.answer_of_sent hres hsent hfits, Except.ok.injEq]
  rcases Nat.lt_trichotomy ack.2.toNat (sentOn history ack.1).length with hlt | heq | hgt
  · rw [h.reach_eq_none_iff hlt hgap]
    simp [hsent, hlt.le, hlt.ne]
  · rcases (h.ring_holds ack.1).reach_cases ack.2.toNat now with ⟨-, hne⟩ | ⟨-, hsome⟩
    · exact absurd heq hne
    · rw [hsome]
      simp [hsent, heq]
  · rcases (h.ring_holds ack.1).reach_cases ack.2.toNat now with ⟨hnone, -⟩ | ⟨hle, -⟩
    · simp [hnone, Nat.not_le.mpr hgt]
    · exact absurd hle (Nat.not_le.mpr hgt)

/-- A channel acknowledged once: its acknowledgement decides whether it is lost, and its replay. -/
theorem Holds.resume_once (h : log.Holds history) {acks : List (Channel × UInt64)}
    {ack : Channel × UInt64} (hmem : ack ∈ acks)
    (honce : ∀ other ∈ acks, other.1 = ack.1 → other = ack)
    (hacks : ∀ other ∈ acks, ¬ Overflows history other) (now : ℕ) :
    ∃ r, log.resume log.epoch acks now = .ok (.ok r) ∧
      (ack.1 ∈ r.lost ↔ log.answer now ack = .ok none) ∧
      ∀ events, (ack.1, events) ∈ r.replay ↔
        log.answer now ack = .ok (some events) ∧ events ≠ [] := by
  obtain ⟨r, hresume, hlost, hreplay, -⟩ := h.resume_answers hacks now
  have honly : ∀ {P : Channel × UInt64 → Prop},
      (∃ other ∈ acks, other.1 = ack.1 ∧ P other) ↔ P ack := by
    intro P
    constructor
    · rintro ⟨other, hother, hchannel, hP⟩
      rwa [honce other hother hchannel] at hP
    · exact fun hP => ⟨ack, hmem, rfl, hP⟩
  exact ⟨r, hresume, (hlost ack.1).trans honly, fun events => (hreplay ack.1 events).trans honly⟩

/-- A channel acknowledged once is picked up exactly if its acknowledgement has an answer. -/
theorem Holds.pickedUp_iff (h : log.Holds history) {acks : List (Channel × UInt64)}
    {ack : Channel × UInt64} (hmem : ack ∈ acks)
    (honce : ∀ other ∈ acks, other.1 = ack.1 → other = ack)
    (hacks : ∀ other ∈ acks, ¬ Overflows history other) (now : ℕ) :
    (∃ r, log.resume log.epoch acks now = .ok (.ok r) ∧
      PickedUp r ack.1 ((missed history ack).map Held.event)) ↔
    log.answer now ack ≠ .ok none := by
  obtain ⟨r, hresume, hlost, hreplay⟩ := h.resume_once hmem honce hacks now
  constructor
  · rintro ⟨r', hresume', hpicked⟩ hnone
    obtain rfl : r = r' := Except.ok.inj (Except.ok.inj (hresume.symm.trans hresume'))
    exact hpicked.not_lost (hlost.mpr hnone)
  · intro hsome
    refine ⟨r, hresume, fun hmem => hsome (hlost.mp hmem), fun events => ?_⟩
    rw [hreplay, map_event_missed]
    rcases h.answer_ok now (hacks ack hmem) with hnone | ⟨-, -, hanswer⟩
    · exact absurd hnone hsome
    · rw [hanswer, Except.ok.injEq, Option.some.injEq, eq_comm]

/-- A recorded history, and what a resume from it gives: nothing if the number after some
acknowledgement overflows. -/
theorem resume_iff_of_recordAll {epoch : UInt64}
    (hlog : (new epoch : ResumeLog β).recordAll history = .ok log)
    {acks : List (Channel × UInt64)} {now : ℕ} {P : Resumed β → Prop} {Q : Prop}
    (h : log.Holds history → (∀ other ∈ acks, ¬ Overflows history other) →
      ((∃ r, log.resume log.epoch acks now = .ok (.ok r) ∧ P r) ↔ Q)) :
    (∃ r, log.resume epoch acks now = .ok (.ok r) ∧ P r) ↔
      (∀ other ∈ acks, ¬ Overflows history other) ∧ Q := by
  rcases (holds_new epoch).recordAll_cases fits_nil history with
    ⟨-, log', hlog', hepoch, hholds⟩ | ⟨-, hoverflow⟩
  · obtain rfl : log = log' := Except.ok.inj (hlog.symm.trans hlog')
    rw [List.nil_append] at hholds
    have hepoch : log.epoch = epoch := hepoch
    rw [← hepoch]
    by_cases hacks : ∀ other ∈ acks, ¬ Overflows history other
    · rw [h hholds hacks, and_iff_right hacks]
    · refine iff_of_false ?_ fun hcond => hacks hcond.1
      rintro ⟨r, hresume, -⟩
      refine hacks fun other hother hover => ?_
      exact hholds.resume_overflow hother hover now r hresume
  · rw [hoverflow] at hlog
    cases hlog

/-- **A recent gap** on a resumable channel, whatever the age of the log, is resumed exactly if
the terminal has seen what was sent at most, something was sent, and either nothing was missed or
the whole ring is younger than the window; unless some acknowledgement has no number after it. -/
theorem gap_resumed_iff {epoch : UInt64}
    (hlog : (new epoch : ResumeLog β).recordAll history = .ok log)
    {acks : List (Channel × UInt64)} {ack : Channel × UInt64} (hmem : ack ∈ acks)
    (honce : ∀ other ∈ acks, other.1 = ack.1 → other = ack) (hres : ack.1.resumable = true)
    {now : ℕ} (hgap : log.RecentGap history ack now) :
    (∃ r, log.resume epoch acks now = .ok (.ok r) ∧
      PickedUp r ack.1 ((missed history ack).map Held.event)) ↔
    (∀ other ∈ acks, ¬ Overflows history other) ∧ sentOn history ack.1 ≠ [] ∧
      ack.2.toNat ≤ (sentOn history ack.1).length ∧
      (ack.2.toNat = (sentOn history ack.1).length ∨ Young history ack.1 now) := by
  refine resume_iff_of_recordAll hlog fun hholds hacks => ?_
  rw [hholds.pickedUp_iff hmem honce hacks, Ne,
    hholds.answer_eq_none_iff hres (hacks ack hmem) hgap, not_not]

/-- Two alerts, the second `gap` after the first. -/
private def alertsApart (gap : ℕ) : List (ServerEvent ℕ × ℕ) :=
  [(.other .alerts 1, 0), (.other .alerts 2, gap)]

/-- A terminal that has seen the first of two alerts and is back five seconds after the second. -/
private theorem recentGap_alertsApart (gap : ℕ) :
    ∃ log, (new 7 : ResumeLog ℕ).recordAll (alertsApart gap) = .ok log ∧ log.epoch = 7 ∧
      log.Holds (alertsApart gap) ∧
      log.RecentGap (alertsApart gap) (.alerts, 1) (gap + 5 * 10 ^ 9) := by
  rcases (holds_new 7).recordAll_cases fits_nil (alertsApart gap) with
    ⟨-, log, hlog, hepoch, hholds⟩ | ⟨hfull, -⟩
  · rw [List.nil_append] at hholds
    have hroom : (sentOn (alertsApart gap) .alerts).length ≤ ringCapacity .alerts := by
      change 2 ≤ 512
      decide
    refine ⟨log, hlog, hepoch, hholds, hholds.recentGap hroom fun e he => ?_⟩
    rw [List.mem_singleton.mp he, Nat.add_sub_cancel_left]
    decide
  · refine absurd (fun channel => ?_) hfull
    have hle : (sentOn (alertsApart gap) channel).length ≤ 2 := List.length_filter_le _ _
    exact lt_of_le_of_lt (Nat.succ_le_succ hle) (by decide)

/-- A terminal that missed the second of two alerts, in a session younger than the window. -/
theorem gap_resumed_iff_young :
    ∃ log r, (new 7 : ResumeLog ℕ).recordAll (alertsApart (10 ^ 9)) = .ok log ∧
      log.resume 7 [(.alerts, 1)] (10 ^ 9 + 5 * 10 ^ 9) = .ok (.ok r) ∧
      PickedUp r .alerts [.other .alerts 2] := by
  have hyoung : Young (alertsApart (10 ^ 9)) .alerts (10 ^ 9 + 5 * 10 ^ 9) := by
    intro oldest holdest
    rw [← Option.some.inj holdest]
    decide
  obtain ⟨log, hlog, -, -, hgap⟩ := recentGap_alertsApart (10 ^ 9)
  have hacks : ∀ other ∈ [((.alerts, 1) : Channel × UInt64)],
      ¬ Overflows (alertsApart (10 ^ 9)) other := by
    simp [Overflows]
  obtain ⟨r, hresume, hpicked⟩ :=
    (gap_resumed_iff hlog List.mem_cons_self (by simp) rfl hgap).mpr
      ⟨hacks, by decide, by decide, .inr hyoung⟩
  exact ⟨log, r, hlog, hresume, hpicked⟩

/-- The same break of five seconds, in a session of more than three minutes: the second alert is
held and recent, and the channel is lost. -/
theorem recent_gap_lost :
    ∃ log, (new 7 : ResumeLog ℕ).recordAll (alertsApart (200 * 10 ^ 9)) = .ok log ∧
      ((alertsApart (200 * 10 ^ 9)).map Prod.snd).Pairwise (· ≤ ·) ∧
      log.RecentGap (alertsApart (200 * 10 ^ 9)) (.alerts, 1) (200 * 10 ^ 9 + 5 * 10 ^ 9) ∧
      log.resume 7 [(.alerts, 1)] (200 * 10 ^ 9 + 5 * 10 ^ 9) = .ok (.ok ⟨[], [.alerts]⟩) := by
  obtain ⟨log, hlog, hepoch, hholds, hgap⟩ := recentGap_alertsApart (200 * 10 ^ 9)
  have hold : ¬ Young (alertsApart (200 * 10 ^ 9)) .alerts (200 * 10 ^ 9 + 5 * 10 ^ 9) := by
    intro hyoung
    exact absurd (hyoung (.other .alerts 1, 0) rfl) (by decide)
  have hanswer : log.answer (200 * 10 ^ 9 + 5 * 10 ^ 9) (.alerts, 1) = .ok none := by
    refine (hholds.answer_eq_none_iff rfl (by simp [Overflows]) hgap).mpr ?_
    rintro ⟨-, -, heq | hyoung⟩
    · exact absurd heq (by decide)
    · exact hold hyoung
  refine ⟨log, hlog, by decide, hgap, ?_⟩
  have hcollect : log.collect (200 * 10 ^ 9 + 5 * 10 ^ 9) [(.alerts, 1)] = .ok ⟨[], [.alerts]⟩ := by
    rw [collect, hanswer]
    rfl
  rw [resume, if_neg (by simp [hepoch]), hcollect]
  simp

/-! ### Nothing missed -/

/-- A channel a resume leaves as it is: neither lost nor replayed. -/
def Untouched (r : Resumed β) (channel : Channel) : Prop :=
  channel ∉ r.lost ∧ ∀ events, (channel, events) ∉ r.replay

/-- The answer to an acknowledgement of everything sent: there is one if anything was sent. -/
theorem Holds.answer_of_nextSeq (h : log.Holds history) {ack : Channel × UInt64}
    (hres : ack.1.resumable = true) (hack : ¬ Overflows history ack)
    (hnext : ack.2.toNat + 1 = log.nextSeq ack.1) (now : ℕ) :
    log.answer now ack = .ok (if sentOn history ack.1 = [] then none else some []) := by
  split_ifs with hsent
  · exact h.answer_of_sentOn_nil hsent now
  · have hlength : ack.2.toNat = (sentOn history ack.1).length := by
      rw [h.nextSeq_eq] at hnext
      exact Nat.succ_inj.mp hnext
    have hfits : ack.2.toNat + 1 < 2 ^ 64 := by
      by_contra hfull
      exact hack ⟨hres, hsent, hfull⟩
    rw [h.answer_of_sent hres hsent hfits]
    -- up to date, whatever the age of the ring
    rcases (h.ring_holds ack.1).reach_cases ack.2.toNat now with ⟨-, hne⟩ | ⟨-, hsome⟩
    · exact absurd hlength hne
    · rw [hsome, hlength, List.drop_length, List.map_nil]

/-- **Nothing missed**: a resumable channel acknowledged up to its next number is left as it is
exactly if something was sent on it; unless some acknowledgement has no number after it. The
channel that has sent nothing has the next number 1, and no ring to be answered from. -/
theorem untouched_iff {epoch : UInt64}
    (hlog : (new epoch : ResumeLog β).recordAll history = .ok log)
    {acks : List (Channel × UInt64)} {ack : Channel × UInt64} (hmem : ack ∈ acks)
    (honce : ∀ other ∈ acks, other.1 = ack.1 → other = ack) (hres : ack.1.resumable = true)
    (hnext : ack.2.toNat + 1 = log.nextSeq ack.1) (now : ℕ) :
    (∃ r, log.resume epoch acks now = .ok (.ok r) ∧ Untouched r ack.1) ↔
      (∀ other ∈ acks, ¬ Overflows history other) ∧ sentOn history ack.1 ≠ [] := by
  refine resume_iff_of_recordAll hlog fun hholds hacks => ?_
  obtain ⟨r, hresume, hlost, hreplay⟩ := hholds.resume_once hmem honce hacks now
  rw [hholds.answer_of_nextSeq hres (hacks ack hmem) hnext] at hlost hreplay
  constructor
  · rintro ⟨r', hresume', huntouched, -⟩ hnil
    obtain rfl : r = r' := Except.ok.inj (Except.ok.inj (hresume.symm.trans hresume'))
    exact huntouched (hlost.mpr (by rw [if_pos hnil]))
  · intro hsent
    rw [if_neg hsent] at hlost hreplay
    refine ⟨r, hresume, fun hmem => ?_, fun events hmem => ?_⟩
    · cases hlost.mp hmem
    · obtain ⟨hevents, hne⟩ := (hreplay events).mp hmem
      exact hne (Option.some.inj (Except.ok.inj hevents)).symm

/-- A terminal up to date with two alerts, ten minutes after the second. -/
theorem untouched_iff_alerts :
    ∃ log r, (new 7 : ResumeLog ℕ).recordAll (alertsApart (10 ^ 9)) = .ok log ∧
      log.resume 7 [(.alerts, 2)] (601 * 10 ^ 9) = .ok (.ok r) ∧ Untouched r .alerts := by
  obtain ⟨log, hlog, -, hholds, -⟩ := recentGap_alertsApart (10 ^ 9)
  have hacks : ∀ other ∈ [((.alerts, 2) : Channel × UInt64)],
      ¬ Overflows (alertsApart (10 ^ 9)) other := by
    simp [Overflows]
  have hnext : ((.alerts, 2) : Channel × UInt64).2.toNat + 1 = log.nextSeq .alerts := by
    rw [hholds.nextSeq_eq]
    rfl
  obtain ⟨r, hresume, hr⟩ :=
    (untouched_iff hlog List.mem_cons_self (by simp) rfl hnext (601 * 10 ^ 9)).mpr
      ⟨hacks, by decide⟩
  exact ⟨log, r, hlog, hresume, hr⟩

/-- A channel on which nothing was ever sent, acknowledged up to its next number, is lost. -/
theorem idle_channel_lost :
    ∃ log, (new 7 : ResumeLog ℕ).recordAll [] = .ok log ∧ Channel.alerts.resumable = true ∧
      (0 : UInt64).toNat + 1 = log.nextSeq .alerts ∧
      log.resume 7 [(.alerts, 0)] 0 = .ok (.ok ⟨[], [.alerts]⟩) := by
  refine ⟨new 7, rfl, rfl, rfl, ?_⟩
  have hcollect : (new 7 : ResumeLog ℕ).collect 0 [(.alerts, 0)] = .ok ⟨[], [.alerts]⟩ := rfl
  rw [resume, if_neg (by simp [new]), hcollect]
  simp

end ResumeLog

end MoonCore
