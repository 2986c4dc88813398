import Mathlib.Algebra.Group.Nat.Defs
import MoonCore.Wire.Heartbeat

/-!
# Dead peers, and live ones taken for dead

A miss is counted when a ping is superseded, so a peer that dies with no ping in flight is given one
interval more: it is noticed within `detectionBound` exactly if a ping was waiting for its answer
(`Heartbeat.detected_iff`). The other way round, a peer is never taken for dead exactly if, of any
`missesAllowed + 1` pings in a row, one was answered before the next (`Heartbeat.never_dead_iff`);
other traffic does not count for that.
-/

namespace MoonCore

namespace Heartbeat

variable {h : Heartbeat} {now t end_ : ℕ} {pre post calls : List (ℕ × HeartbeatCall)}

/-! ### A prompt caller -/

/-- Calls from an instant to another whose caller sends a ping as soon as one is due: none is sent
before, and no instant at which one is due is passed over. -/
def Prompt (end_ : ℕ) : Heartbeat → ℕ → List (ℕ × HeartbeatCall) → Prop
  | h, now, [] => ∀ s, now ≤ s → s ≤ end_ → h.due s = false
  | h, now, (s, call) :: rest =>
    now ≤ s ∧ s ≤ end_ ∧ (∀ u, now ≤ u → u < s → h.due u = false) ∧
      (call = .onSend → h.due s = true) ∧ Prompt end_ (machine.next h (s, call)) s rest

/-- The last activity is not later than the call. -/
theorem lastActivity_next (hact : ∀ last ∈ h.lastActivity, last ≤ now) {s : ℕ} (hs : now ≤ s)
    (call : HeartbeatCall) : ∀ last ∈ (machine.next h (s, call)).lastActivity, last ≤ s := by
  cases call with
  | onSend => exact fun last hlast => (Option.some.inj hlast).ge
  | sawTraffic => exact fun last hlast => (Option.some.inj hlast).ge
  | onPong nonce =>
    rw [next_onPong]
    rcases h.onPong_cases s nonce with ⟨sentAt, -, heq⟩ | ⟨-, heq⟩
    · rw [heq]
      exact fun last hlast => (hact last hlast).trans hs
    · rw [heq]
      exact fun last hlast => (hact last hlast).trans hs

/-- The rest of a prompt caller's calls, after those up to an instant. -/
theorem Prompt.drop (hprompt : Prompt end_ h now (pre ++ post)) (hnow : now ≤ t)
    (hact : ∀ last ∈ h.lastActivity, last ≤ now) (hpre : ∀ c ∈ pre, c.1 ≤ t) :
    ∃ later ≤ t, Prompt end_ (machine.run h pre) later post ∧
      ∀ last ∈ (machine.run h pre).lastActivity, last ≤ later := by
  induction pre generalizing h now with
  | nil => exact ⟨now, hnow, hprompt, hact⟩
  | cons c pre ih =>
    obtain ⟨s, call⟩ := c
    obtain ⟨hs, -, -, -, hrest⟩ := hprompt
    exact ih hrest (hpre (s, call) List.mem_cons_self) (lastActivity_next hact hs call)
      fun c hc => hpre c (List.mem_cons_of_mem _ hc)

theorem due_eq (hlast : h.lastActivity = some t) (s : ℕ) :
    h.due s = decide (t + h.interval ≤ s) := by
  rw [due, nextDue, hlast, Option.map_some, Option.all_some]

/-- Before calls that are all later, no ping is due. -/
theorem Prompt.not_due (hprompt : Prompt end_ h now post) (hnow : now ≤ t) (hend : t ≤ end_)
    (hpost : ∀ c ∈ post, t < c.1) : h.due t = false := by
  cases post with
  | nil => exact hprompt t hnow hend
  | cons c post => exact hprompt.2.2.1 t hnow (hpost c List.mem_cons_self)

/-- When only pings are sent, the next one goes out an interval after the last activity. -/
theorem Prompt.silent_cases (hprompt : Prompt end_ h now post) (hlast : h.lastActivity = some t)
    (hnow : now ≤ t + h.interval) (hsilent : ∀ c ∈ post, c.2 = .onSend) :
    (post = [] ∧ end_ < t + h.interval) ∨
      ∃ rest, post = (t + h.interval, .onSend) :: rest ∧
        Prompt end_ (h.onSend (t + h.interval)).1 (t + h.interval) rest := by
  cases post with
  | nil =>
    refine .inl ⟨rfl, not_le.mp fun hle => ?_⟩
    have hdue := hprompt _ hnow hle
    rw [due_eq hlast, decide_eq_false_iff_not] at hdue
    exact hdue le_rfl
  | cons c rest =>
    obtain ⟨s, call⟩ := c
    obtain rfl : call = .onSend := hsilent _ List.mem_cons_self
    obtain ⟨-, -, hearly, hdue, hrest⟩ := hprompt
    have hle := hdue rfl
    rw [due_eq hlast, decide_eq_true_eq] at hle
    obtain rfl : s = t + h.interval := by
      by_contra hne
      have hnot := hearly _ hnow (lt_of_le_of_ne hle (Ne.symm hne))
      rw [due_eq hlast, decide_eq_false_iff_not] at hnot
      exact hnot le_rfl
    exact .inr ⟨rest, rfl, hrest⟩

/-- Pings sent one interval after the other, the first one interval after the last activity. -/
def pings (interval last : ℕ) : ℕ → List (ℕ × HeartbeatCall)
  | 0 => []
  | k + 1 => (last + interval, .onSend) :: pings interval (last + interval) k

private theorem add_interval (t interval j : ℕ) :
    t + interval + j * interval = t + (j + 1) * interval := by
  rw [Nat.succ_mul, Nat.add_comm (j * _), Nat.add_assoc]

/-- When only pings are sent, they go out one interval after the other up to the end. -/
theorem Prompt.eq_pings (hprompt : Prompt end_ h now post) (hlast : h.lastActivity = some t)
    (hnow : now ≤ t + h.interval) (hsilent : ∀ c ∈ post, c.2 = .onSend) :
    ∃ k, post = pings h.interval t k ∧ end_ < t + (k + 1) * h.interval ∧
      (k ≠ 0 → t + k * h.interval ≤ end_) := by
  induction post generalizing h now t with
  | nil =>
    rcases hprompt.silent_cases hlast hnow hsilent with ⟨-, hend⟩ | ⟨rest, hcons, -⟩
    · exact ⟨0, rfl, by rwa [Nat.zero_add, Nat.one_mul], fun hk => absurd rfl hk⟩
    · cases hcons
  | cons c post ih =>
    rcases hprompt.silent_cases hlast hnow hsilent with ⟨hnil, -⟩ | ⟨rest, hcons, hrest⟩
    · cases hnil
    obtain ⟨rfl, rfl⟩ := List.cons.inj hcons
    obtain ⟨k, hpost, hend, hreach⟩ := ih hrest rfl (Nat.le_add_right _ _)
      fun c hc => hsilent c (List.mem_cons_of_mem _ hc)
    have hsame : (h.onSend (t + h.interval)).1.interval = h.interval := rfl
    rw [hsame] at hpost hend hreach
    refine ⟨k + 1, by rw [hpost, pings], by rwa [← add_interval], fun _ => ?_⟩
    rcases Nat.eq_zero_or_pos k with rfl | hpos
    · rw [Nat.zero_add, Nat.one_mul]
      exact hprompt.2.1
    · rw [← add_interval]
      exact hreach hpos.ne'

/-- Pings one interval after the other are those of a prompt caller. -/
theorem prompt_pings {k : ℕ} (hlast : h.lastActivity = some t) (hle : t ≤ now)
    (hnow : now ≤ t + h.interval) (hend : end_ < t + (k + 1) * h.interval)
    (hreach : k ≠ 0 → t + k * h.interval ≤ end_) : Prompt end_ h now (pings h.interval t k) := by
  induction k generalizing h now t with
  | zero =>
    intro s _ hs
    rw [Nat.zero_add, Nat.one_mul] at hend
    rw [due_eq hlast, decide_eq_false_iff_not]
    omega
  | succ k ih =>
    have hreach := hreach (Nat.succ_ne_zero k)
    rw [← add_interval] at hend hreach
    refine ⟨hnow, by omega, fun u _ hu => ?_, fun _ => ?_,
      ih rfl le_rfl (Nat.le_add_right _ _) hend fun _ => hreach⟩
    · rw [due_eq hlast, decide_eq_false_iff_not]
      omega
    · rw [due_eq hlast, decide_eq_true le_rfl]

theorem exists_pings_of_prefix {interval last k : ℕ} {seen : List (ℕ × HeartbeatCall)}
    (hseen : seen <+: pings interval last k) : ∃ j ≤ k, seen = pings interval last j := by
  induction k generalizing last seen with
  | zero => exact ⟨0, le_rfl, List.prefix_nil.mp hseen⟩
  | succ k ih =>
    rcases List.prefix_cons_iff.mp hseen with rfl | ⟨rest, rfl, hrest⟩
    · exact ⟨0, Nat.zero_le _, rfl⟩
    · obtain ⟨j, hj, rfl⟩ := ih hrest
      exact ⟨j + 1, Nat.succ_le_succ hj, rfl⟩

/-- Each ping after one in flight is a miss. -/
theorem misses_pings (hflight : h.inFlight.isSome = true) (interval last k : ℕ) :
    (machine.run h (pings interval last k)).consecutiveMisses =
      h.consecutiveMisses + UInt32.ofNat k := by
  induction k generalizing h last with
  | zero => exact (UInt32.add_zero _).symm
  | succ k ih =>
    have hnext : (h.onSend (last + interval)).1.consecutiveMisses = h.consecutiveMisses + 1 :=
      if_pos hflight
    rw [pings, Machine.run_cons, ih rfl, next_onSend, hnext, UInt32.add_assoc, UInt32.add_comm 1,
      ← UInt32.ofNat_one, ← UInt32.ofNat_add]

/-- The first ping of a peer that owes no answer is not a miss. -/
theorem misses_pings_of_none (hflight : h.inFlight = none) (interval last k : ℕ) :
    (machine.run h (pings interval last k)).consecutiveMisses =
      h.consecutiveMisses + UInt32.ofNat (k - 1) := by
  cases k with
  | zero => exact (UInt32.add_zero _).symm
  | succ k =>
    have hnext : (h.onSend (last + interval)).1.consecutiveMisses = h.consecutiveMisses := by
      rw [onSend, hflight]
      rfl
    rw [pings, Machine.run_cons, misses_pings rfl, next_onSend, hnext, Nat.add_sub_cancel]

/-- With the default settings there are three pings, one interval after the other, in the time that
`detectionBound` is. -/
theorem Prompt.three_pings {later : ℕ} (hprompt : Prompt (t + detectionBound) h later post)
    (hlater : later ≤ t) (hact : ∀ last ∈ h.lastActivity, last ≤ later)
    (hinterval : h.interval = pingInterval) (hsilent : ∀ c ∈ post, t < c.1 ∧ c.2 = .onSend) :
    ∃ last, post = pings pingInterval last 3 := by
  have hsoon := hprompt.not_due hlater (Nat.le_add_right _ _) fun c hc => (hsilent c hc).1
  cases hlast : h.lastActivity with
  | none =>
    rw [due, nextDue, hlast] at hsoon
    cases hsoon
  | some last =>
    have hle := hact last hlast
    rw [due_eq hlast, decide_eq_false_iff_not] at hsoon
    obtain ⟨k, hpost, hend, hreach⟩ := hprompt.eq_pings hlast (by omega)
      fun c hc => (hsilent c hc).2
    rw [hinterval] at hpost hend hreach hsoon
    have hk : k = 3 := by
      have hping : pingInterval = 2000000000 := rfl
      have hbound : detectionBound = 6000000000 := by decide
      rw [hping] at hend hreach hsoon
      rw [hbound] at hend hreach
      omega
    exact ⟨last, hk ▸ hpost⟩

/-- **Detection.** A prompt caller with the default settings, whose peer is silent from some instant
on, finds it dead within `detectionBound` of that instant exactly if a ping was in flight then. -/
theorem detected_iff {start : ℕ} (hstart : start ≤ t)
    (hprompt : Prompt (t + detectionBound) default start (pre ++ post))
    (hpre : ∀ c ∈ pre, c.1 ≤ t) (hsilent : ∀ c ∈ post, t < c.1 ∧ c.2 = .onSend) :
    (∃ seen, seen <+: post ∧ (machine.run default (pre ++ seen)).isDead = true) ↔
      (machine.run default pre).inFlight.isSome = true := by
  obtain ⟨later, hlater, hrest, hact⟩ := hprompt.drop hstart (by simp [default, new]) hpre
  obtain ⟨hinterval, hallowed⟩ := default.settings_run pre
  have hidle := consecutiveMisses_eq_zero pingInterval missesBeforeDrop pre
  rw [← default] at hidle
  simp only [Machine.run_append]
  generalize machine.run default pre = h at hrest hact hinterval hallowed hidle ⊢
  obtain ⟨last, rfl⟩ := hrest.three_pings hlater hact hinterval hsilent
  have hdead : ∀ seen, (machine.run h seen).isDead =
      decide (missesBeforeDrop ≤ (machine.run h seen).consecutiveMisses) := by
    intro seen
    rw [isDead, (h.settings_run seen).2, hallowed]
    rfl
  constructor
  · rintro ⟨seen, hseen, hisdead⟩
    by_contra hnone
    rw [Option.not_isSome_iff_eq_none] at hnone
    obtain ⟨j, hj, rfl⟩ := exists_pings_of_prefix hseen
    -- the first of at most three pings superseded nothing
    rw [hdead, misses_pings_of_none hnone, hidle hnone, decide_eq_true_eq] at hisdead
    have hfew : ∀ j ≤ 3, ¬ missesBeforeDrop ≤ 0 + UInt32.ofNat (j - 1) := by decide
    exact hfew j hj hisdead
  · intro hflight
    by_cases hnow : missesBeforeDrop ≤ h.consecutiveMisses
    · refine ⟨[], List.nil_prefix, ?_⟩
      rw [hdead, Machine.run_nil, decide_eq_true hnow]
    · refine ⟨_, List.prefix_rfl, ?_⟩
      rw [hdead, misses_pings hflight, decide_eq_true_eq, UInt32.le_iff_toNat_le,
        UInt32.toNat_add]
      rw [UInt32.not_le, UInt32.lt_iff_toNat_lt] at hnow
      have hthree : missesBeforeDrop.toNat = 3 := rfl
      have hmore : (UInt32.ofNat 3).toNat = 3 := rfl
      omega

/-- A peer that dies as the first ping goes out is found dead with the fourth. -/
theorem detected_iff_first_ping :
    ∃ seen, seen <+: pings pingInterval 0 3 ∧
      (machine.run default ([(0, .onSend)] ++ seen)).isDead = true := by
  have hprompt : Prompt (0 + detectionBound) default 0
      ([(0, .onSend)] ++ pings pingInterval 0 3) := by
    refine ⟨le_rfl, Nat.zero_le _, fun u _ hu => absurd hu (Nat.not_lt_zero u), fun _ => rfl, ?_⟩
    exact prompt_pings rfl le_rfl (Nat.zero_le _) (by decide) (by decide)
  refine (detected_iff le_rfl hprompt (by decide) ?_).mpr rfl
  decide

/-- The first ping is answered after a millisecond, and nothing arrives after that. The next pings
go out as they are due, and at the bound, after six seconds and a millisecond, the peer is not
found dead. -/
theorem not_detected_answered :
    Prompt (1000000 + detectionBound) default 0
      ([(0, .onSend), (1000000, .onPong 1)] ++ pings pingInterval 0 3) ∧
    (∀ c ∈ pings pingInterval 0 3, 1000000 < c.1 ∧ c.2 = .onSend) ∧
    ∀ seen, seen <+: pings pingInterval 0 3 →
      (machine.run default ([(0, .onSend), (1000000, .onPong 1)] ++ seen)).isDead = false := by
  refine ⟨⟨le_rfl, Nat.zero_le _, fun u _ hu => absurd hu (Nat.not_lt_zero u), fun _ => rfl,
    Nat.zero_le _, by decide, fun u _ hu => ?_, by simp, ?_⟩, by decide, ?_⟩
  · rw [next_onSend, due_eq rfl, decide_eq_false_iff_not]
    have hping : 1000000 < 0 + ((default.onSend 0).1).interval := by decide
    omega
  · exact prompt_pings rfl (by decide) (by decide) (by decide) (by decide)
  · intro seen hseen
    obtain ⟨j, hj, rfl⟩ := exists_pings_of_prefix hseen
    have hfew : ∀ j ≤ 3, (machine.run default
        ([(0, .onSend), (1000000, .onPong 1)] ++ pings pingInterval 0 j)).isDead = false := by
      decide
    exact hfew j hj

/-! ### Live peers -/

/-- The number of pings sent. -/
def sent (calls : List (ℕ × HeartbeatCall)) : ℕ := calls.countP fun c => c.2 = .onSend

/-- The ping of this number was answered with its nonce before the next one was sent. -/
def Answered (calls : List (ℕ × HeartbeatCall)) (number : ℕ) : Prop :=
  ∃ pre t post, calls = pre ++ (t, .onPong (UInt64.ofNat number)) :: post ∧ sent pre = number

/-- Of as many pings in a row as misses are allowed, if another one follows, one was answered before
the next. -/
def KeepsUp (missesAllowed : UInt32) (calls : List (ℕ × HeartbeatCall)) : Prop :=
  ∀ first, 0 < first → first + missesAllowed.toNat ≤ sent calls →
    ∃ number, first ≤ number ∧ number < first + missesAllowed.toNat ∧ Answered calls number

theorem sent_concat (calls : List (ℕ × HeartbeatCall)) (c : ℕ × HeartbeatCall) :
    sent (calls ++ [c]) = sent calls + if c.2 = .onSend then 1 else 0 := by
  rw [sent, sent, List.countP_append, List.countP_singleton]
  simp only [decide_eq_true_eq]

theorem sent_le_of_prefix (h : pre <+: calls) : sent pre ≤ sent calls := h.sublist.countP_le

theorem Answered.le_sent {number : ℕ} (h : Answered calls number) : number ≤ sent calls := by
  obtain ⟨pre, t, post, rfl, rfl⟩ := h
  exact sent_le_of_prefix (List.prefix_append pre _)

theorem Answered.extend {number : ℕ} (h : Answered pre number) (hpre : pre <+: calls) :
    Answered calls number := by
  obtain ⟨early, t, late, rfl, hnumber⟩ := h
  obtain ⟨post, rfl⟩ := hpre
  exact ⟨early, t, late ++ post, by rw [List.append_assoc, List.cons_append], hnumber⟩

/-- One more call answers a ping only if it is a pong with the nonce of the latest. -/
theorem answered_concat {c : ℕ × HeartbeatCall} {number : ℕ} :
    Answered (calls ++ [c]) number ↔
      Answered calls number ∨ c.2 = .onPong (UInt64.ofNat number) ∧ sent calls = number := by
  constructor
  · rintro ⟨early, t, late, hsplit, hnumber⟩
    rcases late.eq_nil_or_concat with rfl | ⟨late, last, rfl⟩
    · obtain ⟨rfl, hc⟩ := List.append_inj' hsplit rfl
      exact .inr ⟨by rw [List.singleton_inj.mp hc], hnumber⟩
    · rw [List.concat_eq_append, ← List.cons_append, ← List.append_assoc] at hsplit
      obtain ⟨rfl, -⟩ := List.append_inj' hsplit rfl
      exact .inl ⟨early, t, late, rfl, hnumber⟩
  · rintro (hbefore | ⟨hpong, hnumber⟩)
    · exact hbefore.extend (List.prefix_append _ _)
    · exact ⟨calls, c.1, [], by rw [← hpong], hnumber⟩

/-- What the calls so far leave: the misses are the latest pings, before the one in flight, that
were not answered in time. -/
structure Tracks (h : Heartbeat) (calls : List (ℕ × HeartbeatCall)) : Prop where
  nextNonce : h.nextNonce = UInt64.ofNat (sent calls + 1)
  idle : h.inFlight = none →
    h.consecutiveMisses = 0 ∧ (0 < sent calls → Answered calls (sent calls))
  busy : ∀ nonce at_, h.inFlight = some (nonce, at_) → nonce = UInt64.ofNat (sent calls) ∧
    h.consecutiveMisses.toNat < sent calls ∧
    (∀ number, sent calls ≤ number + h.consecutiveMisses.toNat → number ≤ sent calls →
      ¬ Answered calls number) ∧
    (h.consecutiveMisses.toNat + 1 < sent calls →
      Answered calls (sent calls - h.consecutiveMisses.toNat - 1))

theorem tracks_new (interval : ℕ) (missesAllowed : UInt32) :
    Tracks (new interval missesAllowed) [] where
  nextNonce := rfl
  idle _ := ⟨rfl, fun hpos => absurd hpos (Nat.lt_irrefl 0)⟩
  busy _ _ hflight := absurd hflight (by simp [new])

/-- Traffic, and a pong that answers nothing. -/
theorem Tracks.concat_same (htracks : Tracks h calls) {c : ℕ × HeartbeatCall} {h' : Heartbeat}
    (hsend : c.2 ≠ .onSend)
    (hpong : ∀ nonce at_, h.inFlight = some (nonce, at_) → c.2 ≠ .onPong nonce)
    (hnonce : h'.nextNonce = h.nextNonce) (hflight : h'.inFlight = h.inFlight)
    (hmisses : h'.consecutiveMisses = h.consecutiveMisses) : Tracks h' (calls ++ [c]) := by
  have hsent : sent (calls ++ [c]) = sent calls := by rw [sent_concat, if_neg hsend, Nat.add_zero]
  have hpre : calls <+: calls ++ [c] := List.prefix_append _ _
  refine ⟨by rw [hnonce, hsent, htracks.nextNonce], ?_, ?_⟩
  · rw [hflight, hmisses, hsent]
    intro hnone
    obtain ⟨hzero, hlast⟩ := htracks.idle hnone
    exact ⟨hzero, fun hpos => (hlast hpos).extend hpre⟩
  · rw [hflight, hmisses, hsent]
    intro nonce at_ hsome
    obtain ⟨rfl, hlt, hmissed, hlast⟩ := htracks.busy nonce at_ hsome
    refine ⟨rfl, hlt, fun number hfrom hto hans => ?_, fun hmore => (hlast hmore).extend hpre⟩
    rcases answered_concat.mp hans with hbefore | ⟨hc, rfl⟩
    · exact hmissed number hfrom hto hbefore
    · exact hpong _ _ hsome hc

/-- One more ping: the one in flight before it, if there is one, is missed. -/
theorem Tracks.onSend (htracks : Tracks h calls)
    (hroom : h.consecutiveMisses.toNat + 1 < 2 ^ 32) (now : ℕ) :
    Tracks (h.onSend now).1 (calls ++ [(now, .onSend)]) := by
  have hsent : sent (calls ++ [(now, .onSend)]) = sent calls + 1 := by
    rw [sent_concat, if_pos rfl]
  have hanswered : ∀ number, Answered (calls ++ [(now, .onSend)]) number ↔
      Answered calls number := by
    intro number
    rw [answered_concat]
    simp
  have hnew : ¬ Answered calls (sent calls + 1) := fun hans => by
    have hle := hans.le_sent
    omega
  refine ⟨?_, fun hnone => absurd hnone (Option.some_ne_none _), fun nonce at_ hsome => ?_⟩
  · change h.nextNonce + 1 = _
    rw [hsent, htracks.nextNonce, ← UInt64.ofNat_one, ← UInt64.ofNat_add]
  · obtain ⟨rfl, -⟩ := Prod.mk.inj (Option.some.inj hsome)
    simp only [hanswered, hsent]
    refine ⟨htracks.nextNonce, ?_⟩
    cases hflight : h.inFlight with
    | none =>
      -- nothing is superseded
      obtain ⟨hzero, hlast⟩ := htracks.idle hflight
      have hmisses : (h.onSend now).1.consecutiveMisses = 0 := by
        simp only [Heartbeat.onSend, hflight, hzero]
        rfl
      rw [hmisses]
      refine ⟨Nat.succ_pos _, fun number hfrom hto => ?_, fun hmore => ?_⟩
      · obtain rfl : number = sent calls + 1 := Nat.le_antisymm hto hfrom
        exact hnew
      · exact hlast (Nat.lt_of_succ_lt_succ hmore)
    | some ping =>
      -- the ping in flight joins the missed ones
      obtain ⟨-, hlt, hmissed, hlast⟩ := htracks.busy ping.1 ping.2 hflight
      have hmisses : (h.onSend now).1.consecutiveMisses.toNat =
          h.consecutiveMisses.toNat + 1 := by
        simp only [Heartbeat.onSend, hflight, Option.isSome_some, if_true, UInt32.toNat_add]
        exact Nat.mod_eq_of_lt hroom
      rw [hmisses]
      refine ⟨Nat.succ_lt_succ hlt, fun number hfrom hto => ?_, fun hmore => ?_⟩
      · rcases Nat.lt_or_eq_of_le hto with hbefore | rfl
        · exact hmissed number (by omega) (by omega)
        · exact hnew
      · have hless : sent calls + 1 - (h.consecutiveMisses.toNat + 1) - 1 =
            sent calls - h.consecutiveMisses.toNat - 1 := by omega
        rw [hless]
        exact hlast (Nat.lt_of_succ_lt_succ hmore)

/-- **One call** keeps the track, as long as the counter of misses does not wrap. -/
theorem Tracks.next (htracks : Tracks h calls) (hroom : h.consecutiveMisses.toNat + 1 < 2 ^ 32)
    (c : ℕ × HeartbeatCall) : Tracks (machine.next h c) (calls ++ [c]) := by
  obtain ⟨now, op⟩ := c
  cases op with
  | onSend => exact htracks.onSend hroom now
  | sawTraffic => exact htracks.concat_same (by simp) (by simp) rfl rfl rfl
  | onPong nonce =>
    rw [next_onPong]
    rcases h.onPong_cases now nonce with ⟨sentAt, hflight, heq⟩ | ⟨hother, heq⟩
    · -- the ping in flight is answered
      have hsent : sent (calls ++ [(now, .onPong nonce)]) = sent calls := by
        rw [sent_concat, if_neg (by simp), Nat.add_zero]
      obtain ⟨rfl, -⟩ := htracks.busy nonce sentAt hflight
      rw [heq]
      refine ⟨by rw [hsent]; exact htracks.nextNonce, fun _ => ⟨rfl, fun _ => ?_⟩, by simp⟩
      rw [hsent]
      exact answered_concat.mpr (.inr ⟨rfl, rfl⟩)
    · rw [heq]
      refine htracks.concat_same (by simp) (fun nonce' at_ hsome hc => ?_) rfl rfl rfl
      obtain rfl : nonce = nonce' := by simpa using hc
      exact hother at_ hsome

/-- A ping that was answered before later ones were sent was answered in any part of the run they
were sent in. -/
theorem Answered.of_lt_sent {number : ℕ} (hans : Answered calls number) (hpre : pre <+: calls)
    (hlt : number < sent pre) : Answered pre number := by
  obtain ⟨early, t, late, rfl, hnumber⟩ := hans
  have hearly : early ++ [(t, .onPong (UInt64.ofNat number))] <+:
      early ++ (t, .onPong (UInt64.ofNat number)) :: late := ⟨late, by simp⟩
  rcases List.prefix_or_prefix_of_prefix hpre hearly with hshort | ⟨rest, rfl⟩
  · have hle := sent_le_of_prefix hshort
    rw [sent_concat, if_neg (by simp)] at hle
    omega
  · exact ⟨early, t, rest, by simp, hnumber⟩

/-- Every ping sent was sent by some call. -/
theorem exists_onSend {number : ℕ} (hlt : number < sent calls) :
    ∃ pre now, pre ++ [(now, .onSend)] <+: calls ∧ sent pre = number := by
  induction calls using List.reverseRecOn with
  | nil => exact absurd hlt (Nat.not_lt_zero _)
  | append_singleton calls c ih =>
    by_cases hbefore : number < sent calls
    · obtain ⟨pre, now, hpre, hnumber⟩ := ih hbefore
      exact ⟨pre, now, hpre.trans (List.prefix_append _ _), hnumber⟩
    · rw [sent_concat] at hlt
      split_ifs at hlt with hsend
      · exact ⟨calls, c.1, by rw [← hsend], by omega⟩
      · exact absurd hlt hbefore

theorem isDead_run (interval : ℕ) (missesAllowed : UInt32) :
    (machine.run (new interval missesAllowed) calls).isDead = false ↔
      (machine.run (new interval missesAllowed) calls).consecutiveMisses.toNat <
        missesAllowed.toNat := by
  rw [isDead, decide_eq_false_iff_not, UInt32.not_le, UInt32.lt_iff_toNat_lt,
    (settings_run _ calls).2]
  rfl

/-- The track is kept as long as the peer is not taken for dead. -/
theorem tracks_run {interval : ℕ} {missesAllowed : UInt32}
    (halive : ∀ seen, seen <+: calls → seen ≠ calls →
      (machine.run (new interval missesAllowed) seen).isDead = false) :
    Tracks (machine.run (new interval missesAllowed) calls) calls := by
  induction calls using List.reverseRecOn with
  | nil => exact tracks_new interval missesAllowed
  | append_singleton calls c ih =>
    have hbefore := ih fun seen hseen _ => halive seen (hseen.trans (List.prefix_append _ _))
      fun heq => by
        have hlength := hseen.length_le
        rw [heq, List.length_append, List.length_singleton] at hlength
        omega
    have hnow := halive calls (List.prefix_append _ _) (by simp)
    rw [isDead_run] at hnow
    have hmax := missesAllowed.toNat_lt
    rw [Machine.run_concat]
    exact hbefore.next (by omega) c

/-- As long as the pings keep up, the misses are fewer than are allowed. -/
theorem KeepsUp.misses_lt {interval : ℕ} {missesAllowed : UInt32}
    (hkeeps : KeepsUp missesAllowed calls) (hallowed : 0 < missesAllowed.toNat)
    (hpre : pre <+: calls) :
    Tracks (machine.run (new interval missesAllowed) pre) pre ∧
      (machine.run (new interval missesAllowed) pre).consecutiveMisses.toNat <
        missesAllowed.toNat := by
  induction pre using List.reverseRecOn with
  | nil => exact ⟨tracks_new interval missesAllowed, hallowed⟩
  | append_singleton pre c ih =>
    obtain ⟨htracks, halive⟩ := ih ((List.prefix_append _ _).trans hpre)
    have hmax := missesAllowed.toNat_lt
    have hnext := htracks.next (by omega) c
    rw [← Machine.run_concat] at hnext
    refine ⟨hnext, ?_⟩
    generalize machine.run (new interval missesAllowed) (pre ++ [c]) = h at hnext
    cases hflight : h.inFlight with
    | none =>
      rw [(hnext.idle hflight).1]
      exact hallowed
    | some ping =>
      -- the pings before the one in flight that were missed are too few to be a row
      obtain ⟨-, hlt, hmissed, -⟩ := hnext.busy ping.1 ping.2 hflight
      by_contra hdead
      have hsent := sent_le_of_prefix hpre
      obtain ⟨number, hfrom, hto, hans⟩ :=
        hkeeps (sent (pre ++ [c]) - missesAllowed.toNat) (by omega) (by omega)
      exact hmissed number (by omega) (by omega) (hans.of_lt_sent hpre (by omega))

/-- **No false alarm.** In any run, whatever other traffic there is in it, the peer is never taken
for dead exactly if some misses are allowed, and of as many pings in a row as that, if another one
follows, one was answered before the next. -/
theorem never_dead_iff (interval : ℕ) (missesAllowed : UInt32)
    (calls : List (ℕ × HeartbeatCall)) :
    (∀ seen, seen <+: calls → (machine.run (new interval missesAllowed) seen).isDead = false) ↔
      0 < missesAllowed ∧ KeepsUp missesAllowed calls := by
  constructor
  · intro halive
    refine ⟨?_, fun first hfirst hle => ?_⟩
    · have hstart := halive [] List.nil_prefix
      rw [isDead_run] at hstart
      exact UInt32.lt_iff_toNat_lt.mpr hstart
    · -- the state after the ping that follows the row
      obtain ⟨pre, now, hpre, hnumber⟩ : ∃ pre now, pre ++ [(now, .onSend)] <+: calls ∧
          sent pre = first + missesAllowed.toNat - 1 := exists_onSend (by omega)
      have htracks := tracks_run fun seen hseen _ => halive seen (hseen.trans hpre)
      have hdead := halive _ hpre
      rw [isDead_run] at hdead
      have hsent : sent (pre ++ [(now, .onSend)]) = first + missesAllowed.toNat := by
        rw [sent_concat, hnumber, if_pos rfl]
        omega
      obtain ⟨-, -, -, hlast⟩ := htracks.busy _ now (by rw [Machine.run_concat]; rfl)
      rw [hsent] at hlast
      exact ⟨_, by omega, by omega, (hlast (by omega)).extend hpre⟩
  · rintro ⟨hallowed, hkeeps⟩ seen hseen
    rw [UInt32.lt_iff_toNat_lt] at hallowed
    exact (isDead_run interval missesAllowed).mpr (hkeeps.misses_lt hallowed hseen).2

/-- Between any two pings there is traffic; `seen` says whether there was some since the last. -/
def trafficBetween : (seen : Bool) → List (ℕ × HeartbeatCall) → Bool
  | _, [] => true
  | seen, (_, .onSend) :: rest => seen && trafficBetween false rest
  | seen, (_, .onPong _) :: rest => trafficBetween seen rest
  | _, (_, .sawTraffic) :: rest => trafficBetween true rest

/-- A link with traffic a second after every ping, all of whose pongs are lost, is taken for dead at
the fourth ping. -/
theorem busy_link_dead :
    let calls : List (ℕ × HeartbeatCall) :=
      [(0, .onSend), (1000000000, .sawTraffic), (3000000000, .onSend), (4000000000, .sawTraffic),
        (6000000000, .onSend), (7000000000, .sawTraffic), (9000000000, .onSend)]
    trafficBetween true calls = true ∧ (machine.run default calls).isDead = true := by
  decide

end Heartbeat

end MoonCore
