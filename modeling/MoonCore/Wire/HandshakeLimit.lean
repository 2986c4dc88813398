import MoonCore.Wire.Admission

/-!
# The handshake limit in every minute

A window of failures starts at an address's first failure, and starts again with a failure after it
has expired, at the end of a ban and after a sweep. Failures of the minute before a restart are no
longer counted, so the limit holds in every minute of the runs whose restarts find the address
quiet, and after any other restart four more failures break it (`Gatekeeper.handshake_limit`).
-/

namespace MoonCore

namespace Gatekeeper

variable {self : Gatekeeper} {peer : IpAddr} {now t : ℕ}

/-- The answered failures of an address: when, and whether the answer was `Banned`. -/
def failuresOf (peer : IpAddr) (trace : List (Call × Answer)) : List (ℕ × Bool) :=
  trace.filterMap fun
    | (.handshakeFailed p now, .admitPeer answer) =>
      if p = peer then some (now, decide (answer ≠ .ok)) else none
    | _ => none

/-- As many failures as are allowed in a minute, within a minute, have a `Banned` among their
answers. -/
def Limited (failed : List (ℕ × Bool)) : Prop :=
  ∀ five : List (ℕ × Bool), five.Sublist failed → five.length = helloAttemptsPerMin →
    (∀ a ∈ five, ∀ b ∈ five, b.1 ≤ a.1 + banDuration) → ∃ f ∈ five, f.2 = true

/-- The failures counted in the window of an address. -/
def failures (self : Gatekeeper) (peer : IpAddr) : ℕ :=
  ((self.attempts.lookup peer).map Window.failures).getD 0

/-- A call at `now` that starts the window of an address again: the end of its ban, a failure after
it has expired, a sweep that drops it. -/
def Restarts (self : Gatekeeper) (peer : IpAddr) (call : Call) (now : ℕ) : Prop :=
  ∃ window, self.attempts.lookup peer = some window ∧
    match call with
    | .admitPeer p t => p = peer ∧ t = now ∧ window.bannedUntil.any (· ≤ now)
    | .handshakeFailed p t => p = peer ∧ t = now ∧ banDuration < now - window.started
    | .expireWindows t => t = now ∧ window.keeps now = false
    | _ => False

/-- If the call starts the window of the address again, each failure of the address in the minute
before filled the window it was counted in. -/
def QuietRestart (peer : IpAddr) (pre : List Call) (call : Call) : Prop :=
  ∀ now, (machine.run new pre).Restarts peer call now →
    ∀ pre' t mid, pre = pre' ++ .handshakeFailed peer t :: mid → now ≤ t + banDuration →
      helloAttemptsPerMin ≤ ((machine.run new pre').openWindow peer t).failures + 1

instance (self : Gatekeeper) (peer : IpAddr) (call : Call) (now : ℕ) :
    Decidable (self.Restarts peer call now) :=
  match call with
  | .admitPeer p t => inferInstanceAs (Decidable (∃ window ∈ self.attempts.lookup peer,
      p = peer ∧ t = now ∧ window.bannedUntil.any (· ≤ now)))
  | .handshakeFailed p t => inferInstanceAs (Decidable (∃ window ∈ self.attempts.lookup peer,
      p = peer ∧ t = now ∧ banDuration < now - window.started))
  | .expireWindows t => inferInstanceAs (Decidable (∃ window ∈ self.attempts.lookup peer,
      t = now ∧ window.keeps now = false))
  | .handshakeSucceeded _ | .open_ .. | .close _ | .revokeDevice _ =>
    .isFalse fun ⟨_, _, h⟩ => h

/-! ### What one call does to a window -/

theorem failuresOf_append (peer : IpAddr) (t u : List (Call × Answer)) :
    failuresOf peer (t ++ u) = failuresOf peer t ++ failuresOf peer u :=
  List.filterMap_append

theorem failures_of_attempts_eq {gate : Gatekeeper} (h : gate.attempts = self.attempts) :
    gate.failures peer = self.failures peer := by
  rw [failures, h, failures]

theorem failures_setWindow (self : Gatekeeper) (p peer : IpAddr) (window : Window) :
    (self.setWindow p window).failures peer =
      if p = peer then window.failures else self.failures peer := by
  rw [failures, setWindow]
  split
  · rename_i hp
    rw [hp, AList.lookup_insert, Option.map_some, Option.getD_some]
  · rename_i hp
    rw [AList.lookup_insert_ne (Ne.symm hp), failures]

/-- `admit` leaves the windows alone, or restarts the one whose ban is over. -/
theorem admit_cases (self : Gatekeeper) (p : IpAddr) (now : ℕ) (peer : IpAddr) :
    (self.admitPeer p now).1.failures peer = self.failures peer ∨
      self.Restarts peer (.admitPeer p now) now ∧ (self.admitPeer p now).1.failures peer = 0 := by
  rw [admitPeer]
  split
  · exact .inl rfl
  · rename_i window hp
    split
    · exact .inl rfl
    · rename_i until_ hban
      split
      · exact .inl rfl
      · rename_i hover
        rw [failures_setWindow]
        split
        · rename_i hpeer
          subst hpeer
          refine .inr ⟨⟨window, hp, rfl, rfl, ?_⟩, rfl⟩
          rw [hban, Option.any_some, decide_eq_true_eq]
          omega
        · exact .inl rfl

/-- The window a failure is counted in is the address's own, or an empty one. -/
theorem openWindow_failures (self : Gatekeeper) (peer : IpAddr) (now : ℕ) :
    (¬ self.Restarts peer (.handshakeFailed peer now) now ∧
      (self.openWindow peer now).failures = self.failures peer) ∨
    (self.Restarts peer (.handshakeFailed peer now) now ∧
      (self.openWindow peer now).failures = 0) := by
  rw [openWindow, failures]
  cases hpeer : self.attempts.lookup peer with
  | none =>
    refine .inl ⟨?_, rfl⟩
    rintro ⟨w, hw, -⟩
    exact absurd (hpeer.symm.trans hw) (by simp)
  | some window =>
    dsimp only
    split
    · rename_i hold
      exact .inr ⟨⟨window, hpeer, rfl, rfl, hold⟩, rfl⟩
    · rename_i hyoung
      refine .inl ⟨?_, rfl⟩
      rintro ⟨w, hw, -, -, hold⟩
      rw [hpeer, Option.some.injEq] at hw
      exact hyoung (hw ▸ hold)

/-- What `handshake_failed` answers and counts. -/
theorem handshakeFailed_cases (self : Gatekeeper) (peer : IpAddr) (now : ℕ) :
    (self.handshakeFailed peer now = none ∧
      2 ^ 32 ≤ (self.openWindow peer now).failures + 1) ∨
    ∃ gate answer, self.handshakeFailed peer now = some (gate, answer) ∧
      ¬ 2 ^ 32 ≤ (self.openWindow peer now).failures + 1 ∧
      (∀ p, gate.failures p =
        if peer = p then (self.openWindow peer now).failures + 1 else self.failures p) ∧
      (answer ≠ .ok ↔ helloAttemptsPerMin ≤ (self.openWindow peer now).failures + 1) := by
  rw [handshakeFailed]
  dsimp only
  split
  · rename_i hover
    exact .inl ⟨rfl, hover⟩
  · rename_i hfits
    refine .inr ?_
    split
    · rename_i hfull
      exact ⟨_, _, rfl, hfits, fun p => self.failures_setWindow peer p _, by simp [hfull]⟩
    · rename_i hroom
      exact ⟨_, _, rfl, hfits, fun p => self.failures_setWindow peer p _, by simp [hroom]⟩

/-- A sweep leaves a window alone, or drops it. -/
theorem expireWindows_cases (self : Gatekeeper) (now : ℕ) (peer : IpAddr) :
    (self.expireWindows now).1.failures peer = self.failures peer ∨
      self.Restarts peer (.expireWindows now) now ∧
        (self.expireWindows now).1.failures peer = 0 := by
  rw [expireWindows, failures, failures]
  dsimp only
  rw [AList.lookup_retain]
  cases hpeer : self.attempts.lookup peer with
  | none => exact .inl rfl
  | some window =>
    cases hkeeps : window.keeps now with
    | true => exact .inl (by rw [Option.filter_some, if_pos hkeeps])
    | false => exact .inr ⟨⟨window, hpeer, rfl, hkeeps⟩, by simp [Option.filter_some, hkeeps]⟩

/-- What one call does to the failures of an address that has not just succeeded: keep their count,
restart it, or be one more. -/
theorem step_cases (self : Gatekeeper) {call : Call} (hcall : call ≠ .handshakeSucceeded peer) :
    (failuresOf peer [(call, machine.out self call)] = [] ∧
      ((machine.next self call).failures peer = self.failures peer ∨
        ∃ now, self.Restarts peer call now ∧ (machine.next self call).failures peer = 0)) ∨
    ∃ t, call = .handshakeFailed peer t ∧
      failuresOf peer [(call, machine.out self call)] =
        [(t, decide (helloAttemptsPerMin ≤ (machine.next self call).failures peer))] ∧
      ((machine.next self call).failures peer = self.failures peer + 1 ∨
        self.Restarts peer call t ∧ (machine.next self call).failures peer = 1) := by
  cases call with
  | admitPeer p now =>
    refine .inl ⟨rfl, ?_⟩
    exact (self.admit_cases p now peer).imp_right fun h => ⟨now, h⟩
  | handshakeFailed p now =>
    obtain ⟨hnone, -⟩ | ⟨gate, answer, hsome, -, hcount, hanswer⟩ :=
      self.handshakeFailed_cases p now
    · have hstep := step_handshakeFailed_none hnone
      simp only [Machine.next, Machine.out, hstep]
      exact .inl ⟨rfl, .inl trivial⟩
    · have hstep := step_handshakeFailed hsome
      simp only [Machine.next, Machine.out, hstep, hcount]
      by_cases hp : p = peer
      · subst hp
        rw [if_pos rfl]
        refine .inr ⟨now, rfl, ?_, ?_⟩
        · simp only [failuresOf, List.filterMap_cons, List.filterMap_nil, if_true, hanswer]
        · obtain ⟨-, hsame⟩ | ⟨hrestarts, hzero⟩ := self.openWindow_failures p now
          · exact .inl (by rw [hsame])
          · exact .inr ⟨hrestarts, by rw [hzero]⟩
      · rw [if_neg hp]
        exact .inl ⟨by simp [failuresOf, hp], .inl rfl⟩
  | handshakeSucceeded p =>
    refine .inl ⟨rfl, .inl ?_⟩
    have hne : peer ≠ p := fun h => hcall (h ▸ rfl)
    rw [failures, failures]
    exact congrArg (fun w => (Option.map Window.failures w).getD 0) (AList.lookup_erase_ne hne)
  | open_ device p role now =>
    refine .inl ⟨rfl, .inl (failures_of_attempts_eq ?_)⟩
    cases hopen : self.open_ device p role now with
    | none => rw [Machine.next, step_open_none hopen]
    | some opened => rw [Machine.next, step_open hopen, attempts_open hopen]
  | close id => exact .inl ⟨rfl, .inl rfl⟩
  | revokeDevice device =>
    exact .inl ⟨rfl, .inl (failures_of_attempts_eq (self.attempts_revokeDevice device))⟩
  | expireWindows now =>
    refine .inl ⟨rfl, ?_⟩
    exact (self.expireWindows_cases now peer).imp_right fun h => ⟨now, h⟩

/-! ### The failures of the last minute -/

/-- The failures answered `Ok` that are at most a minute old. -/
def young (now : ℕ) (failed : List (ℕ × Bool)) : ℕ :=
  failed.countP fun f => !f.2 && decide (now ≤ f.1 + banDuration)

theorem young_antitone {now later : ℕ} (h : now ≤ later) (failed : List (ℕ × Bool)) :
    young later failed ≤ young now failed := by
  refine List.countP_mono_left fun f _ hf => ?_
  simp only [Bool.and_eq_true, decide_eq_true_eq] at hf ⊢
  exact ⟨hf.1, by omega⟩

theorem young_concat_le (now : ℕ) (failed : List (ℕ × Bool)) (f : ℕ × Bool) :
    young now (failed ++ [f]) ≤ young now failed + 1 := by
  rw [young, List.countP_append]
  exact Nat.add_le_add_left List.countP_le_length _

/-- One more failure keeps the limit if it is banned, or finds room for it. -/
theorem Limited.concat {failed : List (ℕ × Bool)} (h : Limited failed) {f : ℕ × Bool}
    (hroom : f.2 = false → young f.1 failed + 1 < helloAttemptsPerMin) :
    Limited (failed ++ [f]) := by
  intro five hsub hlen hspan
  obtain ⟨four, last, rfl, hfour, hlast⟩ := List.sublist_append_iff.mp hsub
  obtain rfl | rfl := List.sublist_singleton.mp hlast
  · rw [List.append_nil] at hlen hspan ⊢
    exact h four hfour hlen hspan
  · by_contra hnone
    have hok : ∀ g ∈ four ++ [f], g.2 = false := by
      intro g hg
      rw [← Bool.not_eq_true]
      exact fun htrue => hnone ⟨g, hg, htrue⟩
    -- None of the four is banned, and all are young when the fifth is answered.
    have hyoung : four.length ≤ young f.1 failed := by
      have hall : four.countP (fun g => !g.2 && decide (f.1 ≤ g.1 + banDuration)) =
          four.length := by
        rw [List.countP_eq_length]
        intro g hg
        have hmem := List.mem_append_left [f] hg
        simp [hok g hmem, hspan g hmem f (by simp)]
      rw [← hall]
      exact hfour.countP_le
    have hless := hroom (hok f (by simp))
    rw [List.length_append, List.length_singleton] at hlen
    omega

/-! ### Whole runs -/

theorem mem_failuresOf {f : ℕ × Bool} {trace : List (Call × Answer)} :
    f ∈ failuresOf peer trace ↔ ∃ asked ∈ trace, f ∈ failuresOf peer [asked] := by
  simp [failuresOf]

/-- What is recorded of a failure of the address. -/
theorem failuresOf_handshakeFailed (self : Gatekeeper) (peer : IpAddr) (t : ℕ) :
    failuresOf peer
        [(.handshakeFailed peer t, machine.out self (.handshakeFailed peer t))] =
      if 2 ^ 32 ≤ (self.openWindow peer t).failures + 1 then []
      else [(t, decide (helloAttemptsPerMin ≤ (self.openWindow peer t).failures + 1))] := by
  obtain ⟨hnone, hover⟩ | ⟨gate, answer, hsome, hfits, -, hanswer⟩ :=
    self.handshakeFailed_cases peer t
  · rw [if_pos hover, Machine.out, step_handshakeFailed_none hnone]
    rfl
  · rw [if_neg hfits, Machine.out, step_handshakeFailed hsome]
    simp only [failuresOf, List.filterMap_cons, List.filterMap_nil, if_true, hanswer]

/-- Only failures of the address are recorded, each at its own instant. -/
theorem eq_handshakeFailed_of_mem {f : ℕ × Bool} {call : Call} {answer : Answer}
    (h : f ∈ failuresOf peer [(call, answer)]) : call = .handshakeFailed peer f.1 := by
  obtain ⟨asked, hmem, heq⟩ := List.mem_filterMap.mp h
  obtain rfl := List.mem_singleton.mp hmem
  split at heq
  · rename_i p now a hcase
    obtain ⟨rfl, -⟩ := Prod.mk.inj hcase
    split at heq
    · rename_i hp
      rw [Option.some.injEq] at heq
      rw [← heq, hp]
    · exact absurd heq (by simp)
  · exact absurd heq (by simp)

/-- A failure was answered `Ok` where its window had room for it. -/
theorem mem_failuresOf_run_iff {calls : List Call} :
    (t, false) ∈ failuresOf peer (machine.trace new calls) ↔
      ∃ pre mid, calls = pre ++ .handshakeFailed peer t :: mid ∧
        ¬ helloAttemptsPerMin ≤ ((machine.run new pre).openWindow peer t).failures + 1 := by
  rw [mem_failuresOf]
  constructor
  · rintro ⟨⟨call, answer⟩, hmem, hf⟩
    obtain rfl := eq_handshakeFailed_of_mem hf
    obtain ⟨pre, mid, hsplit, hout⟩ := Machine.mem_trace_iff.mp hmem
    refine ⟨pre, mid, hsplit, fun hfull => ?_⟩
    dsimp only at hout hf
    rw [hout, failuresOf_handshakeFailed] at hf
    split at hf
    · exact List.not_mem_nil hf
    · simp [hfull] at hf
  · rintro ⟨pre, mid, rfl, hroom⟩
    refine ⟨(.handshakeFailed peer t, machine.out (machine.run new pre) (.handshakeFailed peer t)),
      Machine.mem_trace_iff.mpr ⟨pre, mid, rfl, rfl⟩, ?_⟩
    have hfits : ¬ 2 ^ 32 ≤ ((machine.run new pre).openWindow peer t).failures + 1 := by
      have hfive : helloAttemptsPerMin = 5 := rfl
      omega
    rw [failuresOf_handshakeFailed, if_neg hfits]
    simpa using hroom

/-- A restart happens at the instant of its call. -/
theorem Restarts.now_eq {call : Call} (h : self.Restarts peer call now) : call.now = some now := by
  obtain ⟨window, -, hcase⟩ := h
  cases call with
  | admitPeer p t => exact congrArg some hcase.2.1
  | handshakeFailed p t => exact congrArg some hcase.2.1
  | expireWindows t => exact congrArg some hcase.1
  | handshakeSucceeded p => exact hcase.elim
  | open_ device p role t => exact hcase.elim
  | close id => exact hcase.elim
  | revokeDevice device => exact hcase.elim

theorem quietRestart_iff {pre : List Call} {call : Call} :
    QuietRestart peer pre call ↔
      ∀ now ∈ call.now, (machine.run new pre).Restarts peer call now →
        ∀ i, ∀ h : i < pre.length, ∀ t ∈ (pre.get ⟨i, h⟩).now,
          pre.get ⟨i, h⟩ = .handshakeFailed peer t → now ≤ t + banDuration →
            helloAttemptsPerMin ≤
              ((machine.run new (pre.take i)).openWindow peer t).failures + 1 := by
  constructor
  · intro hquiet now _ hrestarts i hi t _ hcall hage
    exact hquiet now hrestarts _ t (pre.drop (i + 1)) (by simp [← hcall]) hage
  · rintro hplaces now hrestarts pre' t mid rfl hage
    simpa using hplaces now hrestarts.now_eq hrestarts pre'.length (by simp) t (by simp [Call.now])
      (by simp) hage

instance (peer : IpAddr) (pre : List Call) (call : Call) : Decidable (QuietRestart peer pre call) :=
  decidable_of_iff' _ quietRestart_iff

/-- A restart that finds the address quiet forgets no failure of the minute before. -/
theorem QuietRestart.young_eq_zero {calls : List Call} {call : Call}
    (h : QuietRestart peer calls call)
    (hrestarts : (machine.run new calls).Restarts peer call now) :
    young now (failuresOf peer (machine.trace new calls)) = 0 := by
  refine List.countP_eq_zero.mpr fun f hf hyoung => ?_
  simp only [Bool.and_eq_true, Bool.not_eq_true', decide_eq_true_eq] at hyoung
  obtain ⟨t, banned⟩ := f
  obtain ⟨rfl, hage⟩ := hyoung
  obtain ⟨pre, mid, hsplit, hroom⟩ := mem_failuresOf_run_iff.mp hf
  exact hroom (h now hrestarts pre t mid hsplit hage)

/-- What a run whose restarts all find the address quiet keeps: the young failures are counted. -/
structure Counts (peer : IpAddr) (calls : List Call) : Prop where
  young_le : ∀ now, (∀ t ∈ calls.filterMap Call.now, t ≤ now) →
    young now (failuresOf peer (machine.trace new calls)) ≤ (machine.run new calls).failures peer
  limited : Limited (failuresOf peer (machine.trace new calls))

theorem counts_nil (peer : IpAddr) : Counts peer [] where
  young_le _ _ := Nat.zero_le _
  limited five hsub hlen _ := by
    rw [List.sublist_nil.mp hsub] at hlen
    exact absurd hlen (by decide)

theorem Counts.concat {calls : List Call} {call : Call} (h : Counts peer calls)
    (htimely : Timely (calls ++ [call])) (hcall : call ≠ .handshakeSucceeded peer)
    (hquiet : QuietRestart peer calls call) : Counts peer (calls ++ [call]) := by
  have htrace : failuresOf peer (machine.trace new (calls ++ [call])) =
      failuresOf peer (machine.trace new calls) ++
        failuresOf peer [(call, machine.out (machine.run new calls) call)] := by
    rw [Machine.trace_append, failuresOf_append]
    rfl
  have hbefore : ∀ later, (∀ t ∈ (calls ++ [call]).filterMap Call.now, t ≤ later) →
      ∀ t ∈ calls.filterMap Call.now, t ≤ later := by
    intro later hlater t ht
    exact hlater t (by rw [List.filterMap_append]; exact List.mem_append_left _ ht)
  -- A quiet restart leaves no young failure behind, at its instant or later.
  have hzero : ∀ later, (∀ t ∈ (calls ++ [call]).filterMap Call.now, t ≤ later) → ∀ now,
      (machine.run new calls).Restarts peer call now →
        young later (failuresOf peer (machine.trace new calls)) = 0 := by
    intro later hlater now hrestarts
    have hle : now ≤ later :=
      hlater now (by rw [times_concat hrestarts.now_eq]; exact List.mem_append_right _ (by simp))
    exact Nat.le_zero.mp ((young_antitone hle _).trans_eq (hquiet.young_eq_zero hrestarts))
  obtain ⟨hnil, hkept⟩ | ⟨t, rfl, hone, hcount⟩ := step_cases (machine.run new calls) hcall
  · rw [hnil, List.append_nil] at htrace
    refine ⟨fun later hlater => ?_, htrace ▸ h.limited⟩
    rw [htrace, Machine.run_concat]
    obtain hsame | ⟨now, hrestarts, -⟩ := hkept
    · rw [hsame]
      exact h.young_le later (hbefore later hlater)
    · rw [hzero later hlater now hrestarts]
      exact Nat.zero_le _
  · have hpast : ∀ u ∈ calls.filterMap Call.now, u ≤ t := htimely.le_last rfl
    rw [hone] at htrace
    refine ⟨fun later hlater => ?_, ?_⟩
    · rw [htrace, Machine.run_concat]
      refine (young_concat_le later _ _).trans ?_
      obtain hmore | ⟨hrestarts, hfirst⟩ := hcount
      · rw [hmore]
        exact Nat.add_le_add_right (h.young_le later (hbefore later hlater)) 1
      · rw [hfirst, hzero later hlater t hrestarts]
    · rw [htrace]
      refine h.limited.concat fun hroom => ?_
      rw [decide_eq_false_iff_not] at hroom
      -- answered `Ok`, so the window had room, and it counts all the young ones
      obtain hmore | ⟨hrestarts, hfirst⟩ := hcount
      · have hyoung := h.young_le t hpast
        dsimp only
        omega
      · rw [hquiet.young_eq_zero hrestarts]
        decide

theorem counts_run {calls : List Call} (htimely : Timely calls)
    (hnever : ∀ call ∈ calls, call ≠ .handshakeSucceeded peer)
    (hquiet : ∀ pre call post, calls = pre ++ call :: post → QuietRestart peer pre call) :
    Counts peer calls := by
  induction calls using List.reverseRecOn with
  | nil => exact counts_nil peer
  | append_singleton calls call ih =>
    refine (ih htimely.left (fun c hc => hnever c (List.mem_append_left _ hc)) ?_).concat htimely
      (hnever call (by simp)) (hquiet calls call [] rfl)
    rintro pre c post rfl
    exact hquiet pre c (post ++ [call]) (by simp)

/-! ### A restart that finds the address loud -/

/-- The window a failure is counted in has not expired. -/
theorem openWindow_started (self : Gatekeeper) (peer : IpAddr) (now : ℕ) :
    ¬ banDuration < now - (self.openWindow peer now).started := by
  rw [openWindow]
  split
  · simp
  · split
    · simp
    · assumption

theorem openWindow_setWindow {window : Window} (h : ¬ banDuration < now - window.started) :
    (self.setWindow peer window).openWindow peer now = window := by
  rw [openWindow, setWindow]
  dsimp only
  rw [AList.lookup_insert]
  exact if_neg h

/-- A failure that is answered is counted. -/
theorem openWindow_handshakeFailed {gate : Gatekeeper} {answer : Admit}
    (h : self.handshakeFailed peer now = some (gate, answer)) :
    (gate.openWindow peer now).failures = (self.openWindow peer now).failures + 1 := by
  have hyoung := self.openWindow_started peer now
  rw [handshakeFailed] at h
  dsimp only at h
  split at h
  · exact absurd h (by simp)
  · split at h
    · obtain ⟨rfl, -⟩ := Prod.mk.inj (Option.some.inj h)
      rw [openWindow_setWindow]
      exact hyoung
    · obtain ⟨rfl, -⟩ := Prod.mk.inj (Option.some.inj h)
      rw [openWindow_setWindow]
      exact hyoung

/-- Failures at one instant are answered `Ok` while the window has room for them. -/
theorem failuresOf_replicate (self : Gatekeeper) (peer : IpAddr) (now k : ℕ)
    (hroom : (self.openWindow peer now).failures + k < helloAttemptsPerMin) :
    failuresOf peer (machine.trace self (List.replicate k (.handshakeFailed peer now))) =
      List.replicate k (now, false) := by
  have hfive : helloAttemptsPerMin = 5 := rfl
  induction k generalizing self with
  | zero => rfl
  | succ k ih =>
    obtain ⟨-, hover⟩ | ⟨gate, answer, hsome, hfits, -⟩ := self.handshakeFailed_cases peer now
    · omega
    · have hnext : machine.next self (.handshakeFailed peer now) = gate := by
        rw [Machine.next, step_handshakeFailed hsome]
      have hcount := openWindow_handshakeFailed hsome
      have hopen : ¬ helloAttemptsPerMin ≤ (self.openWindow peer now).failures + 1 := by omega
      rw [List.replicate_succ, Machine.trace_cons, ← List.singleton_append, failuresOf_append,
        failuresOf_handshakeFailed, if_neg hfits, hnext, ih gate (by omega),
        decide_eq_false hopen]
      rfl

/-- After a restart nothing is counted but the failure that may have been the restart. -/
theorem Restarts.next {call : Call} (h : self.Restarts peer call now) :
    ∃ k ≤ 1, ((machine.next self call).openWindow peer now).failures = k ∧
      failuresOf peer [(call, machine.out self call)] = List.replicate k (now, false) := by
  have hall := h
  obtain ⟨window, hlookup, hcase⟩ := h
  cases call with
  | admitPeer p t =>
    obtain ⟨rfl, rfl, hover⟩ := hcase
    obtain ⟨until_, hban, hle⟩ : ∃ until_, window.bannedUntil = some until_ ∧ until_ ≤ t := by
      cases hban : window.bannedUntil with
      | none => simp [hban] at hover
      | some until_ => exact ⟨until_, rfl, by simpa [hban] using hover⟩
    have hnot : ¬ t < until_ := by omega
    have hnext : machine.next self (.admitPeer p t) = self.setWindow p ⟨0, t, none⟩ := by
      simp only [Machine.next, machine, admitPeer, hlookup, hban, if_neg hnot]
    refine ⟨0, by omega, ?_, rfl⟩
    rw [hnext, openWindow_setWindow (by simp)]
  | handshakeFailed p t =>
    obtain ⟨rfl, rfl, -⟩ := hcase
    obtain ⟨hnot, -⟩ | ⟨-, hzero⟩ := self.openWindow_failures p t
    · exact absurd hall hnot
    · obtain ⟨-, hover⟩ | ⟨gate, answer, hsome, hfits, -⟩ := self.handshakeFailed_cases p t
      · rw [hzero] at hover
        exact absurd hover (by decide)
      · refine ⟨1, le_rfl, ?_, ?_⟩
        · rw [Machine.next, step_handshakeFailed hsome, openWindow_handshakeFailed hsome, hzero]
        · rw [failuresOf_handshakeFailed, if_neg hfits, hzero]
          rfl
  | expireWindows t =>
    obtain ⟨rfl, hdrop⟩ := hcase
    refine ⟨0, by omega, ?_, rfl⟩
    have hnone : (machine.next self (.expireWindows t)).attempts.lookup peer = none := by
      simp only [Machine.next, machine, expireWindows, AList.lookup_retain, hlookup,
        Option.filter_some, hdrop, Bool.false_eq_true, if_false]
    rw [openWindow, hnone]
  | handshakeSucceeded p => exact hcase.elim
  | open_ device p role t => exact hcase.elim
  | close id => exact hcase.elim
  | revokeDevice device => exact hcase.elim

/-- After a restart that finds the address loud, at most four more failures break the limit. -/
theorem exists_not_limited {calls : List Call} {call : Call} (htimely : Timely (calls ++ [call]))
    (hloud : ¬ QuietRestart peer calls call) :
    ∃ later, Timely (calls ++ call :: later) ∧
      (∀ c ∈ later, c ≠ .handshakeSucceeded peer) ∧
      ¬ Limited (failuresOf peer (machine.trace new (calls ++ call :: later))) := by
  simp only [QuietRestart, not_forall] at hloud
  obtain ⟨now, hrestarts, pre, t, mid, hsplit, hage, hroom⟩ := hloud
  have hmem : (t, false) ∈ failuresOf peer (machine.trace new calls) :=
    mem_failuresOf_run_iff.mpr ⟨pre, mid, hsplit, hroom⟩
  have hbefore : t ≤ now := by
    refine htimely.le_last hrestarts.now_eq t ?_
    rw [hsplit]
    simp [Call.now]
  obtain ⟨k, hk, hcount, hrecord⟩ := hrestarts.next
  refine ⟨List.replicate (4 - k) (.handshakeFailed peer now), ?_, ?_, ?_⟩
  · have htimes : (List.replicate (4 - k) (.handshakeFailed peer now)).filterMap Call.now =
        List.replicate (4 - k) now := List.filterMap_replicate_of_some rfl
    rw [List.append_cons, Timely, List.filterMap_append, htimes, List.pairwise_append]
    refine ⟨htimely, List.pairwise_replicate.mpr (.inr le_rfl), fun u hu v hv => ?_⟩
    obtain rfl := List.eq_of_mem_replicate hv
    rw [times_concat hrestarts.now_eq, List.mem_append, List.mem_singleton] at hu
    obtain hu | rfl := hu
    · exact htimely.le_last hrestarts.now_eq u hu
    · exact le_rfl
  · intro c hc
    rw [List.eq_of_mem_replicate hc]
    simp
  · have hfive : helloAttemptsPerMin = 5 := rfl
    have hmore : failuresOf peer (machine.trace new
        (calls ++ call :: List.replicate (4 - k) (.handshakeFailed peer now))) =
          failuresOf peer (machine.trace new calls) ++ List.replicate 4 (now, false) := by
      rw [Machine.trace_append, Machine.trace_cons, failuresOf_append, ← List.singleton_append,
        failuresOf_append, hrecord, failuresOf_replicate _ _ _ _ (by omega),
        List.replicate_append_replicate]
      congr 2
      omega
    intro hlimited
    -- The forgotten failure and four more at the instant of the restart are five in a minute.
    obtain ⟨f, hf, hbanned⟩ := hlimited ((t, false) :: List.replicate 4 (now, false))
      (by rw [hmore, ← List.singleton_append]
          exact (List.singleton_sublist.mpr hmem).append (List.Sublist.refl _))
      (by rfl)
      (by
        have hban : 0 < banDuration := by decide
        intro a ha b hb
        rw [List.mem_cons, List.mem_replicate] at ha hb
        obtain rfl | ⟨-, rfl⟩ := ha <;> obtain rfl | ⟨-, rfl⟩ := hb <;> dsimp only <;> omega)
    rw [List.mem_cons, List.mem_replicate] at hf
    obtain rfl | ⟨-, rfl⟩ := hf
    · exact Bool.false_ne_true hbanned
    · exact Bool.false_ne_true hbanned

/-- **The handshake limit.** In every run whose instants do not decrease and in which the address
never succeeds: if each restart of the address's window finds the address quiet, then among any five
failures within a minute one is answered `Banned`. After any other restart there is a run on that
breaks the limit. -/
theorem handshake_limit (peer : IpAddr) (calls : List Call) (htimely : Timely calls)
    (hnever : ∀ call ∈ calls, call ≠ .handshakeSucceeded peer) :
    ((∀ pre call post, calls = pre ++ call :: post → QuietRestart peer pre call) →
      Limited (failuresOf peer (machine.trace new calls))) ∧
    ∀ call, Timely (calls ++ [call]) → ¬ QuietRestart peer calls call →
      ∃ later, Timely (calls ++ call :: later) ∧
        (∀ c ∈ later, c ≠ .handshakeSucceeded peer) ∧
        ¬ Limited (failuresOf peer (machine.trace new (calls ++ call :: later))) :=
  ⟨fun hquiet => (counts_run htimely hnever hquiet).limited,
    fun _ htimely hloud => exists_not_limited htimely hloud⟩

/-- The address of the fixed runs. -/
def attacker : IpAddr := .v4 #v[203, 0, 113, 66]

/-- The fifth failure fills the window that second 0 opened, and the sixth, which starts another,
forgets only those of second 0. -/
def filled : List Call :=
  List.replicate 4 (.handshakeFailed attacker 0) ++ .handshakeFailed attacker 59000000000 ::
    List.replicate 4 (.handshakeFailed attacker 60100000000)

/-- The limit holds in that run. In another one, second 61 starts again the window that second 0
opened, forgets second 50, and can be followed by failures that break the limit. -/
theorem handshake_limit_restart :
    Limited (failuresOf attacker (machine.trace new filled)) ∧
      ∃ later, Timely ([.handshakeFailed attacker 0, .handshakeFailed attacker 50000000000] ++
          .handshakeFailed attacker 61000000000 :: later) ∧
        (∀ c ∈ later, c ≠ .handshakeSucceeded attacker) ∧
        ¬ Limited (failuresOf attacker (machine.trace new
          ([.handshakeFailed attacker 0, .handshakeFailed attacker 50000000000] ++
            .handshakeFailed attacker 61000000000 :: later))) := by
  constructor
  · refine (handshake_limit attacker filled (by decide) (by decide)).1 ?_
    rw [forall_split_iff_forall_get (p := fun pre call _ => QuietRestart attacker pre call)]
    decide
  · exact (handshake_limit attacker
      [.handshakeFailed attacker 0, .handshakeFailed attacker 50000000000]
      (by decide) (by decide)).2 _ (by decide) (by decide)

/-- Failures around the end of a window. -/
def straddling : List Call :=
  [.handshakeFailed attacker 0, .handshakeFailed attacker 59000000000,
    .handshakeFailed attacker 59500000000, .handshakeFailed attacker 60000000000,
    .handshakeFailed attacker 60100000000, .handshakeFailed attacker 60200000000]

/-- Five of them fall within two seconds, and none of these is banned. -/
theorem not_limited_straddling :
    Timely straddling ∧ (∀ call ∈ straddling, call ≠ .handshakeSucceeded attacker) ∧
      ¬ Limited (failuresOf attacker (machine.trace new straddling)) := by
  refine ⟨by decide, by simp [straddling], fun h => ?_⟩
  have hbanned := h [(59000000000, false), (59500000000, false), (60000000000, false),
    (60100000000, false), (60200000000, false)] (by decide) rfl (by decide)
  exact absurd hbanned (by decide)

end Gatekeeper

end MoonCore
