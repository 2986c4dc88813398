import MoonCore.Wire.HandshakeLimit

/-!
# A ban is kept to its end

What one call does to the record of one address (`Gatekeeper.recordStep`), and what follows for an
address that was told of a ban: it is refused until then, whatever fails meanwhile, and admitted at
the first try afterwards. The allowance is whole again then, unless a sweep forgot the record first:
failures are counted from the last such sweep on (`Gatekeeper.ban_kept`).
-/

namespace MoonCore

namespace Gatekeeper

variable {self : Gatekeeper} {peer : IpAddr} {now t until_ : ℕ}

/-- The end of the ban an address is told of by an answer to it. -/
def bannedBy (peer : IpAddr) : Call × Answer → Option ℕ
  | (.admitPeer p _, .admitPeer (.banned until_)) => if p = peer then some until_ else none
  | (.handshakeFailed p _, .admitPeer (.banned until_)) => if p = peer then some until_ else none
  | _ => none

/-- The ban in the record of an address. -/
def banOf (self : Gatekeeper) (peer : IpAddr) : Option ℕ :=
  (self.attempts.lookup peer).bind Window.bannedUntil

/-- Whether a call is a failure of the address. -/
def Call.fails (peer : IpAddr) : Call → Bool
  | .handshakeFailed p _ => decide (p = peer)
  | _ => false

/-- A window with one more failure in it. -/
def Window.count (window : Window) (now : ℕ) : Window where
  failures := window.failures + 1
  started := window.started
  bannedUntil :=
    if helloAttemptsPerMin ≤ window.failures + 1 then some (now + banDuration)
    else window.bannedUntil

/-! ### The record of one address -/

theorem openWindow_bannedUntil (self : Gatekeeper) (peer : IpAddr) (now : ℕ) :
    (self.openWindow peer now).bannedUntil = self.banOf peer := by
  rw [openWindow, banOf]
  cases self.attempts.lookup peer with
  | none => rfl
  | some window =>
    dsimp only
    split <;> rfl

theorem openWindow_failures_le (self : Gatekeeper) (peer : IpAddr) (now : ℕ) :
    (self.openWindow peer now).failures ≤ self.failures peer := by
  obtain ⟨-, hsame⟩ | ⟨-, hzero⟩ := self.openWindow_failures peer now
  · exact hsame.le
  · rw [hzero]
    exact Nat.zero_le _

theorem lookup_setWindow (self : Gatekeeper) (p peer : IpAddr) (window : Window) :
    (self.setWindow p window).attempts.lookup peer =
      if p = peer then some window else self.attempts.lookup peer := by
  rw [setWindow]
  split
  · rename_i hp
    rw [hp, AList.lookup_insert]
  · rename_i hp
    rw [AList.lookup_insert_ne (Ne.symm hp)]

/-- What an answered failure records. -/
theorem handshakeFailed_eq (self : Gatekeeper) (peer : IpAddr) (now : ℕ) :
    self.handshakeFailed peer now =
      if 2 ^ 32 ≤ (self.openWindow peer now).failures + 1 then none
      else some (self.setWindow peer ((self.openWindow peer now).count now),
        if helloAttemptsPerMin ≤ (self.openWindow peer now).failures + 1
        then .banned (now + banDuration) else .ok) := by
  rw [handshakeFailed, Window.count]
  dsimp only
  split_ifs <;> rfl

/-- What `admit` does, by the ban in the record. -/
theorem admitPeer_eq (self : Gatekeeper) (peer : IpAddr) (now : ℕ) :
    self.admitPeer peer now =
      match self.banOf peer with
      | none => (self, .ok)
      | some until_ =>
        if now < until_ then (self, .banned until_)
        else (self.setWindow peer ⟨0, now, none⟩, .ok) := by
  rw [admitPeer, banOf]
  cases self.attempts.lookup peer with
  | none => rfl
  | some window =>
    obtain ⟨failures, started, _ | until_⟩ := window
    · rfl
    · rfl

theorem lookup_expireWindows (self : Gatekeeper) (peer : IpAddr) (now : ℕ) :
    (self.expireWindows now).1.attempts.lookup peer =
      (self.attempts.lookup peer).filter fun window => window.keeps now := by
  rw [expireWindows]
  exact AList.lookup_retain _ _ _

/-- What one call does to the record of one address, and what ban it tells the address of. -/
inductive RecordStep (self : Gatekeeper) (peer : IpAddr) : Call → Prop where
  | same {call : Call}
      (hsame : (machine.next self call).attempts.lookup peer = self.attempts.lookup peer)
      (htold : bannedBy peer (call, machine.out self call) = none) : RecordStep self peer call
  /-- An `admit` before the end of the ban in the record. -/
  | refused {t until_ : ℕ} (hsoon : t < until_) (hban : self.banOf peer = some until_)
      (hsame : (machine.next self (.admitPeer peer t)).attempts.lookup peer =
        self.attempts.lookup peer)
      (htold : bannedBy peer (.admitPeer peer t, machine.out self (.admitPeer peer t)) =
        some until_) : RecordStep self peer (.admitPeer peer t)
  /-- An `admit` after it. -/
  | reset {t until_ : ℕ} (hover : until_ ≤ t) (hban : self.banOf peer = some until_)
      (hnext : (machine.next self (.admitPeer peer t)).attempts.lookup peer = some ⟨0, t, none⟩)
      (htold : bannedBy peer (.admitPeer peer t, machine.out self (.admitPeer peer t)) = none) :
    RecordStep self peer (.admitPeer peer t)
  | counted {t : ℕ}
      (hnext : (machine.next self (.handshakeFailed peer t)).attempts.lookup peer =
        some ((self.openWindow peer t).count t))
      (htold : bannedBy peer (.handshakeFailed peer t, machine.out self (.handshakeFailed peer t)) =
        if helloAttemptsPerMin ≤ (self.openWindow peer t).failures + 1
        then some (t + banDuration) else none) :
    RecordStep self peer (.handshakeFailed peer t)
  /-- A sweep that forgets the record. -/
  | dropped {t : ℕ} (hdrop : self.Restarts peer (.expireWindows t) t)
      (hnext : (machine.next self (.expireWindows t)).attempts.lookup peer = none)
      (htold : bannedBy peer (.expireWindows t, machine.out self (.expireWindows t)) = none) :
    RecordStep self peer (.expireWindows t)

theorem recordStep_admitPeer (self : Gatekeeper) (peer p : IpAddr) (t : ℕ) :
    RecordStep self peer (.admitPeer p t) := by
  have hnext : machine.next self (.admitPeer p t) = (self.admitPeer p t).1 := rfl
  have hout : machine.out self (.admitPeer p t) = .admitPeer (self.admitPeer p t).2 := rfl
  rw [admitPeer_eq] at hnext hout
  by_cases hp : p = peer
  · subst hp
    cases hban : self.banOf p with
    | none =>
      rw [hban] at hnext hout
      exact .same (by rw [hnext]) (by rw [hout]; rfl)
    | some until_ =>
      rw [hban] at hnext hout
      dsimp only at hnext hout
      split_ifs at hnext hout with hsoon
      · exact .refused hsoon hban (by rw [hnext]) (by rw [hout, bannedBy, if_pos rfl])
      · exact .reset (not_lt.mp hsoon) hban (by rw [hnext, lookup_setWindow, if_pos rfl])
          (by rw [hout]; rfl)
  · -- the call is about another address
    refine .same ?_ ?_
    · rw [hnext]
      cases self.banOf p with
      | none => rfl
      | some until_ =>
        dsimp only
        split_ifs
        · rfl
        · rw [lookup_setWindow, if_neg hp]
    · rw [hout]
      cases self.banOf p with
      | none => rfl
      | some until_ =>
        dsimp only
        split_ifs
        · rw [bannedBy, if_neg hp]
        · rfl

theorem recordStep_handshakeFailed (self : Gatekeeper) (peer p : IpAddr) (t : ℕ) :
    RecordStep self peer (.handshakeFailed p t) := by
  have hfailed := self.handshakeFailed_eq p t
  by_cases hover : 2 ^ 32 ≤ (self.openWindow p t).failures + 1
  · rw [if_pos hover] at hfailed
    -- the count of failures is full, and nothing is recorded
    have hstep := step_handshakeFailed_none hfailed
    exact .same (by rw [Machine.next, hstep]) (by rw [Machine.out, hstep]; rfl)
  rw [if_neg hover] at hfailed
  have hstep := step_handshakeFailed hfailed
  by_cases hp : p = peer
  · subst hp
    refine .counted (by rw [Machine.next, hstep, lookup_setWindow, if_pos rfl]) ?_
    rw [Machine.out, hstep]
    dsimp only
    split_ifs
    · rw [bannedBy, if_pos rfl]
    · rfl
  · refine .same (by rw [Machine.next, hstep, lookup_setWindow, if_neg hp]) ?_
    rw [Machine.out, hstep]
    dsimp only
    split_ifs
    · rw [bannedBy, if_neg hp]
    · rfl

theorem recordStep_expireWindows (self : Gatekeeper) (peer : IpAddr) (t : ℕ) :
    RecordStep self peer (.expireWindows t) := by
  have hnext : machine.next self (.expireWindows t) = (self.expireWindows t).1 := rfl
  have hlookup := self.lookup_expireWindows peer t
  rw [← hnext] at hlookup
  cases hpeer : self.attempts.lookup peer with
  | none =>
    rw [hpeer] at hlookup
    exact .same (hlookup.trans hpeer.symm) rfl
  | some window =>
    rw [hpeer, Option.filter_some] at hlookup
    cases hkeeps : window.keeps t with
    | true =>
      rw [hkeeps, if_pos rfl] at hlookup
      exact .same (hlookup.trans hpeer.symm) rfl
    | false =>
      rw [hkeeps, if_neg Bool.false_ne_true] at hlookup
      exact .dropped ⟨window, hpeer, rfl, hkeeps⟩ hlookup rfl

/-- **One call and one address**, as long as it does not succeed. -/
theorem recordStep (self : Gatekeeper) {call : Call} (hcall : call ≠ .handshakeSucceeded peer) :
    RecordStep self peer call := by
  cases call with
  | admitPeer p t => exact self.recordStep_admitPeer peer p t
  | handshakeFailed p t => exact self.recordStep_handshakeFailed peer p t
  | handshakeSucceeded p =>
    have hne : peer ≠ p := fun h => hcall (h ▸ rfl)
    exact .same (AList.lookup_erase_ne hne) rfl
  | open_ device p role t =>
    cases hopen : self.open_ device p role t with
    | none =>
      have hstep := step_open_none hopen
      exact .same (by rw [Machine.next, hstep]) (by rw [Machine.out, hstep]; rfl)
    | some opened =>
      have hstep := step_open hopen
      exact .same (by rw [Machine.next, hstep, attempts_open hopen])
        (by rw [Machine.out, hstep]; rfl)
  | close id => exact .same rfl rfl
  | revokeDevice device =>
    exact .same (congrArg (AList.lookup peer) (self.attempts_revokeDevice device)) rfl
  | expireWindows t => exact self.recordStep_expireWindows peer t

/-! ### Until the ban is over -/

theorem banOf_count (self : Gatekeeper) (peer : IpAddr) (now : ℕ) :
    ((self.openWindow peer now).count now).bannedUntil =
      if helloAttemptsPerMin ≤ (self.openWindow peer now).failures + 1
      then some (now + banDuration) else self.banOf peer := by
  rw [← self.openWindow_bannedUntil peer now]
  rfl

theorem banOf_of_lookup {gate : Gatekeeper} {window : Window}
    (h : gate.attempts.lookup peer = some window) : gate.banOf peer = window.bannedUntil := by
  rw [banOf, h, Option.bind_some]

theorem banOf_congr {gate : Gatekeeper}
    (h : gate.attempts.lookup peer = self.attempts.lookup peer) :
    gate.banOf peer = self.banOf peer := by
  rw [banOf, h, banOf]

/-- No ban ends later than a minute after the latest call. -/
theorem banOf_run_le {calls : List Call} (hbefore : ∀ t ∈ calls.filterMap Call.now, t ≤ now) :
    ∀ until_ ∈ (machine.run new calls).banOf peer, until_ ≤ now + banDuration := by
  induction calls using List.reverseRecOn with
  | nil => exact fun until_ h => absurd h (by simp [banOf, new])
  | append_singleton calls call ih =>
    rw [List.filterMap_append, List.forall_mem_append] at hbefore
    have hkept := ih hbefore.1
    rw [Machine.run_concat]
    by_cases hcall : call = .handshakeSucceeded peer
    · subst hcall
      intro until_ h
      have hnone : (machine.next (machine.run new calls) (.handshakeSucceeded peer)).attempts.lookup
          peer = none := AList.lookup_erase _ _
      rw [banOf, hnone] at h
      cases h
    · intro until_ h
      cases (machine.run new calls).recordStep hcall with
      | same hsame =>
        rw [banOf_congr hsame] at h
        exact hkept until_ h
      | refused _ _ hsame =>
        rw [banOf_congr hsame] at h
        exact hkept until_ h
      | reset _ _ hnext =>
        rw [banOf_of_lookup hnext] at h
        cases h
      | @counted t hnext =>
        rw [banOf_of_lookup hnext, banOf_count] at h
        split_ifs at h with hfull
        · have ht : t ≤ now := hbefore.2 t (by simp [Call.now])
          rw [← Option.some.inj h]
          exact Nat.add_le_add_right ht _
        · exact hkept until_ h
      | dropped _ hnext =>
        rw [banOf, hnext] at h
        cases h

/-- Who is told of a ban has it in its record, and it is at most a minute away from the call. -/
theorem banOf_of_bannedBy {call : Call}
    (hban : bannedBy peer (call, machine.out self call) = some until_) :
    (machine.next self call).banOf peer = some until_ := by
  have hcall : call ≠ .handshakeSucceeded peer := by
    rintro rfl
    cases hban
  cases self.recordStep hcall with
  | refused _ hu hsame htold => rw [banOf_congr hsame, hu, ← htold, hban]
  | counted hnext htold =>
    rw [htold] at hban
    rw [banOf_of_lookup hnext, banOf_count]
    split_ifs at hban with hfull
    rw [if_pos hfull, hban]
  | same _ htold =>
    rw [htold] at hban
    cases hban
  | reset _ _ _ htold =>
    rw [htold] at hban
    cases hban
  | dropped _ _ htold =>
    rw [htold] at hban
    cases hban

/-- A ban outlasts every call before its end. -/
theorem banOf_next {call : Call} (hcall : call ≠ .handshakeSucceeded peer)
    (hstands : ∃ u, self.banOf peer = some u ∧ until_ ≤ u)
    (htime : ∀ t ∈ call.now, t < until_ ∧ until_ ≤ t + banDuration) :
    ∃ u, (machine.next self call).banOf peer = some u ∧ until_ ≤ u := by
  obtain ⟨u, hu, hle⟩ := hstands
  cases self.recordStep hcall with
  | same hsame => exact ⟨u, (banOf_congr hsame).trans hu, hle⟩
  | refused _ _ hsame => exact ⟨u, (banOf_congr hsame).trans hu, hle⟩
  | @reset t v hover hv =>
    obtain rfl : u = v := Option.some.inj (hu.symm.trans hv)
    have hbefore := (htime t rfl).1
    omega
  | @counted t hnext =>
    rw [banOf_of_lookup hnext, banOf_count]
    split_ifs with hfull
    · exact ⟨_, rfl, (htime t rfl).2⟩
    · exact ⟨u, hu, hle⟩
  | @dropped t hdrop =>
    -- a sweep keeps a record whose ban has not ended
    obtain ⟨window, hwindow, -, hkeeps⟩ := hdrop
    rw [banOf_of_lookup hwindow] at hu
    have hbefore := (htime t rfl).1
    rw [Window.keeps, hu, Option.any_some, decide_eq_true (by omega), Bool.true_or] at hkeeps
    cases hkeeps

/-- A ban outlasts every run before its end. -/
theorem banOf_run {calls : List Call} (hnever : ∀ call ∈ calls, call ≠ .handshakeSucceeded peer)
    (hstands : ∃ u, self.banOf peer = some u ∧ until_ ≤ u)
    (htimes : ∀ t ∈ calls.filterMap Call.now, t < until_ ∧ until_ ≤ t + banDuration) :
    ∃ u, (machine.run self calls).banOf peer = some u ∧ until_ ≤ u := by
  induction calls generalizing self with
  | nil => exact hstands
  | cons call calls ih =>
    refine ih (fun c hc => hnever c (List.mem_cons_of_mem call hc))
      (banOf_next (hnever call List.mem_cons_self) hstands fun t ht => ?_) fun t ht => ?_
    · exact htimes t (List.mem_filterMap.mpr ⟨call, List.mem_cons_self, ht⟩)
    · obtain ⟨c, hc, hnow⟩ := List.mem_filterMap.mp ht
      exact htimes t (List.mem_filterMap.mpr ⟨c, List.mem_cons_of_mem call hc, hnow⟩)

/-! ### After the ban is over -/

/-- A sweep among these calls forgets the record of the address. -/
def Drops (self : Gatekeeper) (peer : IpAddr) (calls : List Call) : Prop :=
  ∃ early t late, calls = early ++ .expireWindows t :: late ∧
    (machine.run self early).Restarts peer (.expireWindows t) t

/-- These are the calls after the last sweep that forgets the record of the address. -/
def SinceDrop (self : Gatekeeper) (peer : IpAddr) (calls late : List Call) : Prop :=
  ∃ early t, calls = early ++ .expireWindows t :: late ∧
    (machine.run self early).Restarts peer (.expireWindows t) t ∧
    ¬ Drops (machine.run self (early ++ [.expireWindows t])) peer late

theorem not_drops_concat {calls : List Call} {call : Call} (hcalls : ¬ Drops self peer calls)
    (hcall : ∀ t, call = .expireWindows t → ¬ (machine.run self calls).Restarts peer call t) :
    ¬ Drops self peer (calls ++ [call]) := by
  rintro ⟨early, t, late, hsplit, hdrop⟩
  rcases List.eq_nil_or_concat late with rfl | ⟨late, last, rfl⟩
  · obtain ⟨rfl, hlast⟩ := List.append_inj' hsplit rfl
    obtain rfl := List.singleton_inj.mp hlast
    exact hcall t rfl hdrop
  · rw [List.concat_eq_append, ← List.cons_append, ← List.append_assoc] at hsplit
    exact hcalls ⟨early, t, late, List.append_inj_left' hsplit rfl, hdrop⟩

/-- A call that forgets no record leaves the last sweep that did the last. -/
theorem SinceDrop.concat {calls late : List Call} (h : SinceDrop self peer calls late) {call : Call}
    (hcall : ∀ t, call = .expireWindows t → ¬ (machine.run self calls).Restarts peer call t) :
    SinceDrop self peer (calls ++ [call]) (late ++ [call]) := by
  obtain ⟨early, t, rfl, hdrop, hlast⟩ := h
  refine ⟨early, t, by simp, hdrop, not_drops_concat hlast ?_⟩
  rw [← Machine.run_append, List.append_assoc, List.singleton_append]
  exact hcall

/-- A sweep that forgets a record changes it. -/
theorem Restarts.lookup_ne (h : self.Restarts peer (.expireWindows now) now) :
    (machine.next self (.expireWindows now)).attempts.lookup peer ≠ self.attempts.lookup peer := by
  obtain ⟨window, hwindow, -, hkeeps⟩ := h
  have hnext : (machine.next self (.expireWindows now)).attempts.lookup peer =
      (self.attempts.lookup peer).filter fun window => window.keeps now :=
    self.lookup_expireWindows peer now
  rw [hnext, hwindow, Option.filter_some, hkeeps]
  exact (Option.some_ne_none window).symm

/-- The calls after a ban was told of, none of which sets another or admits the address: the ban is
still in the record, or a sweep dropped the record and what is counted are failures since the last
one that did. -/
theorem record_of_over {calls : List Call} (hban : self.banOf peer = some until_)
    (hnever : ∀ call ∈ calls, call ≠ .handshakeSucceeded peer)
    (hnot : ∀ t, .admitPeer peer t ∉ calls)
    (hquiet : ∀ asked ∈ machine.trace self calls, bannedBy peer asked = none) :
    (machine.run self calls).banOf peer = some until_ ∨
      ∃ late, SinceDrop self peer calls late ∧ (machine.run self calls).banOf peer = none ∧
        (machine.run self calls).failures peer ≤ late.countP (Call.fails peer) := by
  induction calls using List.reverseRecOn with
  | nil => exact .inl hban
  | append_singleton calls call ih =>
    rw [Machine.trace_append, List.forall_mem_append] at hquiet
    have hcall := hnever call (by simp)
    have htold := hquiet.2 (call, machine.out (machine.run self calls) call) (by simp)
    have hbefore := ih (fun c hc => hnever c (List.mem_append_left _ hc))
      (fun t ht => hnot t (List.mem_append_left _ ht)) hquiet.1
    rw [Machine.run_concat]
    cases (machine.run self calls).recordStep hcall with
    | same hsame =>
      rcases hbefore with hstands | ⟨late, hsince, hnone, hle⟩
      · exact .inl ((banOf_congr hsame).trans hstands)
      · refine .inr ⟨late ++ [call], hsince.concat ?_, (banOf_congr hsame).trans hnone, ?_⟩
        · rintro t rfl hdrop
          exact hdrop.lookup_ne hsame
        rw [failures, hsame, ← failures, List.countP_append]
        exact hle.trans (Nat.le_add_right _ _)
    | @refused t => exact absurd (by simp) (hnot t)
    | @reset t => exact absurd (by simp) (hnot t)
    | @counted t hnext hanswer =>
      -- the failure is answered `Ok`
      have hroom : ¬ helloAttemptsPerMin ≤
          ((machine.run self calls).openWindow peer t).failures + 1 := by
        intro hfull
        rw [hanswer, if_pos hfull] at htold
        cases htold
      have hkept : (machine.next (machine.run self calls) (.handshakeFailed peer t)).banOf peer =
          (machine.run self calls).banOf peer := by
        rw [banOf_of_lookup hnext, banOf_count, if_neg hroom]
      rw [hkept]
      rcases hbefore with hstands | ⟨late, hsince, hnone, hle⟩
      · exact .inl hstands
      · refine .inr ⟨late ++ [.handshakeFailed peer t], hsince.concat (by simp), hnone, ?_⟩
        have hone : [Call.handshakeFailed peer t].countP (Call.fails peer) = 1 := by
          simp [Call.fails]
        rw [failures, hnext, List.countP_append, hone]
        exact Nat.succ_le_succ ((openWindow_failures_le _ peer t).trans hle)
    | @dropped t hdrop hnext =>
      refine .inr ⟨[], ⟨calls, t, rfl, hdrop, by simp [Drops]⟩, ?_, ?_⟩
      · rw [banOf, hnext]
        rfl
      · rw [failures, hnext]
        exact le_rfl

/-- An address without a ban is told of none before its failures fill a window. -/
theorem bannedBy_eq_none {calls : List Call} (hban : self.banOf peer = none)
    (hroom : self.failures peer + calls.countP (Call.fails peer) < helloAttemptsPerMin) :
    ∀ asked ∈ machine.trace self calls, bannedBy peer asked = none := by
  induction calls generalizing self with
  | nil => exact fun asked h => absurd h List.not_mem_nil
  | cons call calls ih =>
    rw [List.countP_cons] at hroom
    rw [Machine.trace_cons, List.forall_mem_cons]
    have hforgotten : (machine.next self call).attempts.lookup peer = none →
        ∀ asked ∈ machine.trace (machine.next self call) calls, bannedBy peer asked = none := by
      intro hnone
      have hzero : (machine.next self call).failures peer = 0 := by
        rw [failures, hnone]
        rfl
      refine ih (by rw [banOf, hnone]; rfl) ?_
      rw [hzero]
      omega
    by_cases hcall : call = .handshakeSucceeded peer
    · subst hcall
      exact ⟨rfl, hforgotten (AList.lookup_erase _ _)⟩
    · cases self.recordStep hcall with
      | same hsame htold =>
        refine ⟨htold, ih ((banOf_congr hsame).trans hban) ?_⟩
        rw [failures, hsame, ← failures]
        omega
      | refused _ hu =>
        rw [hban] at hu
        cases hu
      | reset _ hu =>
        rw [hban] at hu
        cases hu
      | @counted t hnext htold =>
        have hle := self.openWindow_failures_le peer t
        rw [if_pos (by simp [Call.fails])] at hroom
        have hopen : ¬ helloAttemptsPerMin ≤ (self.openWindow peer t).failures + 1 := by omega
        rw [htold, if_neg hopen]
        refine ⟨rfl, ih ?_ ?_⟩
        · rw [banOf_of_lookup hnext, banOf_count, if_neg hopen, hban]
        · have hcount : (machine.next self (.handshakeFailed peer t)).failures peer =
              (self.openWindow peer t).failures + 1 := by
            rw [failures, hnext]
            rfl
          rw [hcount]
          omega
      | dropped _ hnext htold => exact ⟨htold, hforgotten hnext⟩

/-! ### The result -/

theorem now_of_bannedBy {call : Call} {answer : Answer}
    (hban : bannedBy peer (call, answer) = some until_) : ∃ t, call.now = some t := by
  rw [bannedBy.eq_def] at hban
  split at hban
  · rename_i p t u heq
    exact ⟨t, by rw [(Prod.mk.inj heq).1]; rfl⟩
  · rename_i p t u heq
    exact ⟨t, by rw [(Prod.mk.inj heq).1]; rfl⟩
  · cases hban

/-- From the call that told of a ban on, it ends at most a minute later. -/
theorem le_of_bannedBy {pre mid : List Call} {ban : Call}
    (htimely : Timely (pre ++ ban :: mid))
    (hban : bannedBy peer (ban, machine.out (machine.run new pre) ban) = some until_) :
    ∀ t ∈ mid.filterMap Call.now, until_ ≤ t + banDuration := by
  obtain ⟨t, hnow⟩ := now_of_bannedBy hban
  have hstands := banOf_of_bannedBy hban
  rw [List.append_cons] at htimely
  rw [← Machine.run_concat] at hstands
  have hend : until_ ≤ t + banDuration := by
    refine banOf_run_le (fun u hu => ?_) until_ hstands
    rw [times_concat hnow, List.mem_append, List.mem_singleton] at hu
    rcases hu with hu | rfl
    · exact htimely.left.le_last hnow u hu
    · exact le_rfl
  rw [Timely, List.filterMap_append, List.pairwise_append, times_concat hnow] at htimely
  intro u hu
  have hle := htimely.2.2 t (by simp) u hu
  omega

/-- Before the end of a ban the address is refused. -/
theorem out_admitPeer_of_lt {calls : List Call} (hstands : self.banOf peer = some until_)
    (hnever : ∀ call ∈ calls, call ≠ .handshakeSucceeded peer)
    (htimes : ∀ t ∈ calls.filterMap Call.now, t < until_ ∧ until_ ≤ t + banDuration)
    (hsoon : now < until_) :
    ∃ later, until_ ≤ later ∧
      machine.out (machine.run self calls) (.admitPeer peer now) = .admitPeer (.banned later) := by
  obtain ⟨u, hu, hle⟩ := banOf_run hnever ⟨until_, hstands, le_rfl⟩ htimes
  have hout : machine.out (machine.run self calls) (.admitPeer peer now) =
      .admitPeer ((machine.run self calls).admitPeer peer now).2 := rfl
  refine ⟨u, hle, ?_⟩
  rw [hout, admitPeer_eq, hu]
  dsimp only
  rw [if_pos (by omega)]

/-- An address whose ban is over is let in, and told of none before its failures fill a window: all
of them if the ban was in its record, and otherwise those it has left. -/
theorem admitPeer_of_over {k : ℕ} (hover : ∀ u ∈ self.banOf peer, u ≤ now)
    (hleft : self.banOf peer = none → self.failures peer ≤ k) :
    machine.out self (.admitPeer peer now) = .admitPeer .ok ∧
      ∀ later : List Call, later.countP (Call.fails peer) + k < helloAttemptsPerMin →
        ∀ asked ∈ machine.trace (machine.next self (.admitPeer peer now)) later,
          bannedBy peer asked = none := by
  have hout : machine.out self (.admitPeer peer now) = .admitPeer (self.admitPeer peer now).2 := rfl
  have hnext : machine.next self (.admitPeer peer now) = (self.admitPeer peer now).1 := rfl
  rw [hout, hnext, admitPeer_eq]
  cases hban : self.banOf peer with
  | none =>
    have hle := hleft hban
    refine ⟨rfl, fun later hroom => bannedBy_eq_none hban ?_⟩
    dsimp only
    omega
  | some u =>
    have hle := hover u hban
    dsimp only
    rw [if_neg (by omega)]
    refine ⟨rfl, fun later hroom => bannedBy_eq_none ?_ ?_⟩
    · rw [banOf, lookup_setWindow, if_pos rfl]
      rfl
    · rw [failures_setWindow, if_pos rfl]
      dsimp only
      omega

/-- **A ban is kept to its end.** After an address was told of a ban, in a run whose instants do not
decrease and in which it does not succeed, it is refused before that end, and never told of an
earlier one. At its first `admit` after the last ban has run out it is let in, and not told of a
ban before it has used up its allowance, less the failures after the last sweep that dropped its
record. -/
theorem ban_kept {pre mid : List Call} {ban : Call}
    (htimely : Timely (pre ++ ban :: mid ++ [.admitPeer peer now]))
    (hban : bannedBy peer (ban, machine.out (machine.run new pre) ban) = some until_)
    (hnever : ∀ call ∈ mid, call ≠ .handshakeSucceeded peer) :
    (now < until_ → ∃ later, until_ ≤ later ∧
      machine.out (machine.run new (pre ++ ban :: mid)) (.admitPeer peer now) =
        .admitPeer (.banned later)) ∧
    (until_ ≤ now → (∀ t, .admitPeer peer t ∉ mid) →
      (∀ asked ∈ machine.trace (machine.run new (pre ++ [ban])) mid,
        bannedBy peer asked = none) →
      machine.out (machine.run new (pre ++ ban :: mid)) (.admitPeer peer now) = .admitPeer .ok ∧
      ∀ k, (∀ late, SinceDrop (machine.run new (pre ++ [ban])) peer mid late →
          late.countP (Call.fails peer) ≤ k) →
        ∀ later : List Call, later.countP (Call.fails peer) + k < helloAttemptsPerMin →
          ∀ asked ∈ machine.trace
            (machine.run new (pre ++ ban :: mid ++ [.admitPeer peer now])) later,
            bannedBy peer asked = none) := by
  -- From the call that told of the ban on, the run is one of its own.
  have hstands := banOf_of_bannedBy hban
  have hsplit : ∀ calls, machine.run new (pre ++ ban :: calls) =
      machine.run (machine.next (machine.run new pre) ban) calls := by
    intro calls
    rw [Machine.run_append, Machine.run_cons]
  rw [hsplit mid, Machine.run_concat machine new (pre ++ ban :: mid), hsplit mid,
    Machine.run_concat machine new pre]
  constructor
  · intro hsoon
    refine out_admitPeer_of_lt hstands hnever (fun t ht => ?_) hsoon
    refine ⟨(htimely.le_last rfl t ?_).trans_lt hsoon, le_of_bannedBy htimely.left hban t ht⟩
    rw [List.filterMap_append, List.mem_append]
    refine .inr ?_
    obtain ⟨call, hcall, hnow⟩ := List.mem_filterMap.mp ht
    exact List.mem_filterMap.mpr ⟨call, List.mem_cons_of_mem ban hcall, hnow⟩
  · intro hover hnot hquiet
    rcases record_of_over hstands hnever hnot hquiet with
      hkept | ⟨late, hsince, hnone, hle⟩
    · have hends : ∀ u ∈ (machine.run (machine.next (machine.run new pre) ban) mid).banOf peer,
          u ≤ now := by
        intro u hu
        rw [hkept] at hu
        exact Option.some.inj hu ▸ hover
      have hnot : (machine.run (machine.next (machine.run new pre) ban) mid).banOf peer ≠ none := by
        rw [hkept]
        exact Option.some_ne_none _
      exact ⟨(admitPeer_of_over (k := 0) hends fun h => absurd h hnot).1,
        fun k _ => (admitPeer_of_over hends fun h => absurd h hnot).2⟩
    · have hends : ∀ u ∈ (machine.run (machine.next (machine.run new pre) ban) mid).banOf peer,
          u ≤ now := by
        intro u hu
        rw [hnone] at hu
        cases hu
      refine ⟨(admitPeer_of_over hends fun _ => hle).1, fun k hk => ?_⟩
      exact (admitPeer_of_over hends fun _ => hle.trans (hk late hsince)).2

/-- Four failures at the same instant. -/
private def fourFailures : List Call := List.replicate 4 (.handshakeFailed attacker 0)

/-- A connection still in flight fails after the ban of the other five, sweeps go by, and so do two
more such failures. -/
private def inFlight : List Call :=
  [.handshakeFailed attacker 61000000000, .expireWindows 122000000000,
    .handshakeFailed attacker 125000000000, .expireWindows 190000000000,
    .handshakeFailed attacker 191000000000]

/-- A fifth failure after 50 seconds bans the address for a minute: whatever fails meanwhile, it is
refused until then. The second sweep is the last to forget the record, so the address has its whole
allowance less the one failure after that. -/
theorem ban_kept_minute :
    (∃ later, 110000000000 ≤ later ∧
      machine.out (machine.run new (fourFailures ++ .handshakeFailed attacker 50000000000 ::
          [.handshakeFailed attacker 61000000000, .expireWindows 100000000000]))
        (.admitPeer attacker 109000000000) = .admitPeer (.banned later)) ∧
    machine.out
        (machine.run new (fourFailures ++ .handshakeFailed attacker 50000000000 :: inFlight))
        (.admitPeer attacker 192000000000) = .admitPeer .ok ∧
    ∀ later : List Call, later.countP (Call.fails attacker) + 1 < helloAttemptsPerMin →
      ∀ asked ∈ machine.trace
        (machine.run new (fourFailures ++ .handshakeFailed attacker 50000000000 :: inFlight ++
          [.admitPeer attacker 192000000000])) later, bannedBy attacker asked = none := by
  have hban : bannedBy attacker (.handshakeFailed attacker 50000000000, machine.out
      (machine.run new fourFailures) (.handshakeFailed attacker 50000000000)) =
        some 110000000000 := by decide
  refine ⟨?_, ?_⟩
  · exact (ban_kept (by decide) hban (by decide)).1 (by decide)
  · obtain ⟨hadmitted, hallowance⟩ := (@ban_kept attacker 192000000000 _ _ inFlight _
      (by decide) hban (by decide)).2 (by decide) (by simp [inFlight]) (by decide)
    refine ⟨hadmitted, hallowance 1 ?_⟩
    rintro late ⟨early, t, hsplit, -, hlast⟩
    obtain ⟨_, rfl, ⟨rfl, rfl, rfl⟩ | ⟨rfl, rfl, rfl⟩⟩ :
        ∃ rest, early = .handshakeFailed attacker 61000000000 :: rest ∧
          (rest = [] ∧ t = 122000000000 ∧ late = inFlight.drop 2 ∨
            rest = [.expireWindows 122000000000, .handshakeFailed attacker 125000000000] ∧
              t = 190000000000 ∧ late = inFlight.drop 4) := by
      simpa [inFlight, List.cons_eq_append_iff] using hsplit
    -- the first sweep is not the last to forget the record
    · exact absurd ⟨[.handshakeFailed attacker 125000000000], 190000000000,
        [.handshakeFailed attacker 191000000000], rfl, by decide⟩ hlast
    · decide

/-- The ban of five failures is over after a minute, and a sweep a second later forgets it. One more
failure a second after that, and the address is admitted with four attempts left, not five. -/
theorem allowance_not_whole :
    let ban : Call := .handshakeFailed attacker 0
    let mid : List Call := [.expireWindows 61000000000, .handshakeFailed attacker 62000000000]
    Timely (fourFailures ++ ban :: mid ++ [.admitPeer attacker 63000000000]) ∧
      bannedBy attacker (ban, machine.out (machine.run new fourFailures) ban) =
        some 60000000000 ∧
      (∀ asked ∈ machine.trace (machine.run new (fourFailures ++ [ban])) mid,
        bannedBy attacker asked = none) ∧
      machine.out (machine.run new (fourFailures ++ ban :: mid))
        (.admitPeer attacker 63000000000) = .admitPeer .ok ∧
      ∃ asked ∈ machine.trace
        (machine.run new (fourFailures ++ ban :: mid ++ [.admitPeer attacker 63000000000]))
        (List.replicate 4 (.handshakeFailed attacker 63000000000)),
        bannedBy attacker asked = some 123000000000 := by
  refine ⟨by decide, by decide, by decide, rfl, by decide⟩

end Gatekeeper

end MoonCore
