import MoonCore.Wire.Admission

/-!
# The table of live sessions

What `open`, `close` and `revoke_device` do to the table, over whole runs: no device holds more than
`MAX_SESSIONS` sessions, ids are not reused, and each call takes out exactly the sessions it answers
with (`Gatekeeper.session_table`).
-/

namespace MoonCore

namespace Gatekeeper

variable {self : Gatekeeper} {device : DeviceId} {id : SessionId} {s : LiveSession}

/-! ### Looking sessions up -/

theorem get_remove (self : Gatekeeper) (id other : SessionId) :
    (self.remove id).get other = if other = id then none else self.get other := by
  rw [get, remove]
  split
  · rename_i h
    rw [h, AList.lookup_erase]
  · rename_i h
    rw [AList.lookup_erase_ne h, get]

theorem get_add (self : Gatekeeper) (s : LiveSession) (other : SessionId) :
    (self.add s).get other = if other = s.id then some s else self.get other := by
  rw [get, add]
  split
  · rename_i h
    rw [h, AList.lookup_insert]
  · rename_i h
    rw [AList.lookup_insert_ne h, get]

theorem id_of_get (h : self.get id = some s) : s.id = id := self.keyed id s h

theorem mem_held : s ∈ self.held device ↔ self.get s.id = some s ∧ s.device = device := by
  rw [held, List.mem_filter, List.mem_map, decide_eq_true_eq]
  refine and_congr_left fun _ => ?_
  constructor
  · rintro ⟨⟨id, s⟩, hmem, rfl⟩
    have hget : self.get id = some s := AList.mem_lookup_iff.mpr hmem
    rwa [id_of_get hget]
  · intro hget
    exact ⟨⟨s.id, s⟩, AList.mem_lookup_iff.mp hget, rfl⟩

theorem nodup_sessionsOf (self : Gatekeeper) (device : DeviceId) :
    (self.sessionsOf device).Nodup := by
  have hids : (self.sessions.entries.map Sigma.snd).map LiveSession.id = self.sessions.keys := by
    rw [List.map_map]
    refine List.map_congr_left fun entry hmem => ?_
    exact id_of_get (AList.mem_lookup_iff.mpr hmem)
  have hnodup : ((self.sessions.entries.map Sigma.snd).map LiveSession.id).Nodup :=
    hids ▸ self.sessions.keys_nodup
  rw [sessionsOf, (List.mergeSort_perm _ _).nodup_iff]
  exact hnodup.sublist (List.filter_sublist.map _)

theorem mem_sessionsOf :
    id ∈ self.sessionsOf device ↔ ∃ s, self.get id = some s ∧ s.device = device := by
  rw [sessionsOf, List.mem_mergeSort, List.mem_map]
  constructor
  · rintro ⟨s, hs, rfl⟩
    exact ⟨s, mem_held.mp hs⟩
  · rintro ⟨s, hget, hdevice⟩
    have hid := id_of_get hget
    subst hid
    exact ⟨s, mem_held.mpr ⟨hget, hdevice⟩, rfl⟩

theorem length_sessionsOf (self : Gatekeeper) (device : DeviceId) :
    (self.sessionsOf device).length = (self.held device).length := by
  rw [sessionsOf, List.length_mergeSort, List.length_map]

/-- Taking a session out makes its device hold one less. -/
theorem length_sessionsOf_remove (hget : self.get s.id = some s) (hdevice : s.device = device) :
    (self.sessionsOf device).length = ((self.remove s.id).sessionsOf device).length + 1 := by
  have hperm : (self.sessionsOf device).Perm (s.id :: (self.remove s.id).sessionsOf device) := by
    refine (List.perm_ext_iff_of_nodup (nodup_sessionsOf _ _) ?_).mpr fun id => ?_
    · refine List.nodup_cons.mpr ⟨fun hmem => ?_, nodup_sessionsOf _ _⟩
      obtain ⟨t, ht, -⟩ := mem_sessionsOf.mp hmem
      rw [get_remove, if_pos rfl] at ht
      exact absurd ht (by simp)
    · rw [List.mem_cons, mem_sessionsOf, mem_sessionsOf, get_remove]
      by_cases hid : id = s.id
      · subst hid
        simp only [hget, true_or, iff_true]
        exact ⟨s, rfl, hdevice⟩
      · simp [hid]
  exact hperm.length_eq

/-- Putting a new session in makes its device hold one more. -/
theorem length_sessionsOf_add (hnew : self.get s.id = none) :
    ((self.add s).sessionsOf s.device).length = (self.sessionsOf s.device).length + 1 := by
  have hperm : ((self.add s).sessionsOf s.device).Perm (s.id :: self.sessionsOf s.device) := by
    refine (List.perm_ext_iff_of_nodup (nodup_sessionsOf _ _) ?_).mpr fun id => ?_
    · refine List.nodup_cons.mpr ⟨fun hmem => ?_, nodup_sessionsOf _ _⟩
      obtain ⟨t, ht, -⟩ := mem_sessionsOf.mp hmem
      exact absurd (hnew.symm.trans ht) (by simp)
    · rw [List.mem_cons, mem_sessionsOf, mem_sessionsOf, get_add]
      by_cases hid : id = s.id
      · simp [hid]
      · simp [hid]
  exact hperm.length_eq

/-- A table in which a device's sessions are all in another has no more of them. -/
theorem length_sessionsOf_le {gate : Gatekeeper}
    (h : ∀ id s, gate.get id = some s → s.device = device → self.get id = some s) :
    (gate.sessionsOf device).length ≤ (self.sessionsOf device).length := by
  refine (List.subperm_of_subset (nodup_sessionsOf _ _) fun id hid => ?_).length_le
  obtain ⟨s, hget, hdevice⟩ := mem_sessionsOf.mp hid
  exact mem_sessionsOf.mpr ⟨s, h id s hget hdevice, hdevice⟩

/-! ### The loop of `open` -/

theorem age_lt_iff {s t : LiveSession} :
    s.age < t.age ↔
      s.openedAt < t.openedAt ∨
        s.openedAt = t.openedAt ∧ s.id.number.toNat < t.id.number.toNat := by
  rw [LiveSession.age, LiveSession.age, Prod.Lex.toLex_lt_toLex]

/-- Sessions of different ids are of different ages. -/
theorem age_lt_of_le {s t : LiveSession} (h : s.age ≤ t.age) (hne : s.id ≠ t.id) :
    s.age < t.age := by
  refine lt_of_le_of_ne h fun heq => hne ?_
  have hpair := Prod.mk.inj (toLex.injective heq)
  have hnumber : s.id.number = t.id.number := UInt64.toNat_inj.mp hpair.2
  exact SessionId.mk.injEq _ _ ▸ hnumber

/-- What the loop does: it closes the oldest sessions of the device, as many as it has too many. -/
structure Capped (device : DeviceId) (before after : Gatekeeper) (gone : List LiveSession) :
    Prop where
  length_gone : gone.length = (before.sessionsOf device).length - maxSessions
  length_after : (after.sessionsOf device).length =
    min (before.sessionsOf device).length maxSessions
  nodup : (gone.map LiveSession.id).Nodup
  held : ∀ s ∈ gone, before.get s.id = some s ∧ s.device = device
  oldest : ∀ s ∈ gone, ∀ t, after.get t.id = some t → t.device = device → s.age < t.age
  get : ∀ id, after.get id = if id ∈ gone.map LiveSession.id then none else before.get id
  nextSession : after.nextSession = before.nextSession

/-- Nothing to close. -/
theorem capped_nil (h : (self.sessionsOf device).length ≤ maxSessions) :
    Capped device self self [] where
  length_gone := by
    rw [List.length_nil]
    omega
  length_after := by omega
  nodup := List.nodup_nil
  held _ h := absurd h List.not_mem_nil
  oldest _ h := absurd h List.not_mem_nil
  get _ := by simp
  nextSession := rfl

/-- One turn more. -/
theorem Capped.cons {oldest : LiveSession} {after : Gatekeeper} {gone : List LiveSession}
    (hover : maxSessions < (self.sessionsOf device).length)
    (hget : self.get oldest.id = some oldest) (hdevice : oldest.device = device)
    (hmin : ∀ t ∈ self.held device, oldest.age ≤ t.age)
    (h : Capped device (self.remove oldest.id) after gone) :
    Capped device self after (oldest :: gone) := by
  have hlength := length_sessionsOf_remove hget hdevice
  have hgone := h.length_gone
  have hafter := h.length_after
  -- The later turns begin with it out of the table, and take out only what is in.
  have hfresh : oldest.id ∉ gone.map LiveSession.id := by
    intro hmem
    obtain ⟨s, hs, hid⟩ := List.mem_map.mp hmem
    have hout := (h.held s hs).1
    rw [get_remove, if_pos hid] at hout
    exact absurd hout (by simp)
  refine ⟨?_, by omega, List.nodup_cons.mpr ⟨hfresh, h.nodup⟩, ?_, ?_, fun id => ?_, ?_⟩
  · rw [List.length_cons]
    omega
  · intro s hs
    obtain rfl | hs := List.mem_cons.mp hs
    · exact ⟨hget, hdevice⟩
    · obtain ⟨hout, hsdev⟩ := h.held s hs
      rw [get_remove, Option.ite_none_left_eq_some] at hout
      exact ⟨hout.2, hsdev⟩
  · intro s hs t ht htdev
    obtain rfl | hs := List.mem_cons.mp hs
    -- what stays to the end was there at this turn, and is not the one taken out
    · have hkept := (Option.ite_none_left_eq_some.mp ((h.get t.id).symm.trans ht)).2
      rw [get_remove, Option.ite_none_left_eq_some] at hkept
      exact age_lt_of_le (hmin t (mem_held.mpr ⟨hkept.2, htdev⟩)) (Ne.symm hkept.1)
    · exact h.oldest s hs t ht htdev
  · rw [h.get, get_remove, List.map_cons]
    by_cases hid : id = oldest.id
    · simp [hid]
    · simp [hid]
  · rw [h.nextSession]
    rfl

/-- The loop ends by its own test, and what it closes is what `Capped` says. -/
theorem closeOldest_spec (device : DeviceId) (turns : ℕ) (self : Gatekeeper)
    (closed : List Closed)
    (hturns : (self.sessionsOf device).length ≤ maxSessions + turns) :
    ∃ gone : List LiveSession,
      Capped device self (closeOldest device turns (self, closed)).1 gone ∧
      (closeOldest device turns (self, closed)).2 =
        closed ++ gone.map fun s => ⟨s.id, .tooManySessions⟩ := by
  induction turns generalizing self closed with
  | zero => exact ⟨[], capped_nil hturns, (List.append_nil _).symm⟩
  | succ turns ih =>
    rw [closeOldest]
    split
    · rename_i hover
      cases hmin : (self.held device).argmin LiveSession.age with
      | none =>
        rw [List.argmin_eq_none] at hmin
        rw [sessionsOf, hmin] at hover
        exact absurd hover (by simp)
      | some oldest =>
        obtain ⟨hget, hdevice⟩ := mem_held.mp (List.argmin_mem hmin)
        have hlength := length_sessionsOf_remove hget hdevice
        obtain ⟨gone, hcapped, hclosed⟩ := ih (self.remove oldest.id)
          (closed ++ [⟨oldest.id, .tooManySessions⟩]) (by omega)
        refine ⟨oldest :: gone, ?_, ?_⟩
        · exact hcapped.cons hover hget hdevice fun t ht => List.le_of_mem_argmin ht hmin
        · rw [hclosed, List.append_assoc]
          rfl
    · rename_i hunder
      exact ⟨[], capped_nil (by omega), (List.append_nil _).symm⟩

/-! ### The calls -/

/-- What a run knows of its table. -/
structure Tabled (calls : List Call) (gate : Gatekeeper) : Prop where
  cap : ∀ device, (gate.sessionsOf device).length ≤ maxSessions
  numbered : ∀ id s, gate.get id = some s → id.number.toNat < gate.nextSession.toNat
  opened : ∀ id s, gate.get id = some s → s.openedAt ∈ calls.filterMap Call.now

/-- What opening a session does to the table: `closed` are the sessions that make room for it. -/
structure Opened (before after : Gatekeeper) (session : LiveSession) (closed : List Closed) :
    Prop where
  id_eq : session.id = ⟨before.nextSession⟩
  live : after.get session.id = some session
  /-- As many are closed as it takes to get back to the limit, -/
  length_closed : closed.length = (before.sessionsOf session.device).length + 1 - maxSessions
  /-- each once, -/
  nodup_closed : (closed.map Closed.id).Nodup
  /-- and they are the device's oldest. -/
  oldest : ∀ c ∈ closed, c.reason = .tooManySessions ∧ ∃ s, before.get c.id = some s ∧
    s.device = session.device ∧
    ∀ t, after.get t.id = some t → t.device = session.device → s.age < t.age
  get : ∀ other, other ≠ session.id → after.get other =
    if other ∈ closed.map Closed.id then none else before.get other
  others : ∀ other s, s.device ≠ session.device →
    (after.get other = some s ↔ before.get other = some s)

/-- What a call does to the table, and what it answers. An `open` gives a session as long as there
is an id for the next one. -/
def TableStep (before after : Gatekeeper) (call : Call) (answer : Answer) : Prop :=
  match call with
  | .open_ device peer role now =>
    (before.nextSession.toNat + 1 < 2 ^ 64 ∧ ∃ id closed, answer = .opened id closed ∧
      Opened before after ⟨id, device, peer, role, now⟩ closed) ∨
    (before.nextSession.toNat + 1 = 2 ^ 64 ∧ answer = .overflow ∧
      ∀ id, after.get id = before.get id)
  | .close id =>
    answer = .closed (before.get id).isSome ∧
    ∀ other, after.get other = if other = id then none else before.get other
  | .revokeDevice device =>
    ∃ closed, answer = .revoked closed ∧
    (closed.map Closed.id).Nodup ∧ (∀ c ∈ closed, c.reason = .revoked) ∧
    (∀ id, id ∈ closed.map Closed.id ↔ ∃ s, before.get id = some s ∧ s.device = device) ∧
    (∀ id, after.get id = if id ∈ closed.map Closed.id then none else before.get id) ∧
    ∀ id s, s.device ≠ device → (after.get id = some s ↔ before.get id = some s)
  | .admitPeer .. | .handshakeFailed .. | .handshakeSucceeded .. | .expireWindows .. =>
    ∀ id, after.get id = before.get id

variable {calls : List Call} {peer : IpAddr} {role : Role} {now : ℕ}

theorem tabled_new : Tabled [] new where
  cap device := by simp [sessionsOf, held, new]
  numbered id s h := by simp [get, new] at h
  opened id s h := by simp [get, new] at h

/-- A call that only takes sessions out keeps what is known of the table. -/
theorem Tabled.of_get_imp {gate : Gatekeeper} {call : Call} (h : Tabled calls self)
    (hget : ∀ id s, gate.get id = some s → self.get id = some s)
    (hnext : gate.nextSession = self.nextSession) : Tabled (calls ++ [call]) gate where
  cap device := (length_sessionsOf_le fun id s hs _ => hget id s hs).trans (h.cap device)
  numbered id s hs := hnext ▸ h.numbered id s (hget id s hs)
  opened id s hs := by
    rw [List.filterMap_append]
    exact List.mem_append_left _ (h.opened id s (hget id s hs))

/-- Taking out sessions of one device leaves those of the others. -/
theorem get_iff_of_device_ne {gate : Gatekeeper} {ids : List SessionId}
    (hget : ∀ id, gate.get id = if id ∈ ids then none else self.get id)
    (hids : ∀ id ∈ ids, ∃ t, self.get id = some t ∧ t.device = device) (hs : s.device ≠ device) :
    gate.get id = some s ↔ self.get id = some s := by
  rw [hget]
  split
  · rename_i hmem
    obtain ⟨t, ht, hdevice⟩ := hids id hmem
    refine iff_of_false (by simp) fun hself => hs ?_
    rw [ht, Option.some.injEq] at hself
    rw [← hself, hdevice]
  · rfl

/-- The loop never closes the session that is younger than every other. -/
theorem Capped.newest_notMem {gate after : Gatekeeper} {gone : List LiveSession}
    {newest : LiveSession} (h : Capped device gate after gone)
    (hnewest : ∀ t, gate.get t.id = some t → t = newest ∨ t.id ≠ newest.id ∧ t.age < newest.age) :
    newest.id ∉ gone.map LiveSession.id := by
  intro hmem
  obtain ⟨s, hs, hid⟩ := List.mem_map.mp hmem
  have hlength := h.length_gone
  have hafter := h.length_after
  have hpos := List.length_pos_of_mem hs
  -- The device is back at its limit, so it still holds a session.
  have hheld : 0 < (after.sessionsOf device).length := by
    have hmax : maxSessions = 4 := rfl
    omega
  obtain ⟨id, hmem'⟩ := List.exists_mem_of_length_pos hheld
  obtain ⟨t, ht, htdev⟩ := mem_sessionsOf.mp hmem'
  have htid := id_of_get ht
  subst htid
  have hyounger := h.oldest s hs t ht htdev
  obtain ⟨hkept, htget⟩ := Option.ite_none_left_eq_some.mp ((h.get t.id).symm.trans ht)
  obtain rfl | ⟨-, hless⟩ := hnewest t htget
  · exact hkept hmem
  · obtain rfl | ⟨hne, -⟩ := hnewest s (h.held s hs).1
    · exact lt_asymm hless hyounger
    · exact hne hid

/-- A session that is put in, followed by the loop, is what `open` promises. -/
theorem Capped.opened {full after : Gatekeeper} {gone : List LiveSession}
    {session : LiveSession} (h : Capped session.device full after gone)
    (hid : session.id = ⟨self.nextSession⟩) (hnew : self.get session.id = none)
    (hget : ∀ id, full.get id = if id = session.id then some session else self.get id)
    (hlength : (full.sessionsOf session.device).length =
      (self.sessionsOf session.device).length + 1)
    (hkept : session.id ∉ gone.map LiveSession.id) :
    Opened self after session (gone.map fun s => ⟨s.id, .tooManySessions⟩) := by
  have hids : (gone.map fun s => (⟨s.id, .tooManySessions⟩ : Closed)).map Closed.id =
      gone.map LiveSession.id := by
    rw [List.map_map]
    rfl
  have hheld : ∀ s ∈ gone, self.get s.id = some s ∧ s.device = session.device := by
    intro s hs
    obtain ⟨hfull, hdevice⟩ := h.held s hs
    have hne : s.id ≠ session.id := fun heq => hkept (heq ▸ List.mem_map_of_mem hs)
    rw [hget, if_neg hne] at hfull
    exact ⟨hfull, hdevice⟩
  refine ⟨hid, ?_, ?_, hids ▸ h.nodup, ?_, fun other hne => ?_, fun other s hs => ?_⟩
  · rw [h.get, if_neg hkept, hget, if_pos rfl]
  · rw [List.length_map, h.length_gone, hlength]
  · intro c hc
    obtain ⟨s, hs, rfl⟩ := List.mem_map.mp hc
    exact ⟨rfl, s, (hheld s hs).1, (hheld s hs).2, h.oldest s hs⟩
  · rw [hids, h.get, hget, if_neg hne]
  · have hsame : after.get other = some s ↔ full.get other = some s := by
      refine get_iff_of_device_ne h.get (fun id hmem => ?_) hs
      obtain ⟨t, ht, rfl⟩ := List.mem_map.mp hmem
      exact ⟨t, h.held t ht⟩
    rw [hsame, hget]
    split
    · rename_i hother
      subst hother
      rw [hnew]
      -- the new session is of this device, and there was none of its id before
      refine iff_of_false (fun hopened => hs ?_) (by simp)
      rw [← Option.some.inj hopened]
    · rfl

/-- What `open` does, in a table whose sessions were opened no later. -/
theorem open_spec (h : Tabled calls self)
    (hpast : ∀ t ∈ calls.filterMap Call.now, t ≤ now) :
    (self.nextSession.toNat + 1 = 2 ^ 64 ∧ self.open_ device peer role now = none) ∨
    self.nextSession.toNat + 1 < 2 ^ 64 ∧
    ∃ gate closed, self.open_ device peer role now = some (gate, ⟨self.nextSession⟩, closed) ∧
      gate.nextSession.toNat = self.nextSession.toNat + 1 ∧
      (gate.sessionsOf device).length ≤ maxSessions ∧
      Opened self gate ⟨⟨self.nextSession⟩, device, peer, role, now⟩ closed := by
  have hbound := self.nextSession.toNat_lt
  rw [open_]
  dsimp only
  split
  · exact .inl ⟨by omega, rfl⟩
  · rename_i hfits
    refine .inr ⟨by omega, ?_⟩
    -- Every session of the table has a smaller number than the next one.
    have hnew : self.get ⟨self.nextSession⟩ = none := by
      rw [Option.eq_none_iff_forall_ne_some]
      intro s hs
      exact lt_irrefl _ (h.numbered _ s hs)
    set session : LiveSession := ⟨⟨self.nextSession⟩, device, peer, role, now⟩ with hsession
    set full : Gatekeeper :=
      { self.add session with nextSession := self.nextSession + 1 } with hfull
    have hget : ∀ id, full.get id = if id = session.id then some session else self.get id :=
      fun id => self.get_add session id
    have hlength : (full.sessionsOf device).length = (self.sessionsOf device).length + 1 :=
      length_sessionsOf_add (s := session) hnew
    obtain ⟨gone, hcapped, hclosed⟩ :=
      closeOldest_spec device (full.sessionsOf device).length full [] (by omega)
    -- The new session has the highest id and was opened last, so it is not the oldest.
    have hkept : session.id ∉ gone.map LiveSession.id := by
      refine hcapped.newest_notMem fun t ht => ?_
      rw [hget] at ht
      split at ht
      · exact .inl (Option.some.inj ht).symm
      · rename_i hne
        refine .inr ⟨hne, age_lt_iff.mpr ?_⟩
        have hold := hpast _ (h.opened _ t ht)
        have hless := h.numbered _ t ht
        simp only [hsession]
        omega
    refine ⟨_, _, rfl, ?_, ?_, ?_⟩
    · rw [hcapped.nextSession, hfull, UInt64.toNat_add, UInt64.toNat_one]
      exact Nat.mod_eq_of_lt (by omega)
    · rw [hcapped.length_after]
      exact min_le_right _ _
    · rw [hclosed, List.nil_append]
      exact hcapped.opened rfl hnew hget hlength hkept

/-- Nothing is closed where there is room. -/
theorem next_open_of_room (hfits : self.nextSession.toNat + 1 < 2 ^ 64)
    (hroom : ((self.add ⟨⟨self.nextSession⟩, device, peer, role, now⟩).held device).length ≤
      maxSessions) :
    machine.next self (.open_ device peer role now) =
      { self.add ⟨⟨self.nextSession⟩, device, peer, role, now⟩ with
        nextSession := self.nextSession + 1 } := by
  have hclose : ∀ turns st, (st.1.held device).length ≤ maxSessions →
      closeOldest device turns st = st := by
    intro turns st hst
    cases turns with
    | zero => rfl
    | succ turns => rw [closeOldest, if_neg (by rw [length_sessionsOf]; omega)]
  have hopen : self.open_ device peer role now = some ({ self.add ⟨⟨self.nextSession⟩, device,
      peer, role, now⟩ with nextSession := self.nextSession + 1 }, ⟨self.nextSession⟩, []) := by
    rw [open_]
    dsimp only
    rw [if_neg (by omega), hclose _ _ hroom]
  rw [Machine.next, step_open hopen]

/-- Taking sessions out, one after the other. -/
theorem get_foldl_remove (ids : List SessionId) (self : Gatekeeper) (id : SessionId) :
    (ids.foldl remove self).get id = if id ∈ ids then none else self.get id := by
  induction ids generalizing self with
  | nil => simp
  | cons first rest ih =>
    rw [List.foldl_cons, ih, get_remove]
    by_cases hid : id = first
    · simp [hid]
    · simp [hid]

theorem nextSession_foldl_remove (ids : List SessionId) (self : Gatekeeper) :
    (ids.foldl remove self).nextSession = self.nextSession := by
  induction ids generalizing self with
  | nil => rfl
  | cons first rest ih => exact ih (self.remove first)

theorem revokeDevice_spec (self : Gatekeeper) (device : DeviceId) :
    TableStep self (self.revokeDevice device).1 (.revokeDevice device)
      (.revoked (self.revokeDevice device).2) := by
  have hids : ((self.revokeDevice device).2).map Closed.id = self.sessionsOf device := by
    rw [revokeDevice, List.map_map]
    exact List.map_id _
  have hget : ∀ id, (self.revokeDevice device).1.get id =
      if id ∈ self.sessionsOf device then none else self.get id :=
    get_foldl_remove (self.sessionsOf device) self
  refine ⟨_, rfl, hids ▸ self.nodup_sessionsOf device, ?_, ?_, hids ▸ hget, fun id s hs => ?_⟩
  · intro c hc
    obtain ⟨id, -, rfl⟩ := List.mem_map.mp hc
    rfl
  · intro id
    rw [hids, mem_sessionsOf]
  · exact get_iff_of_device_ne hget (fun id hid => mem_sessionsOf.mp hid) hs

/-! ### Whole runs -/

/-- The ids that `open` answered with. -/
def openedIds (trace : List (Call × Answer)) : List SessionId :=
  trace.filterMap fun
    | (_, .opened id _) => some id
    | _ => none

/-- A call that is not `open` and leaves the table alone. -/
private theorem step_untouched {call : Call} (gate : Gatekeeper) (h : Tabled calls self)
    (hsessions : gate.sessions = self.sessions) (hnext : gate.nextSession = self.nextSession) :
    Tabled (calls ++ [call]) gate ∧ ∀ id, gate.get id = self.get id := by
  have hget : ∀ id, gate.get id = self.get id := fun id => by rw [get, hsessions, get]
  exact ⟨h.of_get_imp (fun id s hs => hget id ▸ hs) hnext, hget⟩

/-- The table after an `open`. -/
theorem Tabled.open_ {gate : Gatekeeper} {closed : List Closed} (h : Tabled calls self)
    (hnext : gate.nextSession.toNat = self.nextSession.toNat + 1)
    (hcap : (gate.sessionsOf device).length ≤ maxSessions)
    (hopened : Opened self gate ⟨⟨self.nextSession⟩, device, peer, role, now⟩ closed) :
    Tabled (calls ++ [.open_ device peer role now]) gate := by
  have hsession := hopened.live
  have hget := hopened.get
  have hold : ∀ id s, id ≠ ⟨self.nextSession⟩ → gate.get id = some s → self.get id = some s := by
    intro id s hne hs
    exact (Option.ite_none_left_eq_some.mp ((hget id hne).symm.trans hs)).2
  refine ⟨fun d => ?_, fun id s hs => ?_, fun id s hs => ?_⟩
  · by_cases hd : d = device
    · rw [hd]
      exact hcap
    · refine (length_sessionsOf_le fun id s hs hsd => ?_).trans (h.cap d)
      exact (hopened.others id s (hsd ▸ hd)).mp hs
  · by_cases hid : id = ⟨self.nextSession⟩
    · subst hid
      rw [hnext]
      exact Nat.lt_succ_self _
    · have hless := h.numbered id s (hold id s hid hs)
      omega
  · rw [List.filterMap_append, List.mem_append]
    by_cases hid : id = ⟨self.nextSession⟩
    · subst hid
      rw [hsession, Option.some.injEq] at hs
      rw [← hs]
      exact .inr (by simp [Call.now])
    · exact .inl (h.opened id s (hold id s hid hs))

theorem admit_table (self : Gatekeeper) (peer : IpAddr) (now : ℕ) :
    (self.admitPeer peer now).1.sessions = self.sessions ∧
      (self.admitPeer peer now).1.nextSession = self.nextSession := by
  rw [admitPeer]
  split
  · exact ⟨rfl, rfl⟩
  · split
    · exact ⟨rfl, rfl⟩
    · split
      · exact ⟨rfl, rfl⟩
      · exact ⟨rfl, rfl⟩

theorem handshakeFailed_table {gate : Gatekeeper} {answer : Admit}
    (h : self.handshakeFailed peer now = some (gate, answer)) :
    gate.sessions = self.sessions ∧ gate.nextSession = self.nextSession := by
  rw [handshakeFailed] at h
  dsimp only at h
  split at h
  · exact absurd h (by simp)
  · split at h
    · obtain ⟨rfl, -⟩ := Prod.mk.inj (Option.some.inj h)
      exact ⟨rfl, rfl⟩
    · obtain ⟨rfl, -⟩ := Prod.mk.inj (Option.some.inj h)
      exact ⟨rfl, rfl⟩

/-- One call of a run: what it does to the table, and the ids it gives. -/
theorem step_table {call : Call} (h : Tabled calls self) (htimely : Timely (calls ++ [call])) :
    Tabled (calls ++ [call]) (machine.next self call) ∧
    TableStep self (machine.next self call) call (machine.out self call) ∧
    (openedIds [(call, machine.out self call)] = [] ∧
        (machine.next self call).nextSession = self.nextSession ∨
      openedIds [(call, machine.out self call)] = [⟨self.nextSession⟩] ∧
        (machine.next self call).nextSession.toNat = self.nextSession.toNat + 1) := by
  cases call with
  | admitPeer p t =>
    obtain ⟨hsessions, hnext⟩ := self.admit_table p t
    obtain ⟨htabled, hget⟩ := step_untouched _ h hsessions hnext
    exact ⟨htabled, hget, .inl ⟨rfl, hnext⟩⟩
  | handshakeFailed p t =>
    simp only [Machine.next, Machine.out]
    cases hfailed : self.handshakeFailed p t with
    | none =>
      rw [step_handshakeFailed_none hfailed]
      obtain ⟨htabled, hget⟩ := step_untouched _ h (Eq.refl self.sessions) rfl
      exact ⟨htabled, hget, .inl ⟨rfl, rfl⟩⟩
    | some done =>
      rw [step_handshakeFailed hfailed]
      obtain ⟨hsessions, hnext⟩ := handshakeFailed_table hfailed
      obtain ⟨htabled, hget⟩ := step_untouched _ h hsessions hnext
      exact ⟨htabled, hget, .inl ⟨rfl, hnext⟩⟩
  | handshakeSucceeded p =>
    obtain ⟨htabled, hget⟩ := step_untouched (self.handshakeSucceeded p) h rfl rfl
    exact ⟨htabled, hget, .inl ⟨rfl, rfl⟩⟩
  | open_ device p role t =>
    have hpast : ∀ u ∈ calls.filterMap Call.now, u ≤ t := htimely.le_last rfl
    simp only [Machine.next, Machine.out]
    obtain ⟨hfull, hnone⟩ | ⟨hfits, gate, closed, hopen, hnext, hcap, hopened⟩ :=
      @open_spec self device calls p role t h hpast
    · rw [step_open_none hnone]
      obtain ⟨htabled, hget⟩ := step_untouched _ h (Eq.refl self.sessions) rfl
      exact ⟨htabled, .inr ⟨hfull, rfl, hget⟩, .inl ⟨rfl, rfl⟩⟩
    · rw [step_open hopen]
      exact ⟨h.open_ hnext hcap hopened, .inl ⟨hfits, _, _, rfl, hopened⟩, .inr ⟨rfl, hnext⟩⟩
  | close id =>
    have hget := self.get_remove id
    refine ⟨h.of_get_imp (fun other s hs => ?_) rfl, ⟨rfl, hget⟩, .inl ⟨rfl, rfl⟩⟩
    exact (Option.ite_none_left_eq_some.mp ((hget other).symm.trans hs)).2
  | revokeDevice device =>
    have hstep := self.revokeDevice_spec device
    have hget := get_foldl_remove (self.sessionsOf device) self
    have hnext : (self.revokeDevice device).1.nextSession = self.nextSession :=
      nextSession_foldl_remove _ self
    refine ⟨h.of_get_imp (fun other s hs => ?_) hnext, hstep, .inl ⟨rfl, hnext⟩⟩
    exact (Option.ite_none_left_eq_some.mp ((hget other).symm.trans hs)).2
  | expireWindows t =>
    obtain ⟨htabled, hget⟩ := step_untouched (self.expireWindows t).1 h rfl rfl
    exact ⟨htabled, hget, .inl ⟨rfl, rfl⟩⟩

/-- What a run knows of its table and of the ids it has given. -/
structure Given (calls : List Call) : Prop where
  tabled : Tabled calls (machine.run new calls)
  nodup : (openedIds (machine.trace new calls)).Nodup
  below : ∀ id ∈ openedIds (machine.trace new calls),
    id.number.toNat < (machine.run new calls).nextSession.toNat
  count : (machine.run new calls).nextSession.toNat =
    (openedIds (machine.trace new calls)).length + 1

theorem given_run (htimely : Timely calls) : Given calls := by
  induction calls using List.reverseRecOn with
  | nil =>
    exact ⟨tabled_new, List.nodup_nil, fun _ h => absurd h List.not_mem_nil, rfl⟩
  | append_singleton calls call ih =>
    have hbefore := ih htimely.left
    obtain ⟨htabled, -, hids⟩ := step_table hbefore.tabled htimely
    have htrace : openedIds (machine.trace new (calls ++ [call])) =
        openedIds (machine.trace new calls) ++
          openedIds [(call, machine.out (machine.run new calls) call)] := by
      rw [Machine.trace_append, openedIds, List.filterMap_append]
      rfl
    rw [← Machine.run_concat] at htabled hids
    obtain ⟨hnil, hnext⟩ | ⟨hone, hnext⟩ := hids
    · rw [hnil, List.append_nil] at htrace
      refine ⟨htabled, htrace ▸ hbefore.nodup, ?_, ?_⟩
      · rw [htrace, hnext]
        exact hbefore.below
      · rw [htrace, hnext]
        exact hbefore.count
    · rw [hone] at htrace
      refine ⟨htabled, ?_, ?_, ?_⟩
      · rw [htrace, List.nodup_append]
        -- the id given now is the counter, which is above every id given before
        refine ⟨hbefore.nodup, List.nodup_singleton _, fun id hid id' hid' heq => ?_⟩
        have hless := hbefore.below id hid
        rw [heq, List.mem_singleton.mp hid'] at hless
        exact lt_irrefl _ hless
      · intro id hid
        rw [htrace, List.mem_append, List.mem_singleton] at hid
        obtain hid | rfl := hid
        · have hless := hbefore.below id hid
          omega
        · rw [hnext]
          exact Nat.lt_succ_self _
      · rw [htrace, hnext, hbefore.count, List.length_append, List.length_singleton]

/-- **The session table.** In every run whose instants do not decrease, no device holds more than
`MAX_SESSIONS` sessions, no session id is given twice, every call does to the table what
`TableStep` says, and the next id counts the sessions opened, so that only `2 ^ 64 - 2` of them use
the ids up. -/
theorem session_table (calls : List Call) (htimely : Timely calls) :
    (∀ device, ((machine.run new calls).sessionsOf device).length ≤ maxSessions) ∧
    (openedIds (machine.trace new calls)).Nodup ∧
    (∀ pre call post, calls = pre ++ call :: post →
      TableStep (machine.run new pre) (machine.next (machine.run new pre) call) call
        (machine.out (machine.run new pre) call)) ∧
    (machine.run new calls).nextSession.toNat =
      (openedIds (machine.trace new calls)).length + 1 := by
  have hgiven := given_run htimely
  refine ⟨hgiven.tabled.cap, hgiven.nodup, ?_, hgiven.count⟩
  rintro pre call post rfl
  have hprefix : Timely (pre ++ [call]) := by
    rw [List.append_cons] at htimely
    exact htimely.left
  exact (step_table (given_run hprefix.left).tabled hprefix).2.1

/-- Opening a session of one device. -/
def openAt (now : ℕ) : Call := .open_ (.replicate 16 1) (.v4 #v[203, 0, 113, 1]) .trader now

/-- The session that is opened then. -/
def sessionAt (number : UInt64) (now : ℕ) : LiveSession :=
  ⟨⟨number⟩, .replicate 16 1, .v4 #v[203, 0, 113, 1], .trader, now⟩

/-- Four sessions have room. -/
theorem run_four : (machine.run new [openAt 0, openAt 1, openAt 2, openAt 3]).nextSession = 5 ∧
    (machine.run new [openAt 0, openAt 1, openAt 2, openAt 3]).held (.replicate 16 1) =
      [sessionAt 4 3, sessionAt 3 2, sessionAt 2 1, sessionAt 1 0] := by
  let one : Gatekeeper := { new.add (sessionAt 1 0) with nextSession := 2 }
  let two : Gatekeeper := { one.add (sessionAt 2 1) with nextSession := 3 }
  let three : Gatekeeper := { two.add (sessionAt 3 2) with nextSession := 4 }
  let four : Gatekeeper := { three.add (sessionAt 4 3) with nextSession := 5 }
  have hone : machine.next new (openAt 0) = one := next_open_of_room (by decide) (by decide)
  have htwo : machine.next one (openAt 1) = two := next_open_of_room (by decide) (by decide)
  have hthree : machine.next two (openAt 2) = three := next_open_of_room (by decide) (by decide)
  have hfour : machine.next three (openAt 3) = four := next_open_of_room (by decide) (by decide)
  have hrun : machine.run new [openAt 0, openAt 1, openAt 2, openAt 3] = four := by
    change machine.next (machine.next (machine.next (machine.next new (openAt 0)) (openAt 1))
      (openAt 2)) (openAt 3) = four
    rw [hone, htwo, hthree, hfour]
  rw [hrun]
  exact ⟨rfl, by decide⟩

/-- Five sessions of one device, one more than it may hold: the first is closed for the fifth. -/
theorem session_table_five :
    machine.out (machine.run new [openAt 0, openAt 1, openAt 2, openAt 3]) (openAt 4) =
      .opened ⟨5⟩ [⟨⟨1⟩, .tooManySessions⟩] := by
  obtain ⟨hnext, hheld⟩ := run_four
  have hstep := (session_table [openAt 0, openAt 1, openAt 2, openAt 3, openAt 4]
    (by decide)).2.2.1 [openAt 0, openAt 1, openAt 2, openAt 3] (openAt 4) [] rfl
  generalize machine.run new [openAt 0, openAt 1, openAt 2, openAt 3] = before at hnext hheld hstep
  obtain ⟨-, id, closed, hanswer, hopened⟩ | ⟨hfull, -, -⟩ := hstep
  · have hid : id = ⟨5⟩ := hnext ▸ hopened.id_eq
    subst hid
    have hlength : closed.length = 1 := by
      rw [hopened.length_closed, length_sessionsOf, hheld]
      rfl
    obtain ⟨c, rfl⟩ := List.length_eq_one_iff.mp hlength
    obtain ⟨hreason, s, hs, hdevice, holdest⟩ := hopened.oldest c (List.mem_singleton_self c)
    have hid := id_of_get hs
    -- Were it another one, the first would be there still, and it is older than all.
    have hfirst : c.id = ⟨1⟩ := by
      by_contra hne
      have hmem : sessionAt 1 0 ∈ before.held (.replicate 16 1) := by simp [hheld]
      have hone : before.get ⟨1⟩ = some (sessionAt 1 0) := (mem_held.mp hmem).1
      have hkept := hopened.get ⟨1⟩ (by decide)
      rw [if_neg (by simpa using Ne.symm hne), hone] at hkept
      have hage := holdest (sessionAt 1 0) hkept rfl
      have hs : s ∈ before.held (.replicate 16 1) := mem_held.mpr ⟨hid ▸ hs, hdevice⟩
      rw [hheld] at hs
      simp only [List.mem_cons, List.not_mem_nil, or_false] at hs
      rcases hs with rfl | rfl | rfl | rfl <;> exact absurd hage (by decide)
    obtain ⟨cid, reason⟩ := c
    cases hreason
    cases hfirst
    exact hanswer
  · rw [hnext] at hfull
    exact absurd hfull (by decide)

end Gatekeeper

end MoonCore
