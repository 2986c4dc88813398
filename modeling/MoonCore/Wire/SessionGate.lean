import Mathlib.Data.Set.Basic
import MoonCore.ForMathlib.Bytes
import MoonCore.Machine.Run
import MoonCore.Wire.Session

/-!
# The session gate

One `Session` handling any sequence of messages. A `Hello` opens it if it carries the core's
protocol and exactly the core's token; until then nothing is subscribed to, nothing private or
of an instrument is sent, and every other message ends the connection.

`Session.Gated` is the invariant and `Session.gate` the result.
-/

namespace MoonCore

/-- Exactly the core's token passes. -/
theorem Auth.verify_iff (self : Auth) (candidate : String) :
    self.verify candidate = true ↔ candidate = self.token := by
  rw [Auth.verify, ← toUTF8_toList_inj]
  split_ifs with hlength
  · constructor
    · intro h
      cases h
    · intro h
      exact absurd (congrArg List.length h).symm hlength
  · rw [beq_iff_eq, foldl_or_xor_eq_zero, forall_mem_zip_iff (not_ne_iff.mp hlength)]
    exact ⟨fun h => h.2.symm, fun h => ⟨rfl, h.symm⟩⟩

namespace Session

variable {D : Type*} (auth : Auth)

/-- A session, stepping on messages. -/
def machine : Machine Session ClientMsg (Reaction D) := ⟨fun self msg => self.handle msg auth⟩

/-- The `Hello` that opens a session. -/
def opening : ClientMsg := .hello protocolVersion auth.token

/-- The set of subscriptions a message leaves, of the set there was. -/
def held (subs : Set Subscription) : ClientMsg → Set Subscription
  | .subscribe more => subs ∪ {sub | sub ∈ more}
  | .unsubscribe less => subs \ {sub | sub ∈ less}
  | _ => subs

/-- Everything `handle` can do: open the session, refuse the message and close, or serve it. -/
inductive Handles (self : Session) : ClientMsg → Session × Reaction D → Prop
  | opened : Handles self (opening auth)
      ({ self with authenticated := true }, ⟨.welcome protocolVersion, false⟩)
  | refused {msg : ClientMsg} {code : ErrorCode} {text : String} (hmsg : msg ≠ opening auth)
      (hwhen : self.authenticated = true → ∃ protocol token, msg = .hello protocol token) :
      Handles self msg (self, ⟨.failed code text, true⟩)
  | subscribed (hopen : self.authenticated = true) (subs : List Subscription) :
      Handles self (.subscribe subs) (self.subscribe subs, ⟨.pong 0, false⟩)
  | unsubscribed (hopen : self.authenticated = true) (subs : List Subscription) :
      Handles self (.unsubscribe subs)
        ({ self with subscriptions := self.subscriptions.filter fun held => held ∉ subs },
          ⟨.pong 0, false⟩)
  | ponged (hopen : self.authenticated = true) (nonce : UInt64) :
      Handles self (.ping nonce) (self, ⟨.pong nonce, false⟩)

theorem handles (self : Session) (msg : ClientMsg) :
    Handles (D := D) auth self msg (self.handle msg auth) := by
  fun_cases handle (D := D) self msg auth with
  | case1 protocol token hprotocol =>
    refine .refused (fun h => hprotocol ?_) fun _ => ⟨protocol, token, rfl⟩
    injection h
  | case2 protocol token hprotocol htoken =>
    refine .refused (fun h => ?_) fun _ => ⟨protocol, token, rfl⟩
    injection h with _ h
    rw [(auth.verify_iff token).mpr h] at htoken
    cases htoken
  | case3 protocol token hprotocol htoken =>
    have htoken : token = auth.token := (auth.verify_iff token).mp (by simpa using htoken)
    rw [not_ne_iff.mp hprotocol, htoken]
    exact .opened
  | case4 msg hmsg hclosed =>
    refine .refused (fun h => hmsg _ _ h) fun hopen => ?_
    rw [hopen] at hclosed
    cases hclosed
  | case5 hopen subs => exact .subscribed (by simpa using hopen) subs
  | case6 hopen subs => exact .unsubscribed (by simpa using hopen) subs
  | case7 hopen nonce => exact .ponged (by simpa using hopen) nonce
  | case8 hopen protocol token hmsg => exact absurd rfl (hmsg protocol token)

theorem handle_opening (self : Session) :
    (self.handle (opening auth) auth : Session × Reaction D) =
      ({ self with authenticated := true }, ⟨.welcome protocolVersion, false⟩) := by
  simp [handle, opening, (auth.verify_iff auth.token).mpr rfl]

/-! ### What the subscriptions are -/

theorem mem_subscribe {self : Session} {subs : List Subscription} {sub : Subscription} :
    sub ∈ (self.subscribe subs).subscriptions ↔ sub ∈ self.subscriptions ∨ sub ∈ subs := by
  rw [subscribe]
  dsimp only
  generalize self.subscriptions = held
  induction subs generalizing held with
  | nil => simp
  | cons first subs ih =>
    rw [List.foldl_cons, ih, List.mem_cons]
    split_ifs with hmem
    · constructor
      · rintro (h | h)
        · exact .inl h
        · exact .inr (.inr h)
      · rintro (h | rfl | h)
        · exact .inl h
        · exact .inl hmem
        · exact .inr h
    · rw [List.mem_append, List.mem_singleton, or_assoc]

theorem nodup_subscribe {self : Session} (h : self.subscriptions.Nodup)
    (subs : List Subscription) : (self.subscribe subs).subscriptions.Nodup := by
  rw [subscribe]
  dsimp only
  generalize self.subscriptions = held at h
  induction subs generalizing held with
  | nil => exact h
  | cons first subs ih =>
    rw [List.foldl_cons]
    split_ifs with hmem
    · exact ih held h
    · refine ih _ (List.nodup_append.mpr ⟨h, List.nodup_singleton first, ?_⟩)
      rintro sub hsub other hother rfl
      exact hmem (List.mem_singleton.mp hother ▸ hsub)

/-- What a session that has handled `msgs` is like. -/
structure Gated (msgs : List ClientMsg) (session : Session) : Prop where
  open_iff : session.authenticated = true ↔ opening auth ∈ msgs
  idle : session.authenticated = false → session.subscriptions = []
  nodup : session.subscriptions.Nodup

variable {auth} {self : Session}

theorem Handles.gated {msgs : List ClientMsg} {msg : ClientMsg} {result : Session × Reaction D}
    (hhandles : Handles auth self msg result) (h : Gated auth msgs self) :
    Gated auth (msgs ++ [msg]) result.1 := by
  obtain ⟨hopen_iff, hidle, hnodup⟩ := h
  -- a session that is already open stays so, whatever else is sent to it
  have hserved : self.authenticated = true → opening auth ∈ msgs ++ [msg] := fun hopen =>
    List.mem_append_left _ (hopen_iff.mp hopen)
  cases hhandles with
  | opened =>
    exact
      { open_iff := ⟨fun _ => List.mem_append_right _ (List.mem_singleton_self _), fun _ => rfl⟩
        idle := fun hclosed => by cases hclosed
        nodup := hnodup }
  | refused hmsg =>
    refine ⟨?_, hidle, hnodup⟩
    rw [hopen_iff, List.mem_append, List.mem_singleton]
    exact ⟨.inl, fun hmem => hmem.resolve_right hmsg.symm⟩
  | subscribed hopen subs =>
    exact
      { open_iff := ⟨hserved, fun _ => hopen⟩
        idle := fun hclosed => by cases hopen.symm.trans hclosed
        nodup := nodup_subscribe hnodup subs }
  | unsubscribed hopen subs =>
    exact
      { open_iff := ⟨hserved, fun _ => hopen⟩
        idle := fun hclosed => by cases hopen.symm.trans hclosed
        nodup := hnodup.filter _ }
  | ponged hopen nonce =>
    exact ⟨⟨hserved, fun _ => hopen⟩, hidle, hnodup⟩

/-- An open session stays open, and its subscriptions are the set a message leaves. -/
theorem Handles.held {msg : ClientMsg} {result : Session × Reaction D}
    (hhandles : Handles auth self msg result) (hopen : self.authenticated = true) :
    result.1.authenticated = true ∧
      {sub | sub ∈ result.1.subscriptions} = held {sub | sub ∈ self.subscriptions} msg := by
  cases hhandles with
  | opened => exact ⟨rfl, rfl⟩
  | refused hmsg hwhen =>
    obtain ⟨protocol, token, rfl⟩ := hwhen hopen
    exact ⟨hopen, rfl⟩
  | subscribed hopen subs =>
    refine ⟨hopen, ?_⟩
    ext sub
    exact mem_subscribe
  | unsubscribed hopen subs =>
    refine ⟨hopen, ?_⟩
    ext sub
    simp [Session.held]
  | ponged hopen nonce => exact ⟨hopen, rfl⟩

/-! ### Runs -/

theorem gated_run (auth : Auth) (msgs : List ClientMsg) :
    Gated auth msgs ((machine auth : Machine _ _ (Reaction D)).run .new msgs) := by
  induction msgs using List.reverseRecOn with
  | nil =>
    exact
      { open_iff := ⟨(fun h => by cases h), (fun h => by cases h)⟩
        idle := fun _ => rfl
        nodup := List.nodup_nil }
  | append_singleton msgs msg ih =>
    rw [Machine.run_concat]
    exact (handles auth _ msg).gated ih

theorem held_run (hopen : self.authenticated = true) (msgs : List ClientMsg) :
    {sub | sub ∈ ((machine auth : Machine _ _ (Reaction D)).run self msgs).subscriptions} =
      msgs.foldl held {sub | sub ∈ self.subscriptions} := by
  induction msgs generalizing self with
  | nil => rfl
  | cons msg msgs ih =>
    obtain ⟨hopen', hheld⟩ := (handles (D := D) auth self msg).held hopen
    rw [Machine.run_cons, List.foldl_cons, ← hheld]
    exact ih hopen'

/-- A closed session is sent nothing private and nothing of an instrument. -/
theorem wants_of_closed (hclosed : self.authenticated = false) (hidle : self.subscriptions = [])
    {event : Event D}
    (hevent : (∃ account, event.payload = .account account) ∨
      ∃ market symbol, event.payload = .market market ∧ market.symbol = some symbol) :
    self.wants event = false := by
  rw [wants, mayReceive, hclosed, Event.isPrivate]
  obtain ⟨account, haccount⟩ | ⟨market, symbol, hmarket, hsymbol⟩ := hevent
  · simp only [haccount, Bool.not_true, Bool.or_self, Bool.not_false, if_true]
  · simp only [hmarket, hsymbol, hidle, List.any_nil, Bool.not_false, Bool.or_true, Bool.not_true,
      Bool.false_eq_true, if_false]

/-- **The session gate.** A session is open exactly when it was sent the core's protocol and token.
Until then it subscribes to nothing and is sent nothing private and nothing of an instrument.
From then on its subscriptions are, without repeats, what the messages since leave of the
empty set. A refusal changes nothing, and closes the connection for every `Hello` and, until
the session is open, for every message. -/
theorem gate (auth : Auth) (msgs : List ClientMsg) :
    let self := (machine auth : Machine _ _ (Reaction D)).run .new msgs
    (self.authenticated = true ↔ opening auth ∈ msgs) ∧
    (self.authenticated = false → self.subscriptions = [] ∧ ∀ event : Event D,
      ((∃ account, event.payload = .account account) ∨
        ∃ market symbol, event.payload = .market market ∧ market.symbol = some symbol) →
      self.wants event = false) ∧
    (∀ before after, msgs = before ++ opening auth :: after → opening auth ∉ before →
      self.subscriptions.Nodup ∧ {sub | sub ∈ self.subscriptions} = after.foldl held ∅) ∧
    ∀ msg, let (next, reaction) : Session × Reaction D := self.handle msg auth
      (∀ code text, reaction.reply = .failed code text → next = self ∧
        ((∃ protocol token, msg = .hello protocol token) → reaction.close = true)) ∧
      (self.authenticated = false → msg ≠ opening auth → reaction.close = true ∧
        ∃ code text, reaction.reply = .failed code text) := by
  intro self
  have hgated : Gated auth msgs self := gated_run auth msgs
  refine ⟨hgated.open_iff, fun hclosed => ?_, ?_, fun msg => ?_⟩
  · exact ⟨hgated.idle hclosed, fun event => wants_of_closed hclosed (hgated.idle hclosed)⟩
  · intro before after hmsgs hfirst
    refine ⟨hgated.nodup, ?_⟩
    -- nothing was subscribed to before the session opened
    have hbefore := gated_run (D := D) auth before
    have hclosed := Bool.eq_false_iff.mpr fun h => hfirst (hbefore.open_iff.mp h)
    have hopened := gated_run (D := D) auth (before ++ [opening auth])
    have hopen := hopened.open_iff.mpr (List.mem_append_right _ (List.mem_singleton_self _))
    have hself : self = (machine auth : Machine _ _ (Reaction D)).run
        ((machine auth : Machine _ _ (Reaction D)).run .new (before ++ [opening auth])) after := by
      rw [← Machine.run_append, List.append_assoc, List.singleton_append, ← hmsgs]
    rw [hself, held_run hopen, Machine.run_concat]
    change after.foldl held {sub | sub ∈ (handle _ (opening auth) auth).1.subscriptions} = _
    have hempty : {sub : Subscription | sub ∈ ([] : List Subscription)} = ∅ := by simp
    rw [handle_opening, hbefore.idle hclosed, hempty]
  · have hhandles := handles (D := D) auth self msg
    generalize self.handle msg auth = result at hhandles
    cases hhandles with
    | opened => exact ⟨(fun code text h => by cases h), fun _ hmsg => absurd rfl hmsg⟩
    | refused => exact ⟨fun _ _ _ => ⟨rfl, fun _ => rfl⟩, fun _ _ => ⟨rfl, _, _, rfl⟩⟩
    | subscribed hopen | unsubscribed hopen | ponged hopen =>
      refine ⟨(fun code text h => by cases h), fun hclosed => ?_⟩
      cases hopen.symm.trans hclosed

end Session

end MoonCore
