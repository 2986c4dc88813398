import MoonCore.Wire.Subscriptions

/-!
# Sessions that share a registry

Any number of sessions, one registry, their calls in any order. `SubscriptionHub.announced` is what
the ordering rule promises over its runs. The reports of a run are true exactly when each call
takes away whole instruments (`SubscriptionHub.reported_iff`), and a refused instrument is silent
exactly when no subscription kept from before is about it (`SubscriptionHub.refuses_iff`).
-/

namespace MoonCore

/-- Sessions that share a registry. -/
structure SubscriptionHub (ι : Type*) where
  registry : SymbolRegistry
  sessions : ι → Subscriptions

namespace SubscriptionHub

variable {ι : Type*} [DecidableEq ι]

/-- The hub of a core that has just started. -/
def new (epoch : UInt64) : SubscriptionHub ι := ⟨.new epoch, fun _ => .new⟩

/-- Calls of any sessions, in any order. -/
def machine : Machine (SubscriptionHub ι) (ι × SubCall) SubAnswer where
  step hub asked :=
    let done := asked.2.exec (hub.sessions asked.1) hub.registry
    (⟨done.1.2, Function.update hub.sessions asked.1 done.1.1⟩, done.2)

/-! ### One call in the hub -/

section Step

variable (hub : SubscriptionHub ι) (asked : ι × SubCall)

theorem sessions_next_self :
    (machine.next hub asked).sessions asked.1 =
      (asked.2.exec (hub.sessions asked.1) hub.registry).1.1 :=
  Function.update_self _ _ _

variable {hub asked}

theorem sessions_next_of_ne {i : ι} (h : i ≠ asked.1) :
    (machine.next hub asked).sessions i = hub.sessions i :=
  Function.update_of_ne h _ _

/-- In every session, no subscription is both announced and waiting to be. -/
def Disjoint (hub : SubscriptionHub ι) : Prop := ∀ i, (hub.sessions i).Disjoint

theorem Disjoint.next (h : hub.Disjoint) (asked : ι × SubCall) :
    (machine.next hub asked).Disjoint := by
  intro i
  by_cases hi : i = asked.1
  · subst hi
    rw [sessions_next_self]
    exact SubCall.disjoint_exec (h asked.1) _ _
  · rw [sessions_next_of_ne hi]
    exact h i

theorem disjoint_run (epoch : UInt64) (calls : List (ι × SubCall)) :
    (machine.run (new epoch) calls).Disjoint :=
  Machine.run_invariant (fun _ asked h => h.next asked)
    (fun _ => Subscriptions.disjoint_new) calls

/-- Session `i` and the registry agree on a symbol's id. -/
def Knows (hub : SubscriptionHub ι) (i : ι) (s : Symbol) (id : SymbolId) : Prop :=
  (hub.sessions i).Knows hub.registry s id

/-- What a session knows, no call of any session changes. -/
theorem Knows.next {i : ι} {s : Symbol} {id : SymbolId} (h : hub.Knows i s id)
    (hdis : hub.Disjoint) (asked : ι × SubCall) : (machine.next hub asked).Knows i s id := by
  by_cases hi : i = asked.1
  · subst hi
    rw [Knows, sessions_next_self]
    exact Subscriptions.Knows.exec h (hdis asked.1) _
  · rw [Knows, sessions_next_of_ne hi]
    exact ⟨h.1, SubCall.lookup_exec h.2 _ _⟩

theorem Knows.run {i : ι} {s : Symbol} {id : SymbolId} (h : hub.Knows i s id)
    (hdis : hub.Disjoint) (calls : List (ι × SubCall)) : (machine.run hub calls).Knows i s id :=
  (Machine.run_invariant (I := fun hub : SubscriptionHub ι => hub.Knows i s id ∧ hub.Disjoint)
    (fun _ asked h => ⟨h.1.next h.2 asked, h.2.next asked⟩) ⟨h, hdis⟩ calls).1

end Step

/-! ### Reported drops -/

/-- The call reports to its session what stopped, once each. -/
def Reported (hub : SubscriptionHub ι) (asked : ι × SubCall) : Prop :=
  Truthful (hub.sessions asked.1) ((machine.next hub asked).sessions asked.1)
    ((machine.out hub asked).stopped (hub.sessions asked.1))

/-- The call takes whole instruments from its session. -/
def TakesWhole (hub : SubscriptionHub ι) (asked : ι × SubCall) : Prop :=
  asked.2.Whole (hub.sessions asked.1)

/-- **Reported drops.** Over every run, every call reports exactly what stopped, once each, if and
only if every call takes whole instruments: each subscription it takes from a delivered instrument
is the only one of its instrument. -/
theorem reported_iff (epoch : UInt64) (calls : List (ι × SubCall)) :
    machine.Along Reported (new epoch) calls ↔ machine.Along TakesWhole (new epoch) calls := by
  rw [Machine.along_iff_forall_split, Machine.along_iff_forall_split]
  refine forall_congr' fun pre => forall_congr' fun asked => forall_congr' fun post =>
    imp_congr_right fun _ => ?_
  rw [Reported, sessions_next_self]
  exact SubCall.truthful_iff (disjoint_run epoch pre asked.1) _ asked.2

/-- Prints and book of one instrument; then the prints alone. -/
theorem not_reported_one_kind_dropped :
    ¬ machine.Along Reported (new 0)
      [((), .subscribe [.trades btcusdt, .book btcusdt] false fun _ => .ok ()), ((), .activate),
        ((), .subscribe [.trades btcusdt] true fun _ => .ok ())] := by
  rintro ⟨-, -, ⟨-, hexact⟩, -⟩
  have hreported := (hexact btcusdt).mp (by decide)
  exact hreported.2 (by decide)

/-! ### Refused instruments -/

/-- What a request promises about refused instruments, once its answer has been announced: they are
silent, and when it replaces the rest, it delivers what it asked for and was not refused. -/
def Refuses (hub : SubscriptionHub ι) (i : ι) (requested : List Subscription) (replace : Bool)
    (isTradable : Symbol → Except String Unit) : Prop :=
  let request := (i, SubCall.subscribe requested replace isTradable)
  let after := (machine.run hub [request, (i, .activate)]).sessions i
  ∀ answer, machine.out hub request = .assigned answer →
    (∀ s why, (s, why) ∈ answer.rejected → ¬ after.wantsSymbol s) ∧
    (replace → ∀ s, after.wantsSymbol s ↔
      (∃ sub ∈ requested, sub.symbol = s) ∧ ∀ why, (s, why) ∉ answer.rejected)

/-- What is delivered once a request has been announced. -/
theorem wantsSymbol_subscribe_activate {self : Subscriptions} {requested : List Subscription}
    {replace : Bool} {registry : SymbolRegistry} {isTradable : Symbol → Except String Unit}
    {s : Symbol} :
    (self.subscribe requested replace registry isTradable).subs.activate.wantsSymbol s ↔
      (∃ sub, self.Holds sub ∧ (replace → sub ∈ requested) ∧ sub.symbol = s) ∨
        (∃ sub ∈ requested, sub.symbol = s) ∧ isTradable s = .ok () := by
  simp only [Subscriptions.wantsSymbol_iff, Subscriptions.mem_active_activate,
    Subscriptions.mem_active_subscribe, Subscriptions.mem_pending_subscribe, Subscriptions.Holds]
  constructor
  · rintro ⟨sub, ⟨hact, hkeep⟩ | ⟨hpend, hkeep⟩ | ⟨hreq, hok, -⟩, rfl⟩
    · exact .inl ⟨sub, .inl hact, hkeep, rfl⟩
    · exact .inl ⟨sub, .inr hpend, hkeep, rfl⟩
    · exact .inr ⟨⟨sub, hreq, rfl⟩, hok⟩
  · rintro (⟨sub, hact | hpend, hkeep, rfl⟩ | ⟨⟨sub, hreq, rfl⟩, hok⟩)
    · exact ⟨sub, .inl ⟨hact, hkeep⟩, rfl⟩
    · exact ⟨sub, .inr (.inl ⟨hpend, hkeep⟩), rfl⟩
    · by_cases hact : sub ∈ self.active
      · exact ⟨sub, .inl ⟨hact, fun _ => hreq⟩, rfl⟩
      · exact ⟨sub, .inr (.inr ⟨hreq, hok, hact⟩), rfl⟩

/-- **Refused instruments.** In every reachable state, a request keeps its promise about refused
instruments if and only if no subscription that the session keeps from before is about an
instrument that the request names and that is not tradable. -/
theorem refuses_iff (epoch : UInt64) (calls : List (ι × SubCall)) (i : ι)
    (requested : List Subscription) (replace : Bool) (isTradable : Symbol → Except String Unit) :
    let hub := machine.run (new epoch) calls
    hub.Refuses i requested replace isTradable ↔
      ∀ sub, (hub.sessions i).Holds sub → (replace → sub ∈ requested) →
        (∃ r ∈ requested, r.symbol = sub.symbol) → isTradable sub.symbol = .ok () := by
  intro hub
  have hafter : (machine.run hub [(i, .subscribe requested replace isTradable),
      (i, .activate)]).sessions i =
        ((hub.sessions i).subscribe requested replace hub.registry isTradable).subs.activate := by
    rw [Machine.run_cons, Machine.run_cons, Machine.run_nil,
      sessions_next_self _ (i, .activate), sessions_next_self _ (i, .subscribe _ _ _)]
    rfl
  have hout : machine.out hub (i, .subscribe requested replace isTradable) =
      .assigned ((hub.sessions i).subscribe requested replace hub.registry isTradable).answer := rfl
  simp only [Refuses, hafter, hout, SubAnswer.assigned.injEq, forall_eq',
    Subscriptions.mem_rejected_subscribe, wantsSymbol_subscribe_activate]
  constructor
  · rintro ⟨hsilent, -⟩ sub hheld hkeep hreq
    cases hanswer : isTradable sub.symbol with
    | ok => rfl
    | error why => exact absurd (.inl ⟨sub, hheld, hkeep, rfl⟩) (hsilent _ why ⟨hreq, hanswer⟩)
  · intro hok
    refine ⟨?_, fun hreplace s => ⟨?_, ?_⟩⟩
    · rintro s why ⟨hreq, herr⟩ (⟨sub, hheld, hkeep, rfl⟩ | ⟨-, hs⟩)
      · exact absurd (herr.symm.trans (hok sub hheld hkeep hreq)) (by simp)
      · exact absurd (herr.symm.trans hs) (by simp)
    · rintro (⟨sub, hheld, hkeep, rfl⟩ | ⟨hreq, hs⟩)
      · have hreq : ∃ r ∈ requested, r.symbol = sub.symbol := ⟨sub, hkeep hreplace, rfl⟩
        refine ⟨hreq, fun why hrej => ?_⟩
        exact absurd (hrej.2.symm.trans (hok sub hheld hkeep hreq)) (by simp)
      · exact ⟨hreq, fun why hrej => absurd (hrej.2.symm.trans hs) (by simp)⟩
    · rintro ⟨hreq, hnot⟩
      refine .inr ⟨hreq, ?_⟩
      cases hanswer : isTradable s with
      | ok => rfl
      | error why => exact absurd ⟨hreq, hanswer⟩ (hnot why)

/-- An instrument that stopped trading while it was active. -/
theorem not_refuses_active_untradable :
    ¬ (machine.run (new 0) [((), .subscribe [.trades btcusdt] false fun _ => .ok ()),
        ((), .activate)]).Refuses () [.trades btcusdt] true fun _ => .error "not trading" := by
  intro h
  have hsilent := (h _ rfl).1 btcusdt "not trading" (by decide)
  exact hsilent (by decide)

/-! ### An id before its traffic -/

/-- A subscribe call of session `i` whose answer lists the symbol with the id. -/
def Listed (i : ι) (s : Symbol) (id : SymbolId) (asked : (ι × SubCall) × SubAnswer) : Prop :=
  ∃ requested replace isTradable answer,
    asked = ((i, .subscribe requested replace isTradable), .assigned answer) ∧
      (s, id) ∈ answer.assigned

/-- Session `i` was told the id, and said so to the hub afterwards. -/
def Announced (i : ι) (s : Symbol) (id : SymbolId) (trace : List ((ι × SubCall) × SubAnswer)) :
    Prop :=
  ∃ pre told mid post, trace = pre ++ told :: (mid ++ ((i, .activate), .activated) :: post) ∧
    Listed i s id told

omit [DecidableEq ι] in
theorem Announced.concat {i : ι} {s : Symbol} {id : SymbolId}
    {trace : List ((ι × SubCall) × SubAnswer)} (h : Announced i s id trace)
    (asked : (ι × SubCall) × SubAnswer) : Announced i s id (trace ++ [asked]) := by
  obtain ⟨pre, told, mid, post, rfl, htold⟩ := h
  exact ⟨pre, told, mid, post ++ [asked], by simp, htold⟩

omit [DecidableEq ι] in
/-- What was listed is announced by the next activation. -/
theorem announced_concat_activate {i : ι} {s : Symbol} {id : SymbolId}
    {trace : List ((ι × SubCall) × SubAnswer)} (h : ∃ told ∈ trace, Listed i s id told) :
    Announced i s id (trace ++ [((i, .activate), .activated)]) := by
  obtain ⟨told, hmem, htold⟩ := h
  obtain ⟨pre, mid, rfl⟩ := List.append_of_mem hmem
  exact ⟨pre, told, mid, [], by simp, htold⟩

/-- Where the pending and the active subscriptions of a run come from. -/
structure History (hub : SubscriptionHub ι) (trace : List ((ι × SubCall) × SubAnswer)) : Prop where
  disjoint : hub.Disjoint
  pending : ∀ i, ∀ sub ∈ (hub.sessions i).pending, ∃ id, hub.Knows i sub.symbol id ∧
    ∃ told ∈ trace, Listed i sub.symbol id told
  active : ∀ i, ∀ sub ∈ (hub.sessions i).active, ∃ id, hub.Knows i sub.symbol id ∧
    Announced i sub.symbol id trace

omit [DecidableEq ι] in
theorem history_new (epoch : UInt64) : History (new epoch : SubscriptionHub ι) [] where
  disjoint _ := Subscriptions.disjoint_new
  pending _ sub h := absurd h (ListSet.notMem_empty sub)
  active _ sub h := absurd h (ListSet.notMem_empty sub)

variable {hub : SubscriptionHub ι} {trace : List ((ι × SubCall) × SubAnswer)}

/-- A pending subscription after a call of its own session was pending before, or is of the request
just answered. -/
theorem History.pending_next (h : History hub trace) (i : ι) (call : SubCall) :
    ∀ sub ∈ ((machine.next hub (i, call)).sessions i).pending,
      ∃ id, (machine.next hub (i, call)).Knows i sub.symbol id ∧
        ∃ told ∈ trace ++ [((i, call), machine.out hub (i, call))],
          Listed i sub.symbol id told := by
  have hold : ∀ sub ∈ (hub.sessions i).pending,
      ∃ id, (machine.next hub (i, call)).Knows i sub.symbol id ∧
        ∃ told ∈ trace ++ [((i, call), machine.out hub (i, call))],
          Listed i sub.symbol id told := by
    intro sub hsub
    obtain ⟨id, hknows, told, hmem, htold⟩ := h.pending i sub hsub
    exact ⟨id, hknows.next h.disjoint _, told, List.mem_append_left _ hmem, htold⟩
  intro sub hsub
  rw [sessions_next_self _ (i, call)] at hsub
  cases call with
  | subscribe requested replace isTradable =>
    obtain ⟨hpend, -⟩ | ⟨hreq, hok, -⟩ := Subscriptions.mem_pending_subscribe.mp hsub
    · exact hold sub hpend
    · obtain ⟨id, hlisted, hknows⟩ := Subscriptions.exists_assigned_foldl_take hreq hok
      refine ⟨id, ?_, _, List.mem_append_right _ (List.mem_singleton_self _), ?_⟩
      · rw [Knows, sessions_next_self _ (i, .subscribe requested replace isTradable)]
        exact hknows
      · exact ⟨requested, replace, isTradable, _, rfl, hlisted⟩
  | activate => exact absurd hsub (ListSet.notMem_empty sub)
  | unsubscribe requested =>
    exact hold sub ((Subscriptions.mem_pending_unsubscribe (h.disjoint i)).mp hsub).1

/-- An active subscription after a call of its own session was active before, or was pending and
has just been announced. -/
theorem History.active_next (h : History hub trace) (i : ι) (call : SubCall) :
    ∀ sub ∈ ((machine.next hub (i, call)).sessions i).active,
      ∃ id, (machine.next hub (i, call)).Knows i sub.symbol id ∧
        Announced i sub.symbol id (trace ++ [((i, call), machine.out hub (i, call))]) := by
  have hold : ∀ sub ∈ (hub.sessions i).active,
      ∃ id, (machine.next hub (i, call)).Knows i sub.symbol id ∧
        Announced i sub.symbol id (trace ++ [((i, call), machine.out hub (i, call))]) := by
    intro sub hsub
    obtain ⟨id, hknows, hann⟩ := h.active i sub hsub
    exact ⟨id, hknows.next h.disjoint _, hann.concat _⟩
  intro sub hsub
  rw [sessions_next_self _ (i, call)] at hsub
  cases call with
  | subscribe requested replace isTradable =>
    exact hold sub (Subscriptions.mem_active_subscribe.mp hsub).1
  | activate =>
    obtain hact | hpend := Subscriptions.mem_active_activate.mp hsub
    · exact hold sub hact
    · obtain ⟨id, hknows, htold⟩ := h.pending i sub hpend
      exact ⟨id, hknows.next h.disjoint _, announced_concat_activate htold⟩
  | unsubscribe requested =>
    exact hold sub ((Subscriptions.mem_active_unsubscribe (h.disjoint i)).mp hsub).1

theorem History.next (h : History hub trace) (asked : ι × SubCall) :
    History (machine.next hub asked) (trace ++ [(asked, machine.out hub asked)]) where
  disjoint := h.disjoint.next asked
  pending i := by
    by_cases hi : i = asked.1
    · subst hi
      exact h.pending_next asked.1 asked.2
    · rw [sessions_next_of_ne hi]
      intro sub hsub
      obtain ⟨id, hknows, told, hmem, htold⟩ := h.pending i sub hsub
      exact ⟨id, hknows.next h.disjoint _, told, List.mem_append_left _ hmem, htold⟩
  active i := by
    by_cases hi : i = asked.1
    · subst hi
      exact h.active_next asked.1 asked.2
    · rw [sessions_next_of_ne hi]
      intro sub hsub
      obtain ⟨id, hknows, hann⟩ := h.active i sub hsub
      exact ⟨id, hknows.next h.disjoint _, hann.concat _⟩

theorem history_run (epoch : UInt64) (calls : List (ι × SubCall)) :
    History (machine.run (new epoch) calls) (machine.trace (new epoch) calls) :=
  Machine.run_invariant_trace (fun _ _ asked h => h.next asked) (history_new epoch) calls

/-- **An id before its traffic.** Over every run of any sessions sharing a registry, a session that
wants a market event was told the instrument's id and has announced it since; the session's and the
registry's id are that id, and stay it whatever happens next. Active and pending are disjoint. -/
theorem announced {D : Type*} (epoch : UInt64) (calls : List (ι × SubCall)) :
    let hub := machine.run (new epoch) calls
    (∀ i (event : Event D) market s, event.payload = .market market → market.symbol = some s →
      (hub.sessions i).wants event →
        ∃ id, Announced i s id (machine.trace (new epoch) calls) ∧
          (hub.sessions i).idOf s = some id ∧ hub.registry.lookup s = some id ∧
          ∀ later, ((machine.run hub later).sessions i).idOf s = some id ∧
            (machine.run hub later).registry.lookup s = some id) ∧
    ∀ i, (hub.sessions i).Disjoint := by
  intro hub
  have hrun := history_run epoch calls
  refine ⟨fun i event market s hevent hsymbol hwants => ?_, hrun.disjoint⟩
  rw [Subscriptions.wants_market hevent hsymbol, Subscriptions.wantsSymbol_iff] at hwants
  obtain ⟨sub, hactive, rfl⟩ := hwants
  obtain ⟨id, hknows, hann⟩ := hrun.active i sub hactive
  exact ⟨id, hann, hknows.1, hknows.2, fun later => hknows.run hrun.disjoint later⟩

end SubscriptionHub

end MoonCore
