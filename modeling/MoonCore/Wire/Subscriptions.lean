import Mathlib.Data.List.AList
import MoonCore.Domain.Event
import MoonCore.Domain.Registry
import MoonCore.Exchange.Subscription
import MoonCore.ForMathlib.ListSet
import MoonCore.Machine.Run

/-!
# What a session asked for, and what it therefore receives

`wire::subscription`. Interest is kept per subscription, delivery is per instrument: an event
passes when some active subscription is about its instrument. A subscription is inert until it is
activated, which happens after the terminal has been told its id.

Here is one session, each operation with what it does to the two sets, to the ids and to the
answer. What a call reports as stopped is what stopped exactly when each subscription it takes away
is the only one of its instrument (`SubCall.truthful_iff`).
-/

namespace MoonCore

/-- The result of a subscribe request. -/
structure Assigned where
  /-- Instruments now subscribed, with the id their frames will carry. -/
  assigned : List (Symbol × SymbolId)
  /-- Instruments refused, with why. -/
  rejected : List (Symbol × String)
  /-- Instruments the session stopped receiving because `replace` was set. -/
  dropped : List Symbol

/-- One session's subscriptions. -/
structure Subscriptions where
  /-- What has been asked for and acknowledged. -/
  active : ListSet Subscription
  /-- Asked for, assigned an id, but not yet announced to the terminal. -/
  pending : ListSet Subscription
  ids : AList fun _ : String => SymbolId

namespace Subscriptions

/-- A session that follows nothing. -/
def new : Subscriptions := ⟨∅, ∅, ∅⟩

/-- The variables of the loop over a request. -/
structure Taking where
  subs : Subscriptions
  registry : SymbolRegistry
  answer : Assigned

/-- One subscription of a request. -/
def take (isTradable : Symbol → Except String Unit) (st : Taking) (sub : Subscription) : Taking :=
  let symbol := sub.symbol
  match isTradable symbol with
  | .error why => { st with
      answer := { st.answer with rejected := st.answer.rejected ++ [(symbol, why)] } }
  | .ok () =>
    let interned := st.registry.intern symbol
    { subs :=
        { st.subs with
          ids := st.subs.ids.insert symbol.key interned.2
          -- Already active means already announced.
          pending :=
            if sub ∈ st.subs.active then st.subs.pending else st.subs.pending.insert sub }
      registry := interned.1
      answer :=
        { st.answer with assigned := st.answer.assigned ++ [(symbol, interned.2)] } }

/-- What is left of the subscriptions when a request replaces them. -/
def keepOnly (self : Subscriptions) (requested : List Subscription) : Subscriptions :=
  { self with
    active := self.active.retain fun s => s ∈ requested
    pending := self.pending.retain fun s => s ∈ requested }

/-- The active subscriptions that a request replaces. -/
def replaced (self : Subscriptions) (requested : List Subscription) : ListSet Subscription :=
  self.active.retain fun s => s ∉ requested

/-- Take a subscribe request, assigning ids but not yet delivering anything. -/
def subscribe (self : Subscriptions) (requested : List Subscription) (replace : Bool)
    (registry : SymbolRegistry) (isTradable : Symbol → Except String Unit) : Taking :=
  let dropped := if replace then (self.replaced requested).toList.map Subscription.symbol else []
  let kept := if replace then self.keepOnly requested else self
  requested.foldl (take isTradable) ⟨kept, registry, ⟨[], [], dropped⟩⟩

/-- Mark everything pending as announced. -/
def activate (self : Subscriptions) : Subscriptions :=
  { self with active := self.active.extend self.pending, pending := ∅ }

/-- One subscription of an unsubscribe request. -/
def release (st : Subscriptions × List Symbol) (sub : Subscription) :
    Subscriptions × List Symbol :=
  if sub ∈ st.1.active then
    ({ st.1 with active := st.1.active.erase sub }, st.2 ++ [sub.symbol])
  else if sub ∈ st.1.pending then
    ({ st.1 with pending := st.1.pending.erase sub }, st.2 ++ [sub.symbol])
  else st

/-- Let go of each, and answer with the symbols nobody follows any more. -/
def unsubscribe (self : Subscriptions) (requested : List Subscription) :
    Subscriptions × List Symbol :=
  requested.foldl release (self, [])

/-- The id a symbol's frames will carry, if it has one. -/
def idOf (self : Subscriptions) (symbol : Symbol) : Option SymbolId :=
  self.ids.lookup symbol.key

/-- Whether events about an instrument pass. -/
def wantsSymbol (self : Subscriptions) (symbol : Symbol) : Bool :=
  self.active.toList.any fun s => s.symbol = symbol

/-- Whether this session should be sent `event`. -/
def wants {D : Type*} (self : Subscriptions) (event : Event D) : Bool :=
  match event.payload with
  | .market market =>
    match market.symbol with
    | some symbol => self.wantsSymbol symbol
    | none => true
  | _ => true

end Subscriptions

namespace Subscriptions

variable {self : Subscriptions} {requested : List Subscription}
  {isTradable : Symbol → Except String Unit} {s : Symbol}

theorem wantsSymbol_iff : self.wantsSymbol s ↔ ∃ sub ∈ self.active, sub.symbol = s := by
  simp [wantsSymbol]

/-- An event about one instrument passes with the instrument. -/
theorem wants_market {D : Type*} {event : Event D} {market : MarketEvent D}
    (hevent : event.payload = .market market) (hsymbol : market.symbol = some s) :
    self.wants event = self.wantsSymbol s := by
  simp only [wants, hevent, hsymbol]

/-- No subscription is both announced and waiting to be. -/
def Disjoint (self : Subscriptions) : Prop := ∀ sub ∈ self.active, sub ∉ self.pending

/-- The session and the registry agree on a symbol's id. -/
def Knows (self : Subscriptions) (registry : SymbolRegistry) (s : Symbol) (id : SymbolId) : Prop :=
  self.idOf s = some id ∧ registry.lookup s = some id

theorem disjoint_new : new.Disjoint := fun sub h => absurd h (ListSet.notMem_empty sub)

/-! ### The loop over a request -/

/-- What one turn can do: refuse, or give an id and make what is not active pending. -/
theorem take_cases (isTradable : Symbol → Except String Unit) (st : Taking) (sub : Subscription) :
    (∃ why, isTradable sub.symbol = .error why ∧ (take isTradable st sub).subs = st.subs ∧
      (take isTradable st sub).registry = st.registry ∧
      (take isTradable st sub).answer =
        { st.answer with rejected := st.answer.rejected ++ [(sub.symbol, why)] }) ∨
    isTradable sub.symbol = .ok () ∧
      (take isTradable st sub).subs.active = st.subs.active ∧
      (∀ u, u ∈ (take isTradable st sub).subs.pending ↔
        u ∈ st.subs.pending ∨ u = sub ∧ u ∉ st.subs.active) ∧
      (take isTradable st sub).subs.ids =
        st.subs.ids.insert sub.symbol.key (st.registry.intern sub.symbol).2 ∧
      (take isTradable st sub).registry = (st.registry.intern sub.symbol).1 ∧
      (take isTradable st sub).answer =
        { st.answer with
          assigned :=
            st.answer.assigned ++ [(sub.symbol, (st.registry.intern sub.symbol).2)] } := by
  cases hanswer : isTradable sub.symbol with
  | error why => exact .inl ⟨why, rfl, by simp only [take, hanswer, and_self]⟩
  | ok =>
    refine .inr ⟨rfl, ?_⟩
    simp only [take, hanswer, true_and, and_true]
    intro u
    split
    · constructor
      · exact .inl
      · rintro (h | ⟨rfl, hnot⟩)
        · exact h
        · exact absurd ‹_› hnot
    · rw [ListSet.mem_insert]
      constructor
      · rintro (rfl | h)
        · exact .inr ⟨rfl, ‹_›⟩
        · exact .inl h
      · rintro (h | ⟨rfl, -⟩)
        · exact .inr h
        · exact .inl rfl

section Loop

variable (isTradable) (requested) (st : Taking)

variable {isTradable} {st} in
/-- What every turn keeps, the loop keeps. -/
theorem foldl_take_induction {P : Taking → Prop}
    (hP : ∀ st sub, P st → P (take isTradable st sub)) (h : P st) :
    P (requested.foldl (take isTradable) st) := by
  induction requested generalizing st with
  | nil => exact h
  | cons sub rest ih => exact ih (hP st sub h)

theorem active_foldl_take :
    (requested.foldl (take isTradable) st).subs.active = st.subs.active := by
  refine foldl_take_induction requested (P := fun st' => st'.subs.active = st.subs.active)
    (fun st' sub hst' => ?_) rfl
  obtain ⟨why, -, h, -⟩ | ⟨-, h, -⟩ := take_cases isTradable st' sub
  · rw [h, hst']
  · rw [h, hst']

theorem dropped_foldl_take :
    (requested.foldl (take isTradable) st).answer.dropped = st.answer.dropped := by
  refine foldl_take_induction requested
    (P := fun st' => st'.answer.dropped = st.answer.dropped) (fun st' sub hst' => ?_) rfl
  obtain ⟨why, -, -, -, h⟩ | ⟨-, -, -, -, -, h⟩ := take_cases isTradable st' sub
  · rw [h, hst']
  · rw [h, hst']

theorem mem_pending_foldl_take {u : Subscription} :
    u ∈ (requested.foldl (take isTradable) st).subs.pending ↔
      u ∈ st.subs.pending ∨
        u ∈ requested ∧ isTradable u.symbol = .ok () ∧ u ∉ st.subs.active := by
  induction requested generalizing st with
  | nil => simp
  | cons sub rest ih =>
    rw [List.foldl_cons, ih, List.mem_cons]
    obtain ⟨why, herr, h, -⟩ | ⟨hok, hact, hpend, -⟩ := take_cases isTradable st sub
    · rw [h]
      have hne : isTradable u.symbol = .ok () → u ≠ sub := by
        rintro hok rfl
        exact absurd (herr.symm.trans hok) (by simp)
      tauto
    · rw [hpend, hact]
      have hsub : u = sub → isTradable u.symbol = .ok () := by
        rintro rfl
        exact hok
      tauto

/-- What is refused is what is requested and not tradable. -/
theorem mem_rejected_foldl_take {why : String} :
    (s, why) ∈ (requested.foldl (take isTradable) st).answer.rejected ↔
      (s, why) ∈ st.answer.rejected ∨
        (∃ sub ∈ requested, sub.symbol = s) ∧ isTradable s = .error why := by
  induction requested generalizing st with
  | nil => simp
  | cons sub rest ih =>
    rw [List.foldl_cons, ih]
    obtain ⟨why', herr, -, -, h⟩ | ⟨hok, -, -, -, -, h⟩ := take_cases isTradable st sub
    · rw [h, List.mem_append, List.mem_singleton, Prod.mk.injEq, or_assoc]
      refine or_congr_right ?_
      rw [List.exists_mem_cons_iff]
      constructor
      · rintro (⟨rfl, rfl⟩ | ⟨hrest, hwhy⟩)
        · exact ⟨.inl rfl, herr⟩
        · exact ⟨.inr hrest, hwhy⟩
      · rintro ⟨rfl | hrest, hwhy⟩
        · exact .inl ⟨rfl, by simpa [herr] using hwhy.symm⟩
        · exact .inr ⟨hrest, hwhy⟩
    · rw [h, List.exists_mem_cons_iff]
      refine or_congr_right (and_congr_left fun hwhy => ?_)
      constructor
      · exact .inr
      · rintro (rfl | hrest)
        · exact absurd (hok.symm.trans hwhy) (by simp)
        · exact hrest

end Loop

variable {st : Taking} {registry : SymbolRegistry} {id : SymbolId} {replace : Bool}

/-- An id that the registry has given, it keeps through the loop. -/
theorem lookup_foldl_take (h : st.registry.lookup s = some id) :
    (requested.foldl (take isTradable) st).registry.lookup s = some id := by
  refine foldl_take_induction requested (P := fun st' => st'.registry.lookup s = some id)
    (fun st' sub hst' => ?_) h
  obtain ⟨why, -, -, heq, -⟩ | ⟨-, -, -, -, heq, -⟩ := take_cases isTradable st' sub
  · rwa [heq]
  · rw [heq]
    exact SymbolRegistry.lookup_intern_of_some hst' _

/-- After a turn that interned `sub.symbol`, the session looks every other symbol up as before. -/
private theorem knows_insert {subs : Subscriptions} {sub : Subscription}
    (h : subs.Knows registry s id) :
    (subs.ids.insert sub.symbol.key (registry.intern sub.symbol).2).lookup s.key = some id ∧
      (registry.intern sub.symbol).1.lookup s = some id := by
  have hkept := SymbolRegistry.lookup_intern_of_some h.2 sub.symbol
  refine ⟨?_, hkept⟩
  by_cases hs : s = sub.symbol
  · subst hs
    rw [AList.lookup_insert, ← hkept, SymbolRegistry.lookup_intern_self]
  · rw [AList.lookup_insert_ne (by simpa using hs)]
    exact h.1

/-- An id that session and registry agree on, they agree on through the loop. -/
theorem Knows.foldl_take (h : st.subs.Knows st.registry s id) :
    (requested.foldl (take isTradable) st).subs.Knows
      (requested.foldl (take isTradable) st).registry s id := by
  refine foldl_take_induction requested (P := fun st' => st'.subs.Knows st'.registry s id)
    (fun st' sub hst' => ?_) h
  obtain ⟨why, -, hsubs, hreg, -⟩ | ⟨-, -, -, hids, hreg, -⟩ := take_cases isTradable st' sub
  · rwa [hsubs, hreg]
  · rw [Knows, idOf, hids, hreg]
    exact knows_insert hst'

/-- Every tradable subscription of the request is answered with the id both sides hold. -/
theorem exists_assigned_foldl_take {sub : Subscription} (hmem : sub ∈ requested)
    (hok : isTradable sub.symbol = .ok ()) :
    ∃ id, (sub.symbol, id) ∈ (requested.foldl (take isTradable) st).answer.assigned ∧
      (requested.foldl (take isTradable) st).subs.Knows
        (requested.foldl (take isTradable) st).registry sub.symbol id := by
  induction requested generalizing st with
  | nil => exact absurd hmem List.not_mem_nil
  | cons r rest ih =>
    obtain rfl | hrest := List.mem_cons.mp hmem
    · obtain ⟨why, herr, -⟩ | ⟨-, -, -, hids, hreg, hans⟩ := take_cases isTradable st sub
      · exact absurd (herr.symm.trans hok) (by simp)
      · have hnow : (take isTradable st sub).subs.Knows (take isTradable st sub).registry sub.symbol
            (st.registry.intern sub.symbol).2 := by
          rw [Knows, idOf, hids, hreg]
          exact ⟨AList.lookup_insert _, SymbolRegistry.lookup_intern_self _ _⟩
        refine ⟨_, ?_, hnow.foldl_take⟩
        refine foldl_take_induction rest (P := fun st' => (sub.symbol,
          (st.registry.intern sub.symbol).2) ∈ st'.answer.assigned) (fun st' r hst' => ?_) ?_
        · obtain ⟨why, -, -, -, h⟩ | ⟨-, -, -, -, -, h⟩ := take_cases isTradable st' r
          · rwa [h]
          · rw [h]
            exact List.mem_append_left _ hst'
        · rw [hans]
          exact List.mem_append_right _ (List.mem_singleton_self _)
    · exact ih hrest

/-! ### The calls -/

theorem mem_active_subscribe {u : Subscription} :
    u ∈ (self.subscribe requested replace registry isTradable).subs.active ↔
      u ∈ self.active ∧ (replace → u ∈ requested) := by
  rw [subscribe, active_foldl_take]
  cases replace
  · simp
  · simp [keepOnly]

theorem mem_pending_subscribe {u : Subscription} :
    u ∈ (self.subscribe requested replace registry isTradable).subs.pending ↔
      u ∈ self.pending ∧ (replace → u ∈ requested) ∨
        u ∈ requested ∧ isTradable u.symbol = .ok () ∧ u ∉ self.active := by
  rw [subscribe, mem_pending_foldl_take]
  cases replace
  · simp
  · simp only [keepOnly, if_true, ListSet.mem_retain, decide_eq_true_eq]
    tauto

theorem dropped_subscribe :
    (self.subscribe requested replace registry isTradable).answer.dropped =
      if replace then (self.replaced requested).toList.map Subscription.symbol else [] :=
  dropped_foldl_take _ _ _

theorem mem_rejected_subscribe {why : String} :
    (s, why) ∈ (self.subscribe requested replace registry isTradable).answer.rejected ↔
      (∃ sub ∈ requested, sub.symbol = s) ∧ isTradable s = .error why := by
  rw [subscribe, mem_rejected_foldl_take]
  simp

theorem Knows.subscribe (h : self.Knows registry s id) :
    (self.subscribe requested replace registry isTradable).subs.Knows
      (self.subscribe requested replace registry isTradable).registry s id := by
  refine foldl_take ?_
  cases replace
  · exact h
  · exact h

theorem Disjoint.subscribe (h : self.Disjoint) :
    (self.subscribe requested replace registry isTradable).subs.Disjoint := by
  intro u hact hpend
  rw [mem_active_subscribe] at hact
  obtain ⟨hold, -⟩ | ⟨-, -, hnot⟩ := mem_pending_subscribe.mp hpend
  · exact h u hact.1 hold
  · exact hnot hact.1

@[simp]
theorem mem_active_activate {u : Subscription} :
    u ∈ self.activate.active ↔ u ∈ self.active ∨ u ∈ self.pending :=
  ListSet.mem_extend

theorem disjoint_activate (self : Subscriptions) : self.activate.Disjoint :=
  fun u _ => ListSet.notMem_empty u

/-- The session has the subscription, announced or not. -/
def Holds (self : Subscriptions) (sub : Subscription) : Prop :=
  sub ∈ self.active ∨ sub ∈ self.pending

/-- What one turn of `unsubscribe` can do: nothing, or take away a subscription that is held. -/
theorem release_cases (st : Subscriptions × List Symbol) (sub : Subscription)
    (hdis : st.1.Disjoint) :
    (release st sub).1.ids = st.1.ids ∧
    (∀ u, u ∈ (release st sub).1.active ↔ u ∈ st.1.active ∧ u ≠ sub) ∧
    (∀ u, u ∈ (release st sub).1.pending ↔ u ∈ st.1.pending ∧ u ≠ sub) ∧
    (st.1.Holds sub ∧ (release st sub).2 = st.2 ++ [sub.symbol] ∨
      ¬ st.1.Holds sub ∧ (release st sub).2 = st.2) := by
  rw [release]
  split
  · rename_i hact
    have hpend := hdis sub hact
    refine ⟨rfl, fun u => ?_, fun u => ?_, .inl ⟨.inl hact, rfl⟩⟩
    · rw [ListSet.mem_erase, and_comm]
    · exact ⟨fun hu => ⟨hu, fun heq => hpend (heq ▸ hu)⟩, And.left⟩
  · rename_i hact
    split
    · rename_i hpend
      refine ⟨rfl, fun u => ?_, fun u => ?_, .inl ⟨.inr hpend, rfl⟩⟩
      · exact ⟨fun hu => ⟨hu, fun heq => hact (heq ▸ hu)⟩, And.left⟩
      · rw [ListSet.mem_erase, and_comm]
    · rename_i hpend
      refine ⟨rfl, fun u => ?_, fun u => ?_, .inr ⟨not_or.mpr ⟨hact, hpend⟩, rfl⟩⟩
      · exact ⟨fun hu => ⟨hu, fun heq => hact (heq ▸ hu)⟩, And.left⟩
      · exact ⟨fun hu => ⟨hu, fun heq => hpend (heq ▸ hu)⟩, And.left⟩

theorem Disjoint.release {st : Subscriptions × List Symbol} (hdis : st.1.Disjoint)
    (sub : Subscription) : (release st sub).1.Disjoint := by
  obtain ⟨-, hact, hpend, -⟩ := release_cases st sub hdis
  intro u hu hp
  exact hdis u ((hact u).mp hu).1 ((hpend u).mp hp).1

/-- What `unsubscribe` does: the requested subscriptions go, and the answer has the symbol of each
that was held, once for each. -/
theorem foldl_release {st : Subscriptions × List Symbol} (hdis : st.1.Disjoint) :
    let done := requested.foldl Subscriptions.release st
    done.1.ids = st.1.ids ∧
    (∀ u, u ∈ done.1.active ↔ u ∈ st.1.active ∧ u ∉ requested) ∧
    (∀ u, u ∈ done.1.pending ↔ u ∈ st.1.pending ∧ u ∉ requested) ∧
    ∃ gone : List Subscription, gone.Nodup ∧ (∀ u, u ∈ gone ↔ u ∈ requested ∧ st.1.Holds u) ∧
      done.2 = st.2 ++ gone.map Subscription.symbol := by
  induction requested generalizing st with
  | nil => exact ⟨rfl, by simp, by simp, [], List.nodup_nil, by simp, by simp⟩
  | cons sub rest ih =>
    obtain ⟨hids, hact, hpend, hout⟩ := release_cases st sub hdis
    obtain ⟨hids', hact', hpend', gone, hnodup, hgone, hsyms⟩ := ih (hdis.release sub)
    have hheld : ∀ u, (release st sub).1.Holds u ↔ st.1.Holds u ∧ u ≠ sub := by
      intro u
      rw [Holds, hact, hpend, ← or_and_right]
      rfl
    refine ⟨hids'.trans hids, fun u => ?_, fun u => ?_, ?_⟩
    · rw [List.foldl_cons, hact', hact, List.mem_cons, not_or, and_assoc]
    · rw [List.foldl_cons, hpend', hpend, List.mem_cons, not_or, and_assoc]
    · obtain ⟨hsub, hadd⟩ | ⟨hsub, hsame⟩ := hout
      · refine ⟨sub :: gone, List.nodup_cons.mpr ⟨fun hmem => ?_, hnodup⟩, fun u => ?_, ?_⟩
        · exact ((hheld sub).mp ((hgone sub).mp hmem).2).2 rfl
        · rw [List.mem_cons, List.mem_cons, hgone, hheld]
          by_cases hu : u = sub
          · subst hu
            simp [hsub]
          · simp [hu]
        · rw [List.foldl_cons, hsyms, hadd, List.append_assoc]
          rfl
      · refine ⟨gone, hnodup, fun u => ?_, ?_⟩
        · rw [hgone, hheld, List.mem_cons]
          by_cases hu : u = sub
          · subst hu
            simp [hsub]
          · simp [hu]
        · rw [List.foldl_cons, hsyms, hsame]

theorem ids_unsubscribe (self : Subscriptions) (hdis : self.Disjoint) :
    (self.unsubscribe requested).1.ids = self.ids :=
  (@foldl_release requested (self, []) hdis).1

theorem mem_active_unsubscribe (hdis : self.Disjoint) {u : Subscription} :
    u ∈ (self.unsubscribe requested).1.active ↔ u ∈ self.active ∧ u ∉ requested :=
  (@foldl_release requested (self, []) hdis).2.1 u

theorem mem_pending_unsubscribe (hdis : self.Disjoint) {u : Subscription} :
    u ∈ (self.unsubscribe requested).1.pending ↔ u ∈ self.pending ∧ u ∉ requested :=
  (@foldl_release requested (self, []) hdis).2.2.1 u

/-- The symbols `unsubscribe` answers with, one for each subscription it takes. -/
theorem unsubscribe_symbols (self : Subscriptions) (requested : List Subscription)
    (hdis : self.Disjoint) :
    ∃ gone : List Subscription, gone.Nodup ∧ (∀ u, u ∈ gone ↔ u ∈ requested ∧ self.Holds u) ∧
      (self.unsubscribe requested).2 = gone.map Subscription.symbol :=
  (@foldl_release requested (self, []) hdis).2.2.2

theorem Disjoint.unsubscribe (h : self.Disjoint) : (self.unsubscribe requested).1.Disjoint := by
  intro u hact hpend
  exact h u ((mem_active_unsubscribe h).mp hact).1 ((mem_pending_unsubscribe h).mp hpend).1

end Subscriptions

/-- A call on one session's subscriptions. -/
inductive SubCall where
  | subscribe (requested : List Subscription) (replace : Bool)
      (isTradable : Symbol → Except String Unit)
  | activate
  | unsubscribe (requested : List Subscription)

/-- What each call is answered with. -/
inductive SubAnswer where
  | assigned (answer : Assigned)
  | activated
  | removed (symbols : List Symbol)

/-- One call, with the registry it may extend. -/
def SubCall.exec (subs : Subscriptions) (registry : SymbolRegistry) :
    SubCall → (Subscriptions × SymbolRegistry) × SubAnswer
  | .subscribe requested replace isTradable =>
    let taken := subs.subscribe requested replace registry isTradable
    ((taken.subs, taken.registry), .assigned taken.answer)
  | .activate => ((subs.activate, registry), .activated)
  | .unsubscribe requested =>
    let removed := subs.unsubscribe requested
    ((removed.1, registry), .removed removed.2)

theorem SubCall.disjoint_exec {subs : Subscriptions} (h : subs.Disjoint)
    (registry : SymbolRegistry) (call : SubCall) : (call.exec subs registry).1.1.Disjoint := by
  cases call with
  | subscribe requested replace isTradable => exact h.subscribe
  | activate => exact subs.disjoint_activate
  | unsubscribe requested => exact h.unsubscribe

/-- The registry keeps every id it has given. -/
theorem SubCall.lookup_exec {registry : SymbolRegistry} {s : Symbol} {id : SymbolId}
    (h : registry.lookup s = some id) (subs : Subscriptions) (call : SubCall) :
    (call.exec subs registry).1.2.lookup s = some id := by
  cases call with
  | subscribe requested replace isTradable => exact Subscriptions.lookup_foldl_take h
  | activate => exact h
  | unsubscribe requested => exact h

/-- An id that session and registry agree on, they agree on after any call. -/
theorem Subscriptions.Knows.exec {subs : Subscriptions} {registry : SymbolRegistry} {s : Symbol}
    {id : SymbolId} (h : subs.Knows registry s id) (hdis : subs.Disjoint) (call : SubCall) :
    (call.exec subs registry).1.1.Knows (call.exec subs registry).1.2 s id := by
  cases call with
  | subscribe requested replace isTradable => exact h.subscribe
  | activate => exact h
  | unsubscribe requested =>
    refine ⟨?_, h.2⟩
    simpa only [SubCall.exec, Subscriptions.idOf, subs.ids_unsubscribe hdis] using h.1

/-- The instruments an answer reports as stopped: of an `unsubscribe`, those that were being
delivered. -/
def SubAnswer.stopped (before : Subscriptions) : SubAnswer → List Symbol
  | .assigned answer => answer.dropped
  | .activated => []
  | .removed symbols => symbols.filter before.wantsSymbol

/-- What is reported as stopped is what stopped, once each. -/
def Truthful (before after : Subscriptions) (stopped : List Symbol) : Prop :=
  stopped.Nodup ∧ ∀ s, s ∈ stopped ↔ before.wantsSymbol s ∧ ¬ after.wantsSymbol s

/-- Each subscription the call takes from a delivered instrument is the only one of its
instrument: the only active one, and the only one the call takes. -/
def SubCall.Whole (subs : Subscriptions) : SubCall → Prop
  | .subscribe requested replace _ =>
    replace → ∀ g ∈ subs.active, g ∉ requested → ∀ u ∈ subs.active, u.symbol = g.symbol → u = g
  | .activate => True
  | .unsubscribe requested =>
    ∀ g ∈ requested, subs.Holds g → subs.wantsSymbol g.symbol →
      ∀ u, u ∈ subs.active ∨ u ∈ subs.pending ∧ u ∈ requested → u.symbol = g.symbol → u = g

/-- Taking `gone` away from the active subscriptions, where each of `gone` is about a delivered
instrument, reports what stopped exactly when each is the only one of its instrument. -/
theorem truthful_map_symbol_iff {before after : Subscriptions} {gone : List Subscription}
    (hnodup : gone.Nodup) (hgone : ∀ g ∈ gone, before.wantsSymbol g.symbol)
    (hafter : ∀ u, u ∈ after.active ↔ u ∈ before.active ∧ u ∉ gone) :
    Truthful before after (gone.map Subscription.symbol) ↔
      ∀ g ∈ gone, ∀ u, u ∈ before.active ∨ u ∈ gone → u.symbol = g.symbol → u = g := by
  rw [Truthful, List.nodup_map_iff_inj_on hnodup]
  constructor
  · rintro ⟨hinj, hexact⟩ g hg u hu hsym
    refine hinj u ?_ g hg hsym
    obtain hact | hmem := hu
    · by_contra hnot
      have hstopped := (hexact g.symbol).mp (List.mem_map_of_mem hg)
      exact hstopped.2 (Subscriptions.wantsSymbol_iff.mpr ⟨u, (hafter u).mpr ⟨hact, hnot⟩, hsym⟩)
    · exact hmem
  · intro honly
    refine ⟨fun u hu g hg hsym => honly g hg u (.inr hu) hsym, fun s => ?_⟩
    rw [List.mem_map, Subscriptions.wantsSymbol_iff, Subscriptions.wantsSymbol_iff]
    constructor
    · rintro ⟨g, hg, rfl⟩
      refine ⟨Subscriptions.wantsSymbol_iff.mp (hgone g hg), ?_⟩
      rintro ⟨u, hu, hsym⟩
      obtain ⟨hact, hnot⟩ := (hafter u).mp hu
      exact hnot (honly g hg u (.inl hact) hsym ▸ hg)
    · rintro ⟨⟨u, hu, hsym⟩, hsilent⟩
      refine ⟨u, ?_, hsym⟩
      by_contra hnot
      exact hsilent ⟨u, (hafter u).mpr ⟨hu, hnot⟩, hsym⟩

/-- Where delivery only grows, nothing stopped. -/
theorem truthful_nil {before after : Subscriptions}
    (h : ∀ u ∈ before.active, u ∈ after.active) : Truthful before after [] := by
  refine ⟨List.nodup_nil, fun s => ⟨fun hs => absurd hs List.not_mem_nil, ?_⟩⟩
  rintro ⟨hbefore, hafter⟩
  obtain ⟨u, hu, hsym⟩ := Subscriptions.wantsSymbol_iff.mp hbefore
  exact absurd (Subscriptions.wantsSymbol_iff.mpr ⟨u, h u hu, hsym⟩) hafter

/-- A subscribe stops what it replaces. -/
theorem truthful_subscribe_iff (subs : Subscriptions) (registry : SymbolRegistry)
    (requested : List Subscription) (replace : Bool) (isTradable : Symbol → Except String Unit) :
    let call : SubCall := .subscribe requested replace isTradable
    Truthful subs (call.exec subs registry).1.1 ((call.exec subs registry).2.stopped subs) ↔
      call.Whole subs := by
  simp only [SubCall.exec, SubAnswer.stopped, Subscriptions.dropped_subscribe]
  cases replace with
  | false =>
    refine iff_of_true (truthful_nil fun u hu => ?_) fun h => absurd h Bool.false_ne_true
    exact Subscriptions.mem_active_subscribe.mpr ⟨hu, fun h => absurd h Bool.false_ne_true⟩
  | true =>
    have hgone : ∀ u, u ∈ (subs.replaced requested).toList ↔
        u ∈ subs.active ∧ u ∉ requested := by
      intro u
      rw [ListSet.mem_toList, Subscriptions.replaced, ListSet.mem_retain, decide_eq_true_eq]
    rw [if_pos rfl, truthful_map_symbol_iff (subs.replaced requested).nodup]
    · simp only [SubCall.Whole, forall_const, hgone, and_imp]
      refine forall_congr' fun g => forall_congr' fun hg => forall_congr' fun hnot => ?_
      refine forall_congr' fun u => imp_congr_left ?_
      exact ⟨fun h => h.elim id And.left, .inl⟩
    · intro g hg
      exact Subscriptions.wantsSymbol_iff.mpr ⟨g, ((hgone g).mp hg).1, rfl⟩
    · intro u
      rw [Subscriptions.mem_active_subscribe, hgone]
      tauto

/-- An unsubscribe stops what it names, as far as it was held. -/
theorem truthful_unsubscribe_iff {subs : Subscriptions} (hdis : subs.Disjoint)
    (registry : SymbolRegistry) (requested : List Subscription) :
    let call : SubCall := .unsubscribe requested
    Truthful subs (call.exec subs registry).1.1 ((call.exec subs registry).2.stopped subs) ↔
      call.Whole subs := by
  obtain ⟨gone, hnodup, hmem, hsyms⟩ := subs.unsubscribe_symbols requested hdis
  have hdelivered : ∀ u, u ∈ gone.filter (fun u => subs.wantsSymbol u.symbol) ↔
      (u ∈ requested ∧ subs.Holds u) ∧ subs.wantsSymbol u.symbol := by
    intro u
    rw [List.mem_filter, hmem]
  simp only [SubCall.exec, SubAnswer.stopped, hsyms, List.filter_map]
  rw [truthful_map_symbol_iff (hnodup.filter _)]
  · simp only [SubCall.Whole, Function.comp_def, hdelivered, and_imp]
    refine forall_congr' fun g => forall_congr' fun hg => forall_congr' fun hheld =>
      forall_congr' fun hwant => forall_congr' fun u => ?_
    constructor
    · intro h hu hsym
      refine h ?_ hsym
      obtain hu | ⟨hp, hreq⟩ := hu
      · exact .inl hu
      · exact .inr ⟨⟨hreq, .inr hp⟩, hsym ▸ hwant⟩
    · intro h hu hsym
      refine h ?_ hsym
      obtain hu | ⟨⟨hreq, hu⟩, -⟩ := hu
      · exact .inl hu
      · exact hu.imp_right fun hp => ⟨hp, hreq⟩
  · intro g hg
    exact ((hdelivered g).mp hg).2
  · intro u
    rw [Subscriptions.mem_active_unsubscribe hdis]
    refine and_congr_right fun hu => not_congr ?_
    have hwant : subs.wantsSymbol u.symbol := Subscriptions.wantsSymbol_iff.mpr ⟨u, hu, rfl⟩
    simp only [Function.comp_def, hdelivered, hwant, and_true]
    exact ⟨fun hreq => ⟨hreq, .inl hu⟩, And.left⟩

/-- One call reports what stopped exactly when it takes whole instruments. -/
theorem SubCall.truthful_iff {subs : Subscriptions} (hdis : subs.Disjoint)
    (registry : SymbolRegistry) (call : SubCall) :
    Truthful subs (call.exec subs registry).1.1 ((call.exec subs registry).2.stopped subs) ↔
      call.Whole subs := by
  cases call with
  | activate =>
    refine iff_of_true (truthful_nil fun u hu => ?_) trivial
    exact Subscriptions.mem_active_activate.mpr (.inl hu)
  | subscribe requested replace isTradable =>
    exact truthful_subscribe_iff subs registry requested replace isTradable
  | unsubscribe requested => exact truthful_unsubscribe_iff hdis registry requested

end MoonCore
