import Mathlib.Data.Int.Order.Basic
import MoonCore.Core.Pump

/-!
# The books of the read-model

What a connector shows is its *view*: the synced book under each key. `Announces` says how a
view may change and which book events go with each change: a book shown in full, a book
extended by a forwarded delta, and, with no event at all, a book withdrawn or all of them
forgotten. Every step of the connector is one of these (`Connector.announces`).

Two statements about the read-model follow.

* `book_replica`: where the view has a book the read-model has the same one, and no delta it
  folds ever meets a book it does not extend.
* `serves_only_held_iff`: the converse, that the read-model serves no book the connector has
  withdrawn, holds throughout a run exactly when nothing is ever withdrawn
  (`Connector.KeepsBooks`), because a withdrawal is not announced.
-/

namespace MoonCore

variable {D : Type*}

/-- The event concerns no book. -/
def Event.Quiet (event : Event D) : Prop :=
  (∀ book, event.payload ≠ .market (.bookSnapshot book)) ∧
    ∀ delta, event.payload ≠ .market (.bookDelta delta)

theorem quiet_connection (now : Timestamp) (health : ConnectionEvent) :
    (Event.connection now health : Event D).Quiet := by
  simp [Event.Quiet]

variable [LinearOrder D] [Zero D]

/-- Events that concern no book leave the books alone. -/
theorem foldl_foldBooks_quiet {events : List (Event D)} (h : ∀ event ∈ events, event.Quiet)
    (books : Books D) : events.foldl foldBooks books = books := by
  induction events generalizing books with
  | nil => rfl
  | cons event events ih =>
    have hone : foldBooks books event = books := by
      obtain ⟨hsnap, hdelta⟩ := h event List.mem_cons_self
      rw [foldBooks]
      split
      · rename_i market hmarket
        cases market with
        | bookSnapshot book => exact absurd hmarket (hsnap book)
        | bookDelta delta => exact absurd hmarket (hdelta delta)
        | _ => rfl
      · rfl
    rw [List.foldl_cons, hone, ih fun e he => h e (List.mem_cons_of_mem event he)]

/-- How a view may change, and what is published with each change. -/
inductive Announces (view : Books D) : Books D → List (Event D) → Prop
  | kept {events : List (Event D)} (quiet : ∀ event ∈ events, event.Quiet) :
      Announces view view events
  | withdrawn {events : List (Event D)} (key : String) (quiet : ∀ event ∈ events, event.Quiet) :
      Announces view (Function.update view key none) events
  | forgotten {events : List (Event D)} (quiet : ∀ event ∈ events, event.Quiet) :
      Announces view (fun _ => none) events
  | extended {events : List (Event D)} {now : Timestamp} {delta : BookDelta D} {b : OrderBook D}
      (held : view delta.symbol.key = some b) (extends_ : OrderBook.Extends delta b)
      (quiet : ∀ event ∈ events, event.Quiet) :
      Announces view (Function.update view delta.symbol.key (some (b.extend delta)))
        (Event.market now (.bookDelta delta) :: events)
  | shown {events : List (Event D)} {now : Timestamp} {b : OrderBook D} {symbol : Symbol}
      (symbol_eq : b.symbol = some symbol) (quiet : ∀ event ∈ events, event.Quiet) :
      Announces view (Function.update view symbol.key (some b))
        (Event.market now (.bookSnapshot b) :: events)

/-- Every book of the view is in the copy. -/
def Sync (view books : Books D) : Prop := ∀ key b, view key = some b → books key = some b

namespace Announces

variable {view view' books : Books D} {events : List (Event D)}

/-- What the published events make of a copy: a book that is shown or extended is the view's
own, and a copy that agrees with the view everywhere else goes on agreeing. -/
theorem foldBooks_eq (h : Announces view view' events) (hsync : Sync view books) :
    (events.foldl foldBooks books = books ∧
      ∀ key, view' key = view key ∨ view' key = none) ∨
    ∃ key b, events.foldl foldBooks books = Function.update books key (some b) ∧
      view' = Function.update view key (some b) := by
  cases h with
  | kept quiet => exact .inl ⟨foldl_foldBooks_quiet quiet books, fun _ => .inl rfl⟩
  | withdrawn key quiet =>
    refine .inl ⟨foldl_foldBooks_quiet quiet books, fun k => ?_⟩
    rw [Function.update_apply]
    split_ifs
    · exact .inr rfl
    · exact .inl rfl
  | forgotten quiet => exact .inl ⟨foldl_foldBooks_quiet quiet books, fun _ => .inr rfl⟩
  | @extended events now delta b held extends_ quiet =>
    refine .inr ⟨delta.symbol.key, b.extend delta, ?_, rfl⟩
    have hheld := hsync _ b held
    rw [List.foldl_cons, foldl_foldBooks_quiet quiet]
    rcases foldBooks_delta_some books now hheld with ⟨hle, -⟩ | ⟨-, heq⟩ | ⟨-, hnot, -⟩
    · exact absurd extends_.1 (Nat.not_lt.mpr hle)
    · exact heq
    · exact absurd extends_ hnot
  | @shown events now b symbol symbol_eq quiet =>
    refine .inr ⟨symbol.key, b, ?_, rfl⟩
    rw [List.foldl_cons, foldl_foldBooks_quiet quiet, foldBooks_snapshot books now symbol_eq]

/-- Agreement with the view survives every announced change. -/
theorem sync (h : Announces view view' events) (hsync : Sync view books) :
    Sync view' (events.foldl foldBooks books) := by
  intro key b hb
  rcases h.foldBooks_eq hsync with ⟨heq, hview⟩ | ⟨key', b', heq, hview⟩
  · rw [heq]
    rcases hview key with hsame | hnone
    · exact hsync key b (hsame ▸ hb)
    · exact absurd (hnone.symm.trans hb) (by simp)
  · rw [hview, Function.update_apply] at hb
    rw [heq, Function.update_apply]
    split_ifs at hb ⊢ with hkey
    · exact hb
    · exact hsync key b hb

/-- No delta that goes with an announced change tears a copy that agrees with the view. -/
theorem not_tears (h : Announces view view' events) {ms : MarketState D}
    (hsync : Sync view ms.books) :
    MarketState.consumer.Along (fun ms event => ¬ Tears ms.books event) ms events := by
  have hquiet : ∀ {events : List (Event D)}, (∀ event ∈ events, event.Quiet) → ∀ ms,
      MarketState.consumer.Along (fun ms event => ¬ Tears ms.books event) ms events := by
    intro events hquiet ms
    refine Machine.Along.mono (Machine.along_of_forall_mem hquiet ms) ?_
    exact fun ms event hevent => MoonCore.not_tears hevent.2
  cases h with
  | kept quiet => exact hquiet quiet ms
  | withdrawn key quiet => exact hquiet quiet ms
  | forgotten quiet => exact hquiet quiet ms
  | extended held extends_ quiet =>
    exact ⟨not_tears_of_extends (hsync _ _ held) extends_, hquiet quiet _⟩
  | shown symbol_eq quiet =>
    exact ⟨MoonCore.not_tears fun delta => by simp, hquiet quiet _⟩

end Announces

/-! ### The connector announces -/

namespace Connector

omit [LinearOrder D] [Zero D] in
/-- Storing an entry, seen by the view. -/
theorem view_insert (set : BookSet D) (key : String) (entry : Entry D) :
    (set.insert key entry).book =
      Function.update set.book key (entry.book.filter OrderBook.synced) := by
  funext k
  rw [BookSet.book_insert, Function.update_apply]

omit [LinearOrder D] [Zero D] in
/-- The entry a delta goes to holds what the view shows, before the check that it is synced. -/
theorem filter_entryFor (set : BookSet D) (symbol : Symbol) :
    (set.entryFor symbol).book.filter OrderBook.synced = set.book symbol.key := by
  rw [BookSet.entryFor, BookSet.book]
  rcases set.entries symbol.key with _ | entry <;> rfl

/-- A delta is announced: it extends the book shown, makes a book usable, or takes one away. -/
theorem announces_onDelta (self : Connector D) (hkept : BookSet.Every BookSet.Kept self.books)
    (delta : BookDelta D) (now : Timestamp) :
    Announces self.books.book (self.onDelta delta now).1.books.book
      (self.onDelta delta now).2 := by
  have hnotice : ∀ need : Need, ∀ event ∈ need.notice now, @Event.Quiet D event := by
    intro need event hevent
    obtain ⟨health, rfl⟩ := Need.mem_notice hevent
    exact quiet_connection now health
  have hview := filter_entryFor self.books delta.symbol
  rcases self.books.onDelta_cases delta now with ⟨entry, -, hwait, hbooks, hforward, hattached⟩ |
    ⟨b, hb, hext, heq⟩ | ⟨b, hb, -, heq⟩
  · -- the delta is buffered: whatever was shown is gone
    have hnone : entry.book.filter OrderBook.synced = none := by rw [hwait.book]; rfl
    simp only [onDelta, hbooks, hforward, hattached, view_insert, hnone, Bool.false_eq_true,
      if_false, List.nil_append]
    exact .withdrawn delta.symbol.key (hnotice _)
  · rw [hb] at hview
    simp only [onDelta, heq, view_insert, Option.filter_some, OrderBook.extend_synced, if_true]
    rcases hs : b.synced with _ | _
    · -- the book has just become usable
      have hentry : BookSet.Kept delta.symbol.key (self.books.entryFor delta.symbol) :=
        hkept.entryFor (BookSet.stable_kept.fresh delta.symbol)
      obtain ⟨symbol, hsymbol, hkey⟩ := hentry.book_symbol b hb
      simp only [Bool.not_false, if_true, Function.update_self, List.singleton_append]
      rw [← hkey]
      exact .shown hsymbol (hnotice _)
    · have hheld : self.books.book delta.symbol.key = some b := by
        rw [← hview, Option.filter_some, if_pos hs]
      simp only [Bool.not_true, Bool.false_eq_true, if_false, if_true, List.singleton_append]
      exact .extended hheld hext (hnotice _)
  · have hsame : Function.update self.books.book delta.symbol.key
        ((self.books.entryFor delta.symbol).book.filter OrderBook.synced) = self.books.book := by
      rw [hview, Function.update_eq_self]
    simp only [onDelta, heq, view_insert, hsame, Bool.false_eq_true, if_false, List.nil_append]
    exact .kept (hnotice _)

theorem onFetched_books (self : Connector D) (snapshot : OrderBook D) (now : Timestamp) :
    (self.onFetched snapshot now).1.books = (self.books.installSnapshot snapshot now).1 := by
  rw [onFetched]
  rcases self.books.installSnapshot snapshot now with ⟨books, _ | b⟩ <;> rfl

/-- A snapshot is announced: it is shown, or takes the book away, or nothing happens. -/
theorem announces_onFetched (self : Connector D) (snapshot : OrderBook D) (now : Timestamp) :
    Announces self.books.book (self.onFetched snapshot now).1.books.book
      (self.onFetched snapshot now).2 := by
  have hnil : ∀ event ∈ ([] : List (Event D)), event.Quiet := fun _ h => absurd h List.not_mem_nil
  rcases self.books.installSnapshot_cases snapshot now with ⟨-, heq⟩ | ⟨symbol, entry, hsym, -,
    ⟨-, heq⟩ | ⟨b, hreplay, heq⟩⟩
  · simp only [onFetched, heq]
    exact .kept hnil
  · simp only [onFetched, heq, view_insert, Option.filter_none]
    exact .withdrawn symbol.key hnil
  · rcases hs : b.synced with _ | _
    · simp only [onFetched, heq, view_insert, Option.filter_some, hs, Bool.false_eq_true, if_false]
      exact .withdrawn symbol.key hnil
    · simp only [onFetched, heq, view_insert, Option.filter_some, hs, if_true]
      exact .shown ((replay_symbol hreplay).trans hsym) hnil

variable [Add D]

/-- **Every step of the connector is announced.** -/
theorem announces (self : Connector D) (hkept : BookSet.Every BookSet.Kept self.books)
    (input : Input D) :
    Announces self.books.book (self.step input).1.books.book (self.step input).2 := by
  cases input with
  | connecting now => exact .kept (by simp [step, quiet_connection])
  | ready now => exact .kept (by simp [step, quiet_connection])
  | trade trade now =>
    refine .kept fun event hevent => ?_
    simp only [step, onTrade, List.mem_append, List.mem_map, List.mem_singleton] at hevent
    rcases hevent with ⟨candle, -, rfl⟩ | rfl <;> simp [Event.Quiet]
  | delta delta now => exact self.announces_onDelta hkept delta now
  | fetched snapshot now => exact self.announces_onFetched snapshot now
  | failed symbol =>
    have hsame : (self.books.snapshotFailed symbol).book = self.books.book :=
      funext (self.books.book_snapshotFailed symbol)
    simp only [step, hsame]
    exact .kept (by simp)
  | disconnected reason now => exact .forgotten (by simp [step, quiet_connection])

/-- Every input keeps the bookkeeping of the entries. -/
theorem kept_step (self : Connector D) (hkept : BookSet.Every BookSet.Kept self.books)
    (input : Input D) : BookSet.Every BookSet.Kept (self.step input).1.books := by
  have hcall : ∀ op, BookSet.Every BookSet.Kept (BookSet.machine.next self.books op) :=
    fun op => BookSet.stable_kept.step trivial hkept
  cases input with
  | delta delta now => exact hcall (.delta delta now)
  | fetched snapshot now =>
    change BookSet.Every BookSet.Kept (self.onFetched snapshot now).1.books
    rw [onFetched_books]
    exact hcall (.snapshot snapshot now)
  | failed symbol => exact hcall (.failed symbol)
  | disconnected reason now => exact hcall .reset
  | _ => exact hkept

end Connector

/-! ### Runs of the core -/

variable [Add D]

/-- What every step of the core keeps: the bookkeeping of the entries, and a read-model that has
every book of the view. -/
structure Synced (s : Connector D × MarketState D) : Prop where
  kept : BookSet.Every BookSet.Kept s.1.books
  sync : Sync s.1.books.book s.2.books

theorem synced_step (s : Connector D × MarketState D) (input : Input D) (h : Synced s) :
    Synced (core.next s input) := by
  refine ⟨s.1.kept_step h.kept input, ?_⟩
  rw [core_next_books]
  exact (s.1.announces h.kept input).sync h.sync

omit [LinearOrder D] [Zero D] [Add D] in
theorem synced_start (bucketing : Bucketing) (capacity : ℕ) (cooldownMs : ℤ) :
    Synced (coreStart bucketing capacity cooldownMs : Connector D × MarketState D) :=
  ⟨BookSet.every_new cooldownMs, fun key b hb => absurd hb (by simp [coreStart, Connector.new])⟩

/-- **Consumer replica.** After every run the read-model's book is the connector's wherever the
connector has a synced one, and no delta of the run tears a book of the read-model. -/
theorem book_replica (bucketing : Bucketing) (capacity : ℕ) (cooldownMs : ℤ)
    (inputs : List (Input D)) :
    (∀ key b,
      (core.run (coreStart bucketing capacity cooldownMs) inputs).1.books.book key = some b →
      (core.run (coreStart bucketing capacity cooldownMs) inputs).2.books key = some b) ∧
    MarketState.consumer.Along (fun ms event => ¬ Tears ms.books event) .new
      ((Connector.new bucketing capacity cooldownMs : Connector D).published inputs) := by
  have hstart : Synced (coreStart bucketing capacity cooldownMs : Connector D × _) :=
    synced_start bucketing capacity cooldownMs
  constructor
  · exact (Machine.run_invariant synced_step hstart inputs).sync
  · refine Machine.along_outputs_flatten MarketState.consumer synced_step (fun s input h => ?_)
      hstart inputs
    exact (s.1.announces h.kept input).not_tears h.sync

/-! ### Books that are withdrawn -/

namespace Connector

/-- The input takes no book away: a delta for a shown book chains onto it or is older, a snapshot
put in a shown book's place is synced, and the socket dies only while no book is shown. -/
def KeepsBooks (self : Connector D) : Input D → Prop
  | .delta delta _ => ∀ b, self.books.book delta.symbol.key = some b →
    delta.lastUpdateId ≤ b.lastUpdateId ∨ delta.prevUpdateId = b.lastUpdateId
  | .fetched snapshot _ => ∀ symbol, snapshot.symbol = some symbol →
    self.books.book symbol.key ≠ none → snapshot.synced = true
  | .disconnected _ _ => ∀ key, self.books.book key = none
  | _ => True

omit [LinearOrder D] [Zero D] [Add D] in
/-- Where two views agree off one key, whether the second keeps the books of the first is decided
there. -/
theorem keeps_iff_of_eq_off {before after : String → Option (OrderBook D)} {at_ : String}
    (h : ∀ key, key ≠ at_ → after key = before key) :
    (∀ key, before key ≠ none → after key ≠ none) ↔ (before at_ ≠ none → after at_ ≠ none) := by
  refine ⟨fun hkeeps => hkeeps at_, fun hkeeps key hne => ?_⟩
  obtain rfl | hkey := eq_or_ne key at_
  · exact hkeeps hne
  · rwa [h key hkey]

variable {self : Connector D}

omit [Add D] in
/-- A delta takes a book away exactly when the book it meets neither contains nor precedes it. -/
theorem keepsBooks_delta_iff (delta : BookDelta D) (now : Timestamp) :
    self.KeepsBooks (.delta delta now) ↔
      ∀ key, self.books.book key ≠ none → (self.onDelta delta now).1.books.book key ≠ none := by
  have hview := filter_entryFor self.books delta.symbol
  change _ ↔ ∀ key, _ → (self.books.onDelta delta now).1.book key ≠ none
  rcases self.books.onDelta_cases delta now with ⟨entry, hmet, hwait, hbooks, -, -⟩ |
    ⟨b, hb, hext, heq⟩ | ⟨b, hb, hle, heq⟩
  · rw [hbooks, view_insert, hwait.book, Option.filter_none]
    rw [keeps_iff_of_eq_off fun key hkey => Function.update_of_ne hkey _ _, Function.update_self,
      imp_iff_not (not_not_intro rfl), not_not]
    constructor
    · intro hkeeps
      by_contra hne
      obtain ⟨b, hshown⟩ := Option.ne_none_iff_exists'.mp hne
      have hentry := hview.trans hshown
      rw [Option.filter_eq_some_iff] at hentry
      rcases hmet with hnone | ⟨b', hb', hlt, hnot⟩
      · exact absurd (hnone.symm.trans hentry.1) (by simp)
      · obtain rfl : b' = b := Option.some.inj (hb'.symm.trans hentry.1)
        rcases hkeeps b' hshown with hle | hprev
        · exact absurd hlt (Nat.not_lt.mpr hle)
        · exact hnot ⟨hlt, by rw [if_pos hentry.2]; exact hprev⟩
    · exact fun hnone b hb => absurd (hnone.symm.trans hb) (by simp)
  · rw [heq, view_insert, Option.filter_some, OrderBook.extend_synced, if_pos rfl]
    refine iff_of_true (fun b' hb' => ?_) fun key hne => ?_
    · rw [← hview, hb, Option.filter_some] at hb'
      split_ifs at hb' with hs
      obtain rfl := Option.some.inj hb'
      have hjoin := hext.2
      rw [if_pos hs] at hjoin
      exact .inr hjoin
    · rw [Function.update_apply]
      split_ifs
      · simp
      · exact hne
  · rw [heq, view_insert, hview, Function.update_eq_self]
    refine iff_of_true (fun b' hb' => ?_) fun key hne => hne
    rw [← hview, hb, Option.filter_some] at hb'
    split_ifs at hb'
    exact .inl (Option.some.inj hb' ▸ hle)

omit [Add D] in
/-- A snapshot takes a shown book away exactly when it is not synced itself: nothing is buffered
behind a book, so the snapshot is put in its place as it is. -/
theorem keepsBooks_fetched_iff (hkept : BookSet.Every BookSet.Kept self.books)
    (snapshot : OrderBook D) (now : Timestamp) :
    self.KeepsBooks (.fetched snapshot now) ↔
      ∀ key, self.books.book key ≠ none →
        (self.onFetched snapshot now).1.books.book key ≠ none := by
  rw [onFetched_books]
  rcases self.books.installSnapshot_cases snapshot now with ⟨hunknown, heq⟩ | ⟨symbol, entry, hsym,
    hent, hinstall⟩
  · rw [heq]
    refine iff_of_true (fun symbol hsym hne => absurd ?_ hne) fun key hne => hne
    rw [BookSet.book, hunknown symbol hsym]
    rfl
  · have hidle : self.books.book symbol.key ≠ none → entry.buffered = [] := by
      intro hne
      obtain ⟨b, hb⟩ := Option.ne_none_iff_exists'.mp hne
      obtain ⟨entry', hent', hbook, -⟩ := BookSet.book_eq_some.mp hb
      obtain rfl : entry = entry' := Option.some.inj (hent.symm.trans hent')
      exact (hkept _ _ hent).idle (by simp [hbook])
    have hone : self.KeepsBooks (.fetched snapshot now) ↔
        (self.books.book symbol.key ≠ none → snapshot.synced = true) := by
      simp only [KeepsBooks, hsym, Option.some.injEq, forall_eq']
    rw [hone]
    rcases hinstall with ⟨hreplay, heq⟩ | ⟨b, hreplay, heq⟩
    · rw [heq, keeps_iff_of_eq_off fun key hkey => by rw [BookSet.book_insert, if_neg hkey]]
      refine forall_congr' fun hne => ?_
      rw [hidle hne, replay_nil] at hreplay
      cases hreplay
    · rw [heq, keeps_iff_of_eq_off fun key hkey => by rw [BookSet.book_insert, if_neg hkey]]
      refine forall_congr' fun hne => ?_
      rw [hidle hne, replay_nil] at hreplay
      obtain rfl := Option.some.inj hreplay
      rw [BookSet.book_insert, if_pos rfl, Option.filter_some]
      split_ifs with hs <;> simp [hs]

/-- `KeepsBooks` says of an input what it does to the view: no shown book is gone after it. -/
theorem keepsBooks_iff (hkept : BookSet.Every BookSet.Kept self.books) (input : Input D) :
    self.KeepsBooks input ↔
      ∀ key, self.books.book key ≠ none → (self.step input).1.books.book key ≠ none := by
  cases input with
  | delta delta now => exact keepsBooks_delta_iff delta now
  | fetched snapshot now => exact keepsBooks_fetched_iff hkept snapshot now
  | disconnected reason now =>
    simp only [KeepsBooks, step, BookSet.book_reset, ne_eq, not_true_eq_false, imp_false, not_not]
  | failed symbol =>
    simp only [KeepsBooks, step, BookSet.book_snapshotFailed, true_iff]
    exact fun _ h => h
  | _ => exact iff_of_true trivial fun _ h => h

end Connector

/-- The read-model serves a book only for symbols whose book the connector shows. -/
def ServesOnlyHeld (s : Connector D × MarketState D) : Prop :=
  ∀ subs, ∀ b ∈ s.2.snapshotsFor subs, ∃ symbol, b.symbol = some symbol ∧
    s.1.books.book symbol.key ≠ none

/-- The core in step: bookkeeping in order and the read-model's books the connector's view. -/
structure InStep (s : Connector D × MarketState D) : Prop where
  kept : BookSet.Every BookSet.Kept s.1.books
  books_eq : s.2.books = s.1.books.book

omit [LinearOrder D] [Zero D] [Add D] in
/-- A book in the view is served, so while only held books are served it stays in the view. -/
theorem exists_served {set : BookSet D} (hkept : BookSet.Every BookSet.Kept set) {key : String}
    {b : OrderBook D} (hb : set.book key = some b) {ms : MarketState D}
    (hms : ms.books key = some b) :
    ∃ symbol, symbol.key = key ∧ b.symbol = some symbol ∧
      b ∈ ms.snapshotsFor [.book symbol] := by
  obtain ⟨entry, hentry, hbook, hsynced⟩ := BookSet.book_eq_some.mp hb
  obtain ⟨symbol, hsymbol, rfl⟩ := (hkept _ _ hentry).book_symbol b hbook
  refine ⟨symbol, rfl, hsymbol, MarketState.mem_snapshotsFor.mpr ?_⟩
  exact ⟨hsynced, .book symbol, List.mem_singleton_self _, hms⟩

omit [LinearOrder D] [Zero D] [Add D] in
/-- A core in step serves only books the connector shows. -/
theorem InStep.servesOnlyHeld {s : Connector D × MarketState D} (h : InStep s) :
    ServesOnlyHeld s := by
  intro subs b hmem
  obtain ⟨-, sub, -, hb⟩ := MarketState.mem_snapshotsFor.mp hmem
  rw [h.books_eq] at hb
  obtain ⟨entry, hentry, hbook, -⟩ := BookSet.book_eq_some.mp hb
  obtain ⟨symbol, hsymbol, hkey⟩ := (h.kept _ _ hentry).book_symbol b hbook
  exact ⟨symbol, hsymbol, by rw [hkey, hb]; simp⟩

/-- An input that takes no book away keeps the core in step. -/
theorem inStep_step {s : Connector D × MarketState D} (h : InStep s) {input : Input D}
    (hkeeps : s.1.KeepsBooks input) : InStep (core.next s input) := by
  refine ⟨s.1.kept_step h.kept input, ?_⟩
  have hsync : Sync s.1.books.book s.2.books := fun key b hb => h.books_eq ▸ hb
  have hview' := (Connector.keepsBooks_iff h.kept input).mp hkeeps
  rw [core_next_books]
  rcases (s.1.announces h.kept input).foldBooks_eq hsync with ⟨heq, hview⟩ | ⟨key, b, heq, hview⟩
  · rw [heq, h.books_eq]
    funext key
    rcases hview key with hsame | hnone
    · exact hsame.symm
    · by_cases hheld : s.1.books.book key = none
      · exact hheld.trans hnone.symm
      · exact absurd hnone (hview' key hheld)
  · rw [heq, h.books_eq]
    exact hview.symm

/-- From a core in step, one input leads to a read-model that serves only held books exactly
when it takes no book away. -/
theorem servesOnlyHeld_step {s : Connector D × MarketState D} (h : InStep s) (input : Input D) :
    ServesOnlyHeld (core.next s input) ↔ s.1.KeepsBooks input := by
  refine ⟨fun hserves => ?_, fun hkeeps => (inStep_step h hkeeps).servesOnlyHeld⟩
  have hannounced := s.1.announces h.kept input
  have hsync : Sync s.1.books.book s.2.books := fun key b hb => h.books_eq ▸ hb
  rw [Connector.keepsBooks_iff h.kept]
  intro key hne hgone
  obtain ⟨b, hb⟩ := Option.ne_none_iff_exists'.mp hne
  -- nothing was announced about this book, so the read-model still has it and serves it
  have hms : (core.next s input).2.books key = some b := by
    rw [core_next_books]
    rcases hannounced.foldBooks_eq hsync with ⟨heq, -⟩ | ⟨key', b', heq, hview⟩
    · rw [heq]
      exact hsync key b hb
    · have hkey : key ≠ key' := by
        rintro rfl
        rw [hview, Function.update_self] at hgone
        cases hgone
      rw [heq, Function.update_of_ne hkey]
      exact hsync key b hb
  obtain ⟨symbol, rfl, hsymbol, hmem⟩ := exists_served h.kept hb hms
  obtain ⟨symbol', hsymbol', hheld⟩ := hserves _ b hmem
  obtain rfl : symbol = symbol' := Option.some.inj (hsymbol.symm.trans hsymbol')
  exact hheld hgone

/-- **No withdrawn book is served** throughout a run exactly when the run takes no book away: a
withdrawal is never announced, and the read-model goes on serving what it had. -/
theorem serves_only_held_iff (bucketing : Bucketing) (capacity : ℕ) (cooldownMs : ℤ)
    (inputs : List (Input D)) :
    (∀ k, ServesOnlyHeld (core.run (coreStart bucketing capacity cooldownMs) (inputs.take k))) ↔
      core.Along (fun s input => s.1.KeepsBooks input) (coreStart bucketing capacity cooldownMs)
        inputs := by
  have hstart : InStep (coreStart bucketing capacity cooldownMs : Connector D × _) :=
    ⟨BookSet.every_new cooldownMs, rfl⟩
  refine Machine.forall_take_iff_along ServesOnlyHeld InStep ?_ ?_ hstart
    hstart.servesOnlyHeld inputs
  · exact fun s input hs _ hkeeps => inStep_step hs hkeeps
  · exact fun s input hs _ => servesOnlyHeld_step hs input

/-- A book joins the stream and is then torn by a delta that names a predecessor it never saw. -/
private def tornInputs : List (Input ℤ) :=
  [.delta ⟨btcusdt, 0, 1, [⟨100, 2⟩], [], 5⟩ 5,
    .fetched ⟨some btcusdt, [⟨100, 1⟩], [⟨101, 1⟩], 0, 4, false⟩ 6,
    .delta ⟨btcusdt, 5, 6, [⟨100, 3⟩], [], 7⟩ 7]

/-- After the gap the connector shows no book and the read-model still serves the old one. -/
theorem not_serves_only_held_torn :
    ¬ ServesOnlyHeld (core.run (coreStart (.ticks 25) 1200 1000) tornInputs) := by
  intro h
  let served : OrderBook ℤ := ⟨some btcusdt, [⟨100, 2⟩], [⟨101, 1⟩], 1, 5, true⟩
  have hbook : (core.run (coreStart (.ticks 25) 1200 1000) tornInputs).2.books btcusdt.key =
      some served := by decide +kernel
  have hgone : (core.run (coreStart (.ticks 25) 1200 1000) tornInputs).1.books.book btcusdt.key =
      none := by decide +kernel
  obtain ⟨symbol, hsymbol, hheld⟩ := h [.book btcusdt] served
    (MarketState.mem_snapshotsFor.mpr ⟨rfl, _, List.mem_singleton_self _, hbook⟩)
  obtain rfl : btcusdt = symbol := Option.some.inj hsymbol
  exact hheld hgone

end MoonCore
