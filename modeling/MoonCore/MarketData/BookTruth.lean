import Mathlib.Data.Int.Order.Basic
import MoonCore.MarketData.Books

/-!
# Book truth

A venue is given by the true sides of every symbol at every update id. It publishes deltas
that carry, for an id range `(prev, last]`, the absolute quantity at `last` of every level
changed in the range, and it answers snapshot requests with unsynced copies of the truth at
some id.

A `BookSet` fed such deltas and snapshots only ever holds true books: one delta that extends
a true book gives a true book (`Venue.Shows.extend`), so truth is a stable property of the
entries (`Venue.stable_faithful`). The deltas need not be chained, complete or in order, and
a snapshot may be of any id: `OrderBook.Extends` is all the argument uses.
-/

namespace MoonCore

variable {D : Type*} [LinearOrder D] [Zero D]

/-- The true book of every symbol at every update id. -/
structure Venue (D : Type*) [LinearOrder D] [Zero D] where
  bids : Symbol → ℕ → List (BookLevel D)
  asks : Symbol → ℕ → List (BookLevel D)
  bids_wellFormed : ∀ symbol id, SideWellFormed true (bids symbol id)
  asks_wellFormed : ∀ symbol id, SideWellFormed false (asks symbol id)

/-- Updates that carry the id range `(prev, last]` of an evolving side: every level has its
quantity at `last`, and every price whose quantity changed in the range has a level. -/
structure Carries (truth : ℕ → List (BookLevel D)) (prev last : ℕ)
    (updates : List (BookLevel D)) : Prop where
  final : ∀ upd ∈ updates, upd.qty = qtyAt (truth last) upd.price
  covers : ∀ p i, prev ≤ i → i < last → qtyAt (truth i) p ≠ qtyAt (truth (i + 1)) p →
    ∃ upd ∈ updates, upd.price = p

/-- A quantity that differs at two ids changed at some id between them. -/
theorem exists_change {β : Type*} {f : ℕ → β} {m n : ℕ} (hmn : m ≤ n) (h : f m ≠ f n) :
    ∃ i, m ≤ i ∧ i < n ∧ f i ≠ f (i + 1) := by
  induction n, hmn using Nat.le_induction with
  | base => exact absurd rfl h
  | succ n hmn ih =>
    by_cases hn : f m = f n
    · exact ⟨n, hmn, Nat.lt_succ_self n, hn ▸ h⟩
    · obtain ⟨i, hmi, hin, hi⟩ := ih hn
      exact ⟨i, hmi, Nat.lt_succ_of_lt hin, hi⟩

/-- Merging the updates of a range into the side at any id of the range gives the side at the
end of the range. -/
theorem Carries.applySide_eq {truth : ℕ → List (BookLevel D)} {descending : Bool}
    (hwf : ∀ i, SideWellFormed descending (truth i)) {prev last m : ℕ}
    {updates : List (BookLevel D)} (h : Carries truth prev last updates) (hprev : prev ≤ m)
    (hlast : m < last) : applySide (truth m) updates descending = truth last := by
  refine ((hwf m).applySide updates).ext (hwf last) fun p => ?_
  refine (hwf m).qtyAt_applySide h.final (fun q hq => ?_) p
  have hchange : ∃ i, m ≤ i ∧ i < last ∧ qtyAt (truth i) q ≠ qtyAt (truth (i + 1)) q :=
    exists_change hlast.le hq
  obtain ⟨i, hmi, hil, hi⟩ := hchange
  exact h.covers q i (hprev.trans hmi) hil hi

namespace Venue

variable (V : Venue D)

/-- The venue's true bids and asks for a symbol at the book's id. -/
structure Shows (symbol : Symbol) (book : OrderBook D) : Prop where
  symbol_eq : book.symbol = some symbol
  bids_eq : book.bids = V.bids symbol book.lastUpdateId
  asks_eq : book.asks = V.asks symbol book.lastUpdateId

/-- A delta the venue may publish. -/
structure Publishes (delta : BookDelta D) : Prop where
  bids : Carries (V.bids delta.symbol) delta.prevUpdateId delta.lastUpdateId delta.bids
  asks : Carries (V.asks delta.symbol) delta.prevUpdateId delta.lastUpdateId delta.asks

/-- A snapshot the venue may answer with: an unsynced copy of the truth at some id. -/
def Answers (snapshot : OrderBook D) : Prop :=
  snapshot.synced = false ∧ ∃ symbol, V.Shows symbol snapshot

/-- A call whose delta or snapshot, if it has one, comes from the venue. -/
def Feeds : BookOp D → Prop
  | .delta delta _ => V.Publishes delta
  | .snapshot snapshot _ => V.Answers snapshot
  | .failed _ => True
  | .reset => True

variable {V}

/-- A published delta that extends a true book gives a true book: the book's id lies in the
delta's range, whichever of the two join rules let it through. -/
theorem Shows.extend {symbol : Symbol} {book : OrderBook D} {delta : BookDelta D}
    (h : V.Shows symbol book) (hdelta : V.Publishes delta) (hsym : delta.symbol = symbol)
    (hext : OrderBook.Extends delta book) : V.Shows symbol (book.extend delta) := by
  subst hsym
  obtain ⟨hlast, hjoin⟩ := hext
  have hprev : delta.prevUpdateId ≤ book.lastUpdateId := by
    split_ifs at hjoin
    · exact hjoin.le
    · exact hjoin
  refine ⟨h.symbol_eq, ?_, ?_⟩
  · change applySide book.bids delta.bids true = V.bids delta.symbol delta.lastUpdateId
    rw [h.bids_eq]
    exact hdelta.bids.applySide_eq (V.bids_wellFormed delta.symbol) hprev hlast
  · change applySide book.asks delta.asks false = V.asks delta.symbol delta.lastUpdateId
    rw [h.asks_eq]
    exact hdelta.asks.applySide_eq (V.asks_wellFormed delta.symbol) hprev hlast

variable (V) in
/-- An entry that holds nothing but the truth: a true book, or published deltas, of the symbol
whose key it is stored under. -/
structure Faithful (key : String) (entry : Entry D) : Prop where
  book : ∀ b, entry.book = some b → ∃ symbol, symbol.key = key ∧ V.Shows symbol b
  buffered : ∀ d ∈ entry.buffered, V.Publishes d ∧ d.symbol.key = key

/-- A faithful entry's book shows the symbol the entry is looked up by. -/
theorem Faithful.shows {symbol : Symbol} {entry : Entry D} (h : V.Faithful symbol.key entry)
    {b : OrderBook D} (hb : entry.book = some b) : V.Shows symbol b := by
  obtain ⟨s, hs, hshows⟩ := h.book b hb
  exact Symbol.key_injective hs ▸ hshows

/-- Replaying the deltas of a faithful entry onto a true snapshot gives a true book. -/
theorem Faithful.shows_replay {symbol : Symbol} {entry : Entry D}
    (h : V.Faithful symbol.key entry) {snapshot b : OrderBook D} (hsnap : V.Shows symbol snapshot)
    (hreplay : replay snapshot entry.buffered = some b) : V.Shows symbol b := by
  refine replay_induction (fun book delta hmem hext hbook => ?_) hsnap hreplay
  obtain ⟨hdelta, hkey⟩ := h.buffered delta hmem
  exact hbook.extend hdelta (Symbol.key_injective hkey) hext

/-- Truth survives every call fed by the venue. -/
theorem stable_faithful : BookSet.Stable V.Faithful V.Feeds where
  fresh symbol := ⟨fun b hb => absurd hb (by simp [Entry.fresh]), fun d hd =>
    absurd hd List.not_mem_nil⟩
  waiting hdelta hsym h hw := by
    refine ⟨fun b hb => absurd hb (by simp [hw.book]), fun d hd => ?_⟩
    rcases hw.buffered d hd with rfl | hd
    · exact ⟨hdelta, by rw [hsym]⟩
    · exact h.buffered d hd
  extended hdelta hsym h hb hext := by
    refine ⟨fun b' hb' => ?_, h.buffered⟩
    obtain rfl := Option.some.inj hb'
    exact ⟨_, rfl, (h.shows hb).extend hdelta hsym hext⟩
  dropped h := ⟨fun b hb => absurd hb (by simp), fun d hd => absurd hd List.not_mem_nil⟩
  installed hsnap hsym h hreplay := by
    refine ⟨fun b' hb' => ?_, fun d hd => absurd hd List.not_mem_nil⟩
    obtain rfl := Option.some.inj hb'
    obtain ⟨-, symbol, hshows⟩ := hsnap
    obtain rfl : symbol = _ := Option.some.inj (hshows.symbol_eq.symm.trans hsym)
    exact ⟨symbol, rfl, h.shows_replay hshows hreplay⟩
  failed h := ⟨h.book, h.buffered⟩

end Venue

/-! ### Every book handed out is true -/

namespace BookSet

/-- After a run fed by the venue every entry is faithful. -/
theorem every_faithful {V : Venue D} (cooldownMs : ℤ) {ops : List (BookOp D)}
    (hops : ∀ op ∈ ops, V.Feeds op) : Every V.Faithful (machine.run (new cooldownMs) ops) :=
  Venue.stable_faithful.run cooldownMs hops

/-- The book a set of faithful entries shows under a symbol's key is true. -/
theorem Every.shows_book {V : Venue D} {self : BookSet D} (h : Every V.Faithful self)
    {symbol : Symbol} {b : OrderBook D} (hb : self.book symbol.key = some b) :
    V.Shows symbol b := by
  obtain ⟨entry, hentry, hbook, -⟩ := book_eq_some.mp hb
  exact (h _ _ hentry).shows hbook

/-- A snapshot call that returns a book leaves that book under its symbol's key. -/
theorem book_of_installSnapshot {self : BookSet D} {snapshot b : OrderBook D} {now : Timestamp}
    (h : (self.installSnapshot snapshot now).2 = some b) :
    ∃ symbol, snapshot.symbol = some symbol ∧
      (self.installSnapshot snapshot now).1.book symbol.key = some b := by
  rcases self.installSnapshot_cases snapshot now with ⟨-, heq⟩ | ⟨symbol, entry, hsym, -,
    ⟨-, heq⟩ | ⟨b', -, heq⟩⟩ <;> rw [heq] at h
  · cases h
  · cases h
  · have hsynced : b'.synced = true ∧ b' = b := by simpa using h
    obtain ⟨hs, rfl⟩ := hsynced
    refine ⟨symbol, hsym, ?_⟩
    rw [heq, book_insert, if_pos rfl]
    simp [hs]

/-- A delta call that reports `forward` or `attached` leaves a synced book at the delta's id. -/
theorem book_of_onDelta {self : BookSet D} {delta : BookDelta D} {now : Timestamp}
    (h : (self.onDelta delta now).2.forward = true ∨ (self.onDelta delta now).2.attached = true) :
    ∃ b, (self.onDelta delta now).1.book delta.symbol.key = some b ∧
      b.lastUpdateId = delta.lastUpdateId := by
  rcases self.onDelta_cases delta now with ⟨entry, -, -, -, hf, ha⟩ | ⟨b, -, -, heq⟩ |
    ⟨b, -, -, heq⟩
  · simp [hf, ha] at h
  · refine ⟨b.extend delta, ?_, rfl⟩
    rw [heq, book_insert, if_pos rfl]
    rfl
  · simp [heq] at h

/-- **Book truth.** After any run of calls whose deltas and snapshots come from the venue, lost,
late or repeated as they may be, the set's books are the venue's at their update id, and so is
the book the next snapshot returns or the next delta reports on. -/
theorem book_truth (V : Venue D) (cooldownMs : ℤ) (ops : List (BookOp D))
    (hops : ∀ op ∈ ops, V.Feeds op) :
    (∀ (symbol : Symbol) (b : OrderBook D),
      (machine.run (new cooldownMs) ops).book symbol.key = some b → V.Shows symbol b) ∧
    (∀ (snapshot : OrderBook D) (now : Timestamp), V.Answers snapshot →
      ∀ b, ((machine.run (new cooldownMs) ops).installSnapshot snapshot now).2 = some b →
        ∃ symbol, V.Shows symbol b) ∧
    ∀ (delta : BookDelta D) (now : Timestamp), V.Publishes delta →
      ((machine.run (new cooldownMs) ops).onDelta delta now).2.forward = true ∨
        ((machine.run (new cooldownMs) ops).onDelta delta now).2.attached = true →
      ∃ b, ((machine.run (new cooldownMs) ops).onDelta delta now).1.book delta.symbol.key = some b ∧
        b.lastUpdateId = delta.lastUpdateId ∧ V.Shows delta.symbol b := by
  have hrun := every_faithful cooldownMs hops
  refine ⟨fun symbol b hb => hrun.shows_book hb, fun snapshot now hsnap b hb => ?_,
    fun delta now hdelta hout => ?_⟩
  · have hop : V.Feeds (.snapshot snapshot now) := hsnap
    have hnext := Venue.stable_faithful.step hop hrun
    obtain ⟨symbol, -, hbook⟩ := book_of_installSnapshot hb
    exact ⟨symbol, Every.shows_book hnext hbook⟩
  · have hop : V.Feeds (.delta delta now) := hdelta
    have hnext := Venue.stable_faithful.step hop hrun
    obtain ⟨b, hb, hid⟩ := book_of_onDelta hout
    exact ⟨b, hb, hid, Every.shows_book hnext hb⟩

/-- A venue whose one bid grows at its first update. -/
private def growingBid : Venue ℤ where
  bids _ id := [⟨100, if id = 0 then 1 else 2⟩]
  asks _ _ := [⟨101, 1⟩]
  bids_wellFormed _ id := ⟨List.pairwise_singleton _ _, by simp; split_ifs <;> decide⟩
  asks_wellFormed _ _ := ⟨List.pairwise_singleton _ _, by simp⟩

/-- The growing bid's delta, and the snapshot taken before it. -/
private def growingOps : List (BookOp ℤ) :=
  [.delta ⟨btcusdt, 0, 1, [⟨100, 2⟩], [], 5⟩ 5,
    .snapshot ⟨some btcusdt, [⟨100, 1⟩], [⟨101, 1⟩], 0, 4, false⟩ 6]

private theorem growingOps_feeds : ∀ op ∈ growingOps, growingBid.Feeds op := by
  simp only [growingOps, List.forall_mem_cons, List.not_mem_nil, false_implies, implies_true,
    and_true]
  refine ⟨⟨⟨by decide, fun p i _ hi hne => ?_⟩, ⟨by simp, fun p i _ _ hne => absurd rfl hne⟩⟩,
    rfl, btcusdt, rfl, rfl, rfl⟩
  obtain rfl : i = 0 := by simpa using hi
  refine ⟨_, List.mem_cons_self, ?_⟩
  by_contra hp
  exact hne (by simp [growingBid, qtyAt, lookup, hp])

/-- The snapshot joins the stream during replay, and the book shown is the venue's. -/
theorem book_truth_growingBid :
    ∃ b, (machine.run (new 1000) growingOps).book btcusdt.key = some b ∧ b.lastUpdateId = 1 ∧
      growingBid.Shows btcusdt b := by
  have hshown : ((machine.run (new 1000) growingOps).book btcusdt.key).map
      OrderBook.lastUpdateId = some 1 := by decide +kernel
  obtain ⟨b, hb, hid⟩ := Option.map_eq_some_iff.mp hshown
  exact ⟨b, hb, hid, (book_truth growingBid 1000 growingOps growingOps_feeds).1 btcusdt b hb⟩

end BookSet

end MoonCore
