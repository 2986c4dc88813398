import Mathlib.Logic.Function.Basic
import Mathlib.Data.Option.Basic
import MoonCore.Domain.Market
import MoonCore.Machine.Run

/-!
# Keeping a set of order books correct

`marketdata::books`. A `BookSet` holds one `Entry` per symbol key: a book, or the deltas that
wait for one, and the bookkeeping of the snapshot request. `onDelta` and `installSnapshot`
are the two ways a book moves.

`onDelta_cases` and `installSnapshot_cases` say once what either call can do to the entry it
touches; every other entry is untouched. `BookSet.machine` runs the four calls in any order,
and `BookSet.Kept` is the bookkeeping invariant of its runs: an entry belongs to the symbol
whose key it is stored under, so does its book, and while there is a book nothing is
buffered.
-/

namespace MoonCore

/-- How long to wait before asking for another snapshot for the same symbol. -/
def defaultResyncCooldownMs : ℤ := 1000

/-- Deltas held while a snapshot is in flight. -/
def maxBuffered : ℕ := 4096

/-- How long a snapshot request may be outstanding before another is allowed. -/
def requestDeadlineMs : ℤ := 10000

/-- What the caller must do after feeding an update in. -/
inductive Need where
  | nothing
  | snapshot (symbol : Symbol)
  deriving DecidableEq

/-- The result of feeding one delta in. -/
structure Outcome where
  need : Need
  /-- Whether to pass this delta on to consumers. -/
  forward : Bool
  /-- The book just became usable and consumers must be sent it in full. -/
  attached : Bool
  deriving DecidableEq

/-- One symbol's book, or the updates waiting for it. -/
structure Entry (D : Type*) where
  symbol : Symbol
  book : Option (OrderBook D)
  buffered : List (BookDelta D)
  awaiting : Bool
  /-- When a snapshot was last asked for. -/
  requestedAt : Option Timestamp
  /-- When the book last moved. -/
  updatedAt : Timestamp

/-- Every book a connector is maintaining. -/
structure BookSet (D : Type*) where
  entries : String → Option (Entry D)
  cooldownMs : ℤ

namespace Entry

variable {D : Type*}

/-- An entry for a symbol nothing is known about yet. -/
def fresh (symbol : Symbol) : Entry D where
  symbol := symbol
  book := none
  buffered := []
  awaiting := false
  requestedAt := none
  updatedAt := 0

/-- Hold a delta for replay; a backlog past the limit starts over. -/
def buffer (self : Entry D) (delta : BookDelta D) : Entry D :=
  if self.buffered.length ≥ maxBuffered then
    { self with buffered := [delta], awaiting := false, requestedAt := none }
  else { self with buffered := self.buffered ++ [delta] }

/-- Ask for a snapshot unless a request is outstanding or was made too recently. -/
def requestSnapshot (self : Entry D) (now : Timestamp) (cooldownMs : ℤ) : Entry D × Need :=
  let sinceRequest := self.requestedAt.map fun ts => ts.ageMillisFrom now
  if self.awaiting && sinceRequest.any (fun age => decide (age < requestDeadlineMs)) then
    (self, .nothing)
  else if !self.awaiting && sinceRequest.any (fun age => decide (age < cooldownMs)) then
    (self, .nothing)
  else ({ self with awaiting := true, requestedAt := some now }, .snapshot self.symbol)

@[simp]
theorem buffer_symbol (self : Entry D) (delta : BookDelta D) :
    (self.buffer delta).symbol = self.symbol := by
  rw [buffer]
  split <;> rfl

@[simp]
theorem buffer_book (self : Entry D) (delta : BookDelta D) :
    (self.buffer delta).book = self.book := by
  rw [buffer]
  split <;> rfl

/-- Buffering holds the delta and nothing that was not held before. -/
theorem mem_buffer {self : Entry D} {delta d : BookDelta D}
    (h : d ∈ (self.buffer delta).buffered) : d = delta ∨ d ∈ self.buffered := by
  rw [buffer] at h
  split at h
  · exact .inl (List.mem_singleton.mp h)
  · rcases List.mem_append.mp h with h | h
    · exact .inr h
    · exact .inl (List.mem_singleton.mp h)

@[simp]
theorem requestSnapshot_symbol (self : Entry D) (now : Timestamp) (cooldownMs : ℤ) :
    (self.requestSnapshot now cooldownMs).1.symbol = self.symbol := by
  simp only [requestSnapshot]
  split_ifs <;> rfl

@[simp]
theorem requestSnapshot_book (self : Entry D) (now : Timestamp) (cooldownMs : ℤ) :
    (self.requestSnapshot now cooldownMs).1.book = self.book := by
  simp only [requestSnapshot]
  split_ifs <;> rfl

@[simp]
theorem requestSnapshot_buffered (self : Entry D) (now : Timestamp) (cooldownMs : ℤ) :
    (self.requestSnapshot now cooldownMs).1.buffered = self.buffered := by
  simp only [requestSnapshot]
  split_ifs <;> rfl

end Entry

variable {D : Type*}

namespace BookSet

/-- No books. -/
def new (cooldownMs : ℤ) : BookSet D := ⟨fun _ => none, cooldownMs⟩

/-- Store an entry under a key. -/
def insert (self : BookSet D) (key : String) (entry : Entry D) : BookSet D :=
  { self with entries := Function.update self.entries key (some entry) }

/-- The entry a delta goes to, made when its symbol is seen for the first time. -/
def entryFor (self : BookSet D) (symbol : Symbol) : Entry D :=
  (self.entries symbol.key).getD (Entry.fresh symbol)

/-- The book under a key, once it has joined the delta stream. -/
def book (self : BookSet D) (key : String) : Option (OrderBook D) :=
  ((self.entries key).bind Entry.book).filter OrderBook.synced

/-- Report that a snapshot fetch failed. -/
def snapshotFailed (self : BookSet D) (symbol : Symbol) : BookSet D :=
  match self.entries symbol.key with
  | none => self
  | some entry => self.insert symbol.key { entry with awaiting := false }

/-- Forget everything. -/
def reset (self : BookSet D) : BookSet D := { self with entries := fun _ => none }

@[simp]
theorem insert_entries (self : BookSet D) (key k : String) (entry : Entry D) :
    (self.insert key entry).entries k = if k = key then some entry else self.entries k := by
  change Function.update self.entries key (some entry) k = _
  rw [Function.update_apply]

theorem book_eq_some {self : BookSet D} {key : String} {b : OrderBook D} :
    self.book key = some b ↔
      ∃ entry, self.entries key = some entry ∧ entry.book = some b ∧ b.synced = true := by
  simp only [book, Option.filter_eq_some_iff, Option.bind_eq_some_iff]
  exact ⟨fun ⟨⟨entry, he, hb⟩, hs⟩ => ⟨entry, he, hb, hs⟩,
    fun ⟨entry, he, hb, hs⟩ => ⟨⟨entry, he, hb⟩, hs⟩⟩

/-- Storing an entry changes the book under its own key only. -/
theorem book_insert (self : BookSet D) (key k : String) (entry : Entry D) :
    (self.insert key entry).book k =
      if k = key then entry.book.filter OrderBook.synced else self.book k := by
  simp only [book, insert_entries]
  split_ifs <;> rfl

@[simp]
theorem book_new (cooldownMs : ℤ) (key : String) :
    (new cooldownMs : BookSet D).book key = none := rfl

@[simp]
theorem book_reset (self : BookSet D) (key : String) : self.reset.book key = none := rfl

/-- An entry left without a book, waiting for a snapshot with `delta` in its buffer. -/
structure Waiting (before after : Entry D) (delta : BookDelta D) : Prop where
  symbol : after.symbol = before.symbol
  book : after.book = none
  buffered : ∀ d ∈ after.buffered, d = delta ∨ d ∈ before.buffered

private theorem waiting_request (entry : Entry D) (delta : BookDelta D) (now : Timestamp)
    (cooldownMs : ℤ) :
    Waiting entry (({ entry with book := none }.buffer delta).requestSnapshot now cooldownMs).1
      delta :=
  ⟨by simp, by simp, fun d hd =>
    @Entry.mem_buffer D { entry with book := none } delta d (by simpa using hd)⟩

/-- `snapshotFailed` touches the request bookkeeping only. -/
theorem snapshotFailed_cases (self : BookSet D) (symbol : Symbol) :
    self.snapshotFailed symbol = self ∨
      ∃ entry, self.entries symbol.key = some entry ∧
        self.snapshotFailed symbol = self.insert symbol.key { entry with awaiting := false } := by
  rcases hent : self.entries symbol.key with _ | entry
  · exact .inl (by simp only [snapshotFailed, hent])
  · exact .inr ⟨entry, rfl, by simp only [snapshotFailed, hent]⟩

@[simp]
theorem book_snapshotFailed (self : BookSet D) (symbol : Symbol) (key : String) :
    (self.snapshotFailed symbol).book key = self.book key := by
  rcases self.snapshotFailed_cases symbol with h | ⟨entry, hent, h⟩
  · rw [h]
  · rw [h, book_insert]
    split_ifs with hk
    · rw [hk, book, hent]
      rfl
    · rfl

/-- A property of every entry, under the key it is stored at. -/
def Every (P : String → Entry D → Prop) (self : BookSet D) : Prop :=
  ∀ key entry, self.entries key = some entry → P key entry

variable {P : String → Entry D → Prop}

theorem every_new (cooldownMs : ℤ) : Every P (new cooldownMs : BookSet D) := fun _ _ h => by
  cases h

theorem Every.reset (self : BookSet D) : Every P self.reset := fun _ _ h => by
  cases h

theorem Every.insert {self : BookSet D} (h : Every P self) {key : String} {entry : Entry D}
    (hentry : P key entry) : Every P (self.insert key entry) := by
  intro k e he
  rw [insert_entries] at he
  split_ifs at he with hk
  · exact hk ▸ Option.some.inj he ▸ hentry
  · exact h k e he

/-- The entry a delta goes to has every property that the stored entries and the fresh ones
have. -/
theorem Every.entryFor {self : BookSet D} (h : Every P self) {symbol : Symbol}
    (hfresh : P symbol.key (Entry.fresh symbol)) : P symbol.key (self.entryFor symbol) := by
  rw [BookSet.entryFor]
  rcases hent : self.entries symbol.key with _ | entry
  · exact hfresh
  · exact h _ _ hent

end BookSet

/-! ### Feeding updates in -/

variable [LinearOrder D] [Zero D]

/-- Replay the deltas buffered while a snapshot was in flight; `none` when the stream ran past
the snapshot. -/
def replay (snapshot : OrderBook D) : List (BookDelta D) → Option (OrderBook D)
  | [] => some snapshot
  | delta :: rest =>
    match snapshot.apply delta with
    | (_, .gap _ _) => none
    | (book, _) => replay book rest

/-- What holds of the snapshot and is kept by each replayed delta that extends the book holds
of the replayed book. -/
theorem replay_induction {P : OrderBook D → Prop} {deltas : List (BookDelta D)}
    (hstep : ∀ book, ∀ delta ∈ deltas, OrderBook.Extends delta book → P book →
      P (book.extend delta))
    {snapshot book : OrderBook D} (h : P snapshot) (hreplay : replay snapshot deltas = some book) :
    P book := by
  induction deltas generalizing snapshot with
  | nil => exact Option.some.inj hreplay ▸ h
  | cons delta rest ih =>
    have hrest := fun b d hd => hstep b d (List.mem_cons_of_mem delta hd)
    rcases snapshot.apply_cases delta with ⟨-, heq⟩ | ⟨hext, heq⟩ | ⟨-, -, heq⟩ <;>
      simp only [replay, heq] at hreplay
    · exact ih hrest h hreplay
    · exact ih hrest (hstep _ _ List.mem_cons_self hext h) hreplay
    · cases hreplay

@[simp]
theorem replay_nil (snapshot : OrderBook D) : replay snapshot [] = some snapshot := rfl

/-- Replaying never changes whose book it is. -/
theorem replay_symbol {deltas : List (BookDelta D)} {snapshot book : OrderBook D}
    (h : replay snapshot deltas = some book) : book.symbol = snapshot.symbol := by
  refine @replay_induction _ _ _ (fun b => b.symbol = snapshot.symbol) deltas ?_ _ _ rfl h
  intro book delta _ _ hb
  rw [OrderBook.extend_symbol, hb]

namespace BookSet

/-- Feed one incremental update. -/
def onDelta (self : BookSet D) (delta : BookDelta D) (now : Timestamp) : BookSet D × Outcome :=
  let key := delta.symbol.key
  let entry := self.entryFor delta.symbol
  match entry.book with
  | none =>
    -- no book yet, or one is being rebuilt: hold the update for replay
    let (entry, need) := (entry.buffer delta).requestSnapshot now self.cooldownMs
    (self.insert key entry, ⟨need, false, false⟩)
  | some book =>
    match book.apply delta with
    | (book', .applied) =>
      let attached := !book.synced
      (self.insert key { entry with book := some book', updatedAt := now },
        ⟨.nothing, !attached, attached⟩)
    | (_, .stale) => (self.insert key entry, ⟨.nothing, false, false⟩)
    | (_, .gap _ _) =>
      -- drop the book, keep the update that exposed the gap, and rebuild
      let (entry, need) :=
        ({ entry with book := none }.buffer delta).requestSnapshot now self.cooldownMs
      (self.insert key entry, ⟨need, false, false⟩)

/-- Install a fetched snapshot and replay whatever arrived while it was in flight; the book is
returned once it has joined the delta stream. -/
def installSnapshot (self : BookSet D) (snapshot : OrderBook D) (now : Timestamp) :
    BookSet D × Option (OrderBook D) :=
  match snapshot.symbol with
  | none => (self, none)
  | some symbol =>
    match self.entries symbol.key with
    | none => (self, none)
    | some entry =>
      let emptied := { entry with awaiting := false, buffered := [] }
      match replay snapshot entry.buffered with
      | none => (self.insert symbol.key { emptied with book := none }, none)
      | some book =>
        (self.insert symbol.key { emptied with updatedAt := now, book := some book },
          if book.synced then some book else none)

/-- Everything `onDelta` can do: leave the entry waiting for a snapshot (it had no book, or the
delta tore the one it had), extend its book, or leave an older delta aside. -/
theorem onDelta_cases (self : BookSet D) (delta : BookDelta D) (now : Timestamp) :
    (∃ entry, ((self.entryFor delta.symbol).book = none ∨
          ∃ b, (self.entryFor delta.symbol).book = some b ∧
            b.lastUpdateId < delta.lastUpdateId ∧ ¬ OrderBook.Extends delta b) ∧
        Waiting (self.entryFor delta.symbol) entry delta ∧
        (self.onDelta delta now).1 = self.insert delta.symbol.key entry ∧
        (self.onDelta delta now).2.forward = false ∧
        (self.onDelta delta now).2.attached = false) ∨
      (∃ b, (self.entryFor delta.symbol).book = some b ∧ OrderBook.Extends delta b ∧
        self.onDelta delta now =
          (self.insert delta.symbol.key
            { self.entryFor delta.symbol with book := some (b.extend delta), updatedAt := now },
            ⟨.nothing, b.synced, !b.synced⟩)) ∨
      ∃ b, (self.entryFor delta.symbol).book = some b ∧
        delta.lastUpdateId ≤ b.lastUpdateId ∧
        self.onDelta delta now =
          (self.insert delta.symbol.key (self.entryFor delta.symbol),
            ⟨.nothing, false, false⟩) := by
  rcases hbook : (self.entryFor delta.symbol).book with _ | b
  · refine .inl ⟨(((self.entryFor delta.symbol).buffer delta).requestSnapshot now
      self.cooldownMs).1, .inl rfl, ?_, ?_, ?_, ?_⟩
    · exact ⟨by simp, by simp [hbook], fun d hd => Entry.mem_buffer (by simpa using hd)⟩
    all_goals simp only [onDelta, hbook]
  · rcases b.apply_cases delta with ⟨hle, heq⟩ | ⟨hext, heq⟩ | ⟨hlt, hnot, heq⟩
    · exact .inr (.inr ⟨b, rfl, hle, by simp only [onDelta, hbook, heq]⟩)
    · exact .inr (.inl ⟨b, rfl, hext, by simp only [onDelta, hbook, heq, Bool.not_not]⟩)
    · refine .inl ⟨_, .inr ⟨b, rfl, hlt, hnot⟩,
        waiting_request (self.entryFor delta.symbol) delta now self.cooldownMs, ?_, ?_, ?_⟩ <;>
        simp only [onDelta, hbook, heq]

/-- Everything `installSnapshot` can do: nothing, when the snapshot is of no known symbol; drop
the book, when the buffered deltas ran past the snapshot; or install what the replay gives,
returning it once it is chained. -/
theorem installSnapshot_cases (self : BookSet D) (snapshot : OrderBook D) (now : Timestamp) :
    ((∀ symbol, snapshot.symbol = some symbol → self.entries symbol.key = none) ∧
        self.installSnapshot snapshot now = (self, none)) ∨
      ∃ symbol entry, snapshot.symbol = some symbol ∧ self.entries symbol.key = some entry ∧
        ((replay snapshot entry.buffered = none ∧
            self.installSnapshot snapshot now =
              (self.insert symbol.key
                { entry with awaiting := false, buffered := [], book := none }, none)) ∨
          ∃ b, replay snapshot entry.buffered = some b ∧
            self.installSnapshot snapshot now =
              (self.insert symbol.key
                { entry with awaiting := false, buffered := [], updatedAt := now, book := some b },
                if b.synced then some b else none)) := by
  rcases hsym : snapshot.symbol with _ | symbol
  · exact .inl ⟨fun symbol h => absurd h (by simp), by simp only [installSnapshot, hsym]⟩
  · rcases hent : self.entries symbol.key with _ | entry
    · refine .inl ⟨fun symbol' h => ?_, by simp only [installSnapshot, hsym, hent]⟩
      exact Option.some.inj h ▸ hent
    · refine .inr ⟨symbol, entry, rfl, hent, ?_⟩
      rcases hrep : replay snapshot entry.buffered with _ | b
      · exact .inl ⟨rfl, by simp only [installSnapshot, hsym, hent, hrep]⟩
      · exact .inr ⟨b, rfl, by simp only [installSnapshot, hsym, hent, hrep]⟩

end BookSet

/-! ### Runs -/

/-- One call on a `BookSet`. -/
inductive BookOp (D : Type*) where
  | delta (delta : BookDelta D) (now : Timestamp)
  | snapshot (snapshot : OrderBook D) (now : Timestamp)
  | failed (symbol : Symbol)
  | reset

/-- What a call answers. -/
inductive BookAnswer (D : Type*) where
  | outcome (outcome : Outcome)
  | installed (book : Option (OrderBook D))
  | done

namespace BookSet

/-- One call. -/
def step (self : BookSet D) : BookOp D → BookSet D × BookAnswer D
  | .delta delta now => ((self.onDelta delta now).1, .outcome (self.onDelta delta now).2)
  | .snapshot snapshot now =>
    ((self.installSnapshot snapshot now).1, .installed (self.installSnapshot snapshot now).2)
  | .failed symbol => (self.snapshotFailed symbol, .done)
  | .reset => (self.reset, .done)

/-- Any sequence of calls. -/
def machine : Machine (BookSet D) (BookOp D) (BookAnswer D) := ⟨step⟩

/-- What a property of entries must survive to hold along every run of calls that meet `Q`: one
obligation for each way an entry changes. -/
structure Stable (P : String → Entry D → Prop) (Q : BookOp D → Prop) : Prop where
  fresh : ∀ symbol, P symbol.key (Entry.fresh symbol)
  waiting : ∀ {symbol : Symbol} {before after : Entry D} {delta : BookDelta D} {now : Timestamp},
    Q (.delta delta now) → delta.symbol = symbol → P symbol.key before →
    Waiting before after delta → P symbol.key after
  extended : ∀ {symbol : Symbol} {entry : Entry D} {delta : BookDelta D} {now : Timestamp}
    {b : OrderBook D}, Q (.delta delta now) → delta.symbol = symbol → P symbol.key entry →
    entry.book = some b → OrderBook.Extends delta b →
    P symbol.key { entry with book := some (b.extend delta), updatedAt := now }
  dropped : ∀ {symbol : Symbol} {entry : Entry D}, P symbol.key entry →
    P symbol.key { entry with awaiting := false, buffered := [], book := none }
  installed : ∀ {symbol : Symbol} {entry : Entry D} {snapshot : OrderBook D} {now : Timestamp}
    {b : OrderBook D}, Q (.snapshot snapshot now) → snapshot.symbol = some symbol →
    P symbol.key entry → replay snapshot entry.buffered = some b →
    P symbol.key
      { entry with awaiting := false, buffered := [], updatedAt := now, book := some b }
  failed : ∀ {symbol : Symbol} {entry : Entry D}, P symbol.key entry →
    P symbol.key { entry with awaiting := false }

/-- A stable property of entries is kept by every call. -/
theorem Stable.step {Q : BookOp D → Prop} (hP : Stable P Q) {self : BookSet D} {op : BookOp D}
    (hop : Q op) (h : Every P self) : Every P (machine.next self op) := by
  cases op with
  | delta delta now =>
    change Every P (self.onDelta delta now).1
    have hfor := h.entryFor (hP.fresh delta.symbol)
    rcases self.onDelta_cases delta now with ⟨entry, -, hw, heq, -, -⟩ | ⟨b, hb, hext, heq⟩ |
      ⟨b, -, -, heq⟩ <;> rw [heq]
    · exact h.insert (hP.waiting hop rfl hfor hw)
    · exact h.insert (hP.extended hop rfl hfor hb hext)
    · exact h.insert hfor
  | snapshot snapshot now =>
    change Every P (self.installSnapshot snapshot now).1
    rcases self.installSnapshot_cases snapshot now with ⟨-, heq⟩ | ⟨symbol, entry, hsym, hent,
      ⟨-, heq⟩ | ⟨b, hrep, heq⟩⟩ <;> rw [heq]
    · exact h
    · exact h.insert (hP.dropped (h _ _ hent))
    · exact h.insert (hP.installed hop hsym (h _ _ hent) hrep)
  | failed symbol =>
    change Every P (self.snapshotFailed symbol)
    rcases self.snapshotFailed_cases symbol with heq | ⟨entry, hent, heq⟩ <;> rw [heq]
    · exact h
    · exact h.insert (hP.failed (h _ _ hent))
  | reset => exact Every.reset self

/-- A stable property of entries holds after every run of calls. -/
theorem Stable.run {Q : BookOp D → Prop} (hP : Stable P Q) (cooldownMs : ℤ)
    {ops : List (BookOp D)} (hops : ∀ op ∈ ops, Q op) :
    Every P (machine.run (new cooldownMs) ops) :=
  (Machine.along_of_forall_mem hops _).run_invariant (fun _ _ hop h => hP.step hop h)
    (every_new cooldownMs)

/-- The bookkeeping of an entry: it is stored under its symbol's key, its book is that symbol's
book, and nothing is buffered while there is a book. -/
structure Kept (key : String) (entry : Entry D) : Prop where
  key_eq : entry.symbol.key = key
  book_symbol : ∀ b, entry.book = some b → ∃ symbol, b.symbol = some symbol ∧ symbol.key = key
  idle : entry.book ≠ none → entry.buffered = []

/-- The bookkeeping survives every call. -/
theorem stable_kept : Stable (@Kept D) fun _ => True where
  fresh symbol := ⟨rfl, fun _ hb => absurd hb (by simp [Entry.fresh]), fun h => absurd rfl h⟩
  waiting _ _ h hw :=
    ⟨hw.symbol ▸ h.key_eq, fun _ hb => absurd hb (by simp [hw.book]), fun hb => absurd hw.book hb⟩
  extended _ _ h hb hext := by
    refine ⟨h.key_eq, fun b' hb' => ?_, fun _ => h.idle (by simp [hb])⟩
    obtain rfl := Option.some.inj hb'
    rw [OrderBook.extend_symbol]
    exact h.book_symbol _ hb
  dropped h := ⟨h.key_eq, fun _ hb => absurd hb (by simp), fun _ => rfl⟩
  installed _ hsym h hrep := by
    refine ⟨h.key_eq, fun b' hb' => ?_, fun _ => rfl⟩
    obtain rfl := Option.some.inj hb'
    exact ⟨_, (replay_symbol hrep).trans hsym, rfl⟩
  failed h := ⟨h.key_eq, h.book_symbol, h.idle⟩

theorem kept_run (cooldownMs : ℤ) (ops : List (BookOp D)) :
    Every Kept (machine.run (new cooldownMs : BookSet D) ops) :=
  stable_kept.run cooldownMs fun _ _ => trivial

end BookSet

end MoonCore
