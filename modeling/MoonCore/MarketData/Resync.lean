import MoonCore.MarketData.Books

/-!
# Snapshots that come at the wrong moment

`BookSet::install_snapshot` is written for an entry that waits for one snapshot. Two snapshots
do not fit that picture:

* one that arrives when the book is already live, the second answer after a request was given
  up (`installSnapshot_live`): it replaces the book whatever its age, so the book stays live
  only if the snapshot comes synced and no older (`along_keepsBook_iff`);
* one that the buffered updates ran past: the updates from the gap on (`fromGap`) are what the
  next snapshot has to chain onto, and the buffer has been emptied before the replay
  (`buffered_of_gap`).
-/

namespace MoonCore

variable {D : Type*} [LinearOrder D] [Zero D]

/-- The updates a replay does not get past: from the first one that leaves a gap on. -/
def fromGap (snapshot : OrderBook D) : List (BookDelta D) → List (BookDelta D)
  | [] => []
  | delta :: rest =>
    match snapshot.apply delta with
    | (_, .gap _ _) => delta :: rest
    | (book, _) => fromGap book rest

/-- A replay that fails stops at an update that neither extends the book built so far nor is
older than it. -/
theorem fromGap_of_replay_eq_none {snapshot : OrderBook D} {deltas : List (BookDelta D)}
    (h : replay snapshot deltas = none) :
    ∃ replayed delta rest book, deltas = replayed ++ delta :: rest ∧
      fromGap snapshot deltas = delta :: rest ∧ replay snapshot replayed = some book ∧
      book.lastUpdateId < delta.lastUpdateId ∧ ¬ OrderBook.Extends delta book := by
  induction deltas generalizing snapshot with
  | nil => exact absurd h (by simp)
  | cons delta rest ih =>
    rcases snapshot.apply_cases delta with ⟨-, heq⟩ | ⟨-, heq⟩ | ⟨hlt, hnot, heq⟩
    · simp only [replay, heq] at h
      obtain ⟨replayed, d, rest', book, rfl, hfrom, hrep, hgap⟩ := ih h
      refine ⟨delta :: replayed, d, rest', book, rfl, ?_, ?_, hgap⟩
      · rw [fromGap, heq]
        exact hfrom
      · rw [replay, heq]
        exact hrep
    · simp only [replay, heq] at h
      obtain ⟨replayed, d, rest', book, rfl, hfrom, hrep, hgap⟩ := ih h
      refine ⟨delta :: replayed, d, rest', book, rfl, ?_, ?_, hgap⟩
      · rw [fromGap, heq]
        exact hfrom
      · rw [replay, heq]
        exact hrep
    · exact ⟨[], delta, rest, snapshot, rfl, by rw [fromGap, heq], rfl, hlt, hnot⟩

namespace BookSet

/-! ### A snapshot for a book that is live -/

/-- A snapshot for a live book takes its place, whatever it says. -/
theorem installSnapshot_live {self : BookSet D} (h : Every Kept self) {symbol : Symbol}
    {b snapshot : OrderBook D} (hlive : self.book symbol.key = some b)
    (hsym : snapshot.symbol = some symbol) (now : Timestamp) :
    (self.installSnapshot snapshot now).1.book symbol.key =
      if snapshot.synced then some snapshot else none := by
  obtain ⟨entry, hent, hbook, -⟩ := book_eq_some.mp hlive
  have hidle : entry.buffered = [] := (h _ _ hent).idle (by simp [hbook])
  simp only [installSnapshot, hsym, hent, hidle, replay_nil]
  rw [book_insert, if_pos rfl]
  split_ifs with hs
  · exact Option.filter_some_pos hs
  · exact Option.filter_some_neg (by simpa using hs)

/-- After a snapshot for a live book the book is still live and no older. -/
def KeepsBook (self : BookSet D) : BookOp D → Prop
  | .snapshot snapshot now => ∀ symbol b, snapshot.symbol = some symbol →
      self.book symbol.key = some b →
      ∃ b', (self.installSnapshot snapshot now).1.book symbol.key = some b' ∧
        b.lastUpdateId ≤ b'.lastUpdateId
  | _ => True

/-- A snapshot for a live book is itself chained to the stream, and no older than the book. -/
def Supersedes (self : BookSet D) : BookOp D → Prop
  | .snapshot snapshot _ => ∀ symbol b, snapshot.symbol = some symbol →
      self.book symbol.key = some b →
      snapshot.synced = true ∧ b.lastUpdateId ≤ snapshot.lastUpdateId
  | _ => True

theorem keepsBook_iff {self : BookSet D} (h : Every Kept self) (op : BookOp D) :
    self.KeepsBook op ↔ self.Supersedes op := by
  cases op with
  | snapshot snapshot now =>
    refine forall₄_congr fun symbol b hsym hlive => ?_
    rw [installSnapshot_live h hlive hsym]
    split_ifs with hs
    · simp [hs]
    · simp [hs]
  | delta => exact Iff.rfl
  | failed => exact Iff.rfl
  | reset => exact Iff.rfl

/-- **When a late snapshot leaves a live book live**: throughout a run, exactly when every
snapshot that meets a live book is synced already and no older than it. -/
theorem along_keepsBook_iff (cooldownMs : ℤ) (ops : List (BookOp D)) :
    machine.Along KeepsBook (new cooldownMs) ops ↔
      machine.Along Supersedes (new cooldownMs) ops := by
  rw [Machine.along_iff_forall_split, Machine.along_iff_forall_split]
  refine forall₄_congr fun pre op post _ => ?_
  exact keepsBook_iff (kept_run cooldownMs pre) op

/-- An update of the fixed runs, without levels. -/
def bareDelta (prevUpdateId lastUpdateId : ℕ) : BookDelta ℤ :=
  ⟨btcusdt, prevUpdateId, lastUpdateId, [], [], 0⟩

/-- A fetched snapshot of the fixed runs. -/
def bareSnapshot (lastUpdateId : ℕ) : OrderBook ℤ := ⟨some btcusdt, [], [], lastUpdateId, 0, false⟩

/-- The request is given up after its deadline and made again; the first answer makes the book
live, the second takes it away. -/
def answeredTwice : List (BookOp ℤ) :=
  [.delta (bareDelta 5 6) 0, .delta (bareDelta 6 7) 10000, .snapshot (bareSnapshot 5) 10001,
    .snapshot (bareSnapshot 9) 10002]

theorem not_along_keepsBook :
    ¬ machine.Along KeepsBook (new defaultResyncCooldownMs) answeredTwice := by
  rintro ⟨-, -, -, hkeep, -⟩
  have hgone : (machine.run (new defaultResyncCooldownMs) answeredTwice).book btcusdt.key =
      none := by
    decide
  obtain ⟨b', hb', -⟩ := hkeep btcusdt ⟨some btcusdt, [], [], 7, 0, true⟩ rfl (by decide)
  exact absurd (hb'.symm.trans hgone) (by simp)

/-! ### A snapshot the stream ran past -/

/-- What the next snapshot needs after one that was too old: the updates from the gap on are
still buffered, and a snapshot onto which they and those that follow chain is joined. -/
def KeepsTail (self : BookSet D) (symbol : Symbol) (snapshot : OrderBook D) (now : Timestamp) :
    Prop :=
  let kept := fromGap snapshot (self.entryFor symbol).buffered
  let after := (self.installSnapshot snapshot now).1
  (after.entryFor symbol).buffered = kept ∧
    ∀ (arrivals : List (BookDelta D × Timestamp)) (later b : OrderBook D) (now' : Timestamp),
      (∀ d ∈ arrivals, d.1.symbol = symbol) → kept.length + arrivals.length ≤ maxBuffered →
      later.symbol = some symbol → replay later (kept ++ arrivals.map Prod.fst) = some b →
      b.synced = true →
      ((machine.run after (arrivals.map fun d => .delta d.1 d.2)).installSnapshot later now').2 =
        some b

/-- A snapshot that is too old empties the buffer. -/
theorem buffered_of_gap {self : BookSet D} {symbol : Symbol} {snapshot : OrderBook D}
    (hsym : snapshot.symbol = some symbol)
    (hgap : replay snapshot (self.entryFor symbol).buffered = none) (now : Timestamp) :
    ∃ entry, (self.installSnapshot snapshot now).1.entries symbol.key = some entry ∧
      entry.buffered = [] ∧ entry.book = none := by
  rcases hent : self.entries symbol.key with - | entry
  · rw [entryFor, hent] at hgap
    exact absurd hgap (by simp [Entry.fresh])
  · rw [entryFor, hent, Option.getD_some] at hgap
    refine ⟨{ entry with awaiting := false, buffered := [], book := none }, ?_, rfl, rfl⟩
    simp only [installSnapshot, hsym, hent, hgap, insert_entries, if_true]

/-- Onto an empty buffer a fetched snapshot is never joined. -/
theorem installSnapshot_of_buffered_eq_nil {self : BookSet D} {symbol : Symbol} {entry : Entry D}
    {snapshot : OrderBook D} (hent : self.entries symbol.key = some entry)
    (hnil : entry.buffered = []) (hsym : snapshot.symbol = some symbol)
    (hsync : snapshot.synced = false) (now : Timestamp) :
    (self.installSnapshot snapshot now).2 = none := by
  simp [installSnapshot, hsym, hent, hnil, hsync]

/-- **A snapshot that is too old loses the updates from the gap on**, in every reachable state:
there are some, none of them is buffered afterwards, and the next fetched snapshot is not
joined, whatever it is. -/
theorem not_keepsTail (cooldownMs : ℤ) (ops : List (BookOp D)) {symbol : Symbol}
    {snapshot : OrderBook D} (hsym : snapshot.symbol = some symbol)
    (hgap : replay snapshot ((machine.run (new cooldownMs) ops).entryFor symbol).buffered = none)
    (now : Timestamp) :
    ¬ (machine.run (new cooldownMs) ops).KeepsTail symbol snapshot now ∧
    fromGap snapshot ((machine.run (new cooldownMs) ops).entryFor symbol).buffered ≠ [] ∧
    (((machine.run (new cooldownMs) ops).installSnapshot snapshot now).1.entryFor
      symbol).buffered = [] ∧
    ∀ later now', later.symbol = some symbol → later.synced = false →
      (((machine.run (new cooldownMs) ops).installSnapshot snapshot now).1.installSnapshot
        later now').2 = none := by
  obtain ⟨entry, hent, hnil, -⟩ := buffered_of_gap hsym hgap now
  obtain ⟨-, delta, rest, -, -, hfrom, -⟩ := fromGap_of_replay_eq_none hgap
  have hafter : (((machine.run (new cooldownMs) ops).installSnapshot snapshot now).1.entryFor
      symbol).buffered = [] := by rw [entryFor, hent, Option.getD_some, hnil]
  refine ⟨fun hkeep => ?_, by simp [hfrom], hafter, fun later now' hlater hsync =>
    installSnapshot_of_buffered_eq_nil hent hnil hlater hsync now'⟩
  have hkept := hkeep.1
  rw [hafter, hfrom] at hkept
  exact absurd hkept (by simp)

theorem not_keepsTail_overrun :
    ¬ (machine.run (new defaultResyncCooldownMs) [.delta (bareDelta 5 6) 0]).KeepsTail btcusdt
        (bareSnapshot 3) 10 ∧
    fromGap (bareSnapshot 3) [bareDelta 5 6] = [bareDelta 5 6] := by
  refine ⟨(not_keepsTail defaultResyncCooldownMs [.delta (bareDelta 5 6) 0]
    (show (bareSnapshot 3).symbol = some btcusdt from rfl) ?_ 10).1, ?_⟩
  · decide
  · decide

/-- The buffered update chains onto the second snapshot, and the book is not joined. -/
theorem chaining_snapshot_not_joined :
    ¬ (machine.run (new defaultResyncCooldownMs) [.delta (bareDelta 5 6) 0]).KeepsTail btcusdt
        (bareSnapshot 3) 10 ∧
    (replay (bareSnapshot 5) [bareDelta 5 6]).map OrderBook.synced = some true ∧
    ((machine.run (new defaultResyncCooldownMs) [.delta (bareDelta 5 6) 0,
      .snapshot (bareSnapshot 3) 10]).installSnapshot (bareSnapshot 5) 20).2 = none := by
  have hjoin : replay (bareSnapshot 5) [bareDelta 5 6] =
      some ⟨some btcusdt, [], [], 6, 0, true⟩ := by decide
  refine ⟨fun hkeep => ?_, by rw [hjoin]; rfl, by decide⟩
  have hjoined := hkeep.2 [] (bareSnapshot 5) ⟨some btcusdt, [], [], 6, 0, true⟩ 20 (by simp)
    (by decide) rfl (by decide) rfl
  exact absurd hjoined (by decide)

end BookSet

end MoonCore
