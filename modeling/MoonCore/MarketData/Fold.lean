import MoonCore.Domain.Event
import MoonCore.MarketData.Candles
import MoonCore.Machine.Run

/-!
# Folding the event stream into a copy

The core's read-model and every terminal fold the published events into books and bars of
their own, by the same two rules: a snapshot replaces the book and a delta is applied to it,
dropping it on a gap (`foldBooks`); a bar replaces the last one if it opens at the same time
and is appended if it opens later (`foldBars`). The rules are stated here once and
instantiated by the read-model and by the terminal's feed.
-/

namespace MoonCore

/-- A consumer's books, by symbol key. -/
abbrev Books (D : Type*) := String → Option (OrderBook D)

/-- A consumer's bars, by symbol key. -/
abbrev Bars (D : Type*) := String → List (Candle D)

variable {D : Type*} [LinearOrder D] [Zero D]

/-- Fold one public event into the books. -/
def foldBook (books : Books D) : MarketEvent D → Books D
  | .bookSnapshot book =>
    match book.symbol with
    | some symbol => Function.update books symbol.key (some book)
    | none => books
  | .bookDelta delta =>
    let key := delta.symbol.key
    match books key with
    | some book =>
      match book.apply delta with
      -- drop the book rather than serve a torn one
      | (_, .gap _ _) => Function.update books key none
      | (book, _) => Function.update books key (some book)
    | none => books
  | _ => books

/-- Fold one event into the books. -/
def foldBooks (books : Books D) (event : Event D) : Books D :=
  match event.payload with
  | .market market => foldBook books market
  | _ => books

omit [LinearOrder D] [Zero D] in
/-- Replace the bar with the same opening time, or append a newer one. -/
def foldBar (depth : ℕ) (series : List (Candle D)) (candle : Candle D) : List (Candle D) :=
  match series.getLast? with
  | some last =>
    if last.openTime = candle.openTime then setBack series candle
    else if last.openTime > candle.openTime then series
    else pushBounded depth series candle
  | none => pushBounded depth series candle

omit [LinearOrder D] [Zero D] in
/-- Fold one event into the bars. -/
def foldBars (depth : ℕ) (bars : Bars D) (event : Event D) : Bars D :=
  match event.payload with
  | .market (.candle candle) =>
    Function.update bars candle.symbol.key (foldBar depth (bars candle.symbol.key) candle)
  | _ => bars

/-! ### Books -/

/-- The event is a delta that tears the book it meets. -/
def Tears (books : Books D) (event : Event D) : Prop :=
  ∃ delta b expected got, event.payload = .market (.bookDelta delta) ∧
    books delta.symbol.key = some b ∧ (b.apply delta).2 = .gap expected got

@[simp]
theorem foldBooks_connection (books : Books D) (ts : Timestamp) (event : ConnectionEvent) :
    foldBooks books (Event.connection ts event) = books := rfl

/-- A snapshot of a symbol is the symbol's book from then on. -/
theorem foldBooks_snapshot (books : Books D) (ts : Timestamp) {book : OrderBook D}
    {symbol : Symbol} (h : book.symbol = some symbol) :
    foldBooks books (Event.market ts (.bookSnapshot book)) =
      Function.update books symbol.key (some book) := by
  simp only [foldBooks, Event.market_payload, foldBook, h]

/-- A delta for a symbol without a book is ignored. -/
theorem foldBooks_delta_none (books : Books D) (ts : Timestamp) {delta : BookDelta D}
    (h : books delta.symbol.key = none) :
    foldBooks books (Event.market ts (.bookDelta delta)) = books := by
  simp only [foldBooks, Event.market_payload, foldBook, h]

/-- Everything a delta can do to the book it meets: leave it, extend it, or drop it. -/
theorem foldBooks_delta_some (books : Books D) (ts : Timestamp) {delta : BookDelta D}
    {b : OrderBook D} (h : books delta.symbol.key = some b) :
    (delta.lastUpdateId ≤ b.lastUpdateId ∧
      foldBooks books (Event.market ts (.bookDelta delta)) = books) ∨
    (OrderBook.Extends delta b ∧ foldBooks books (Event.market ts (.bookDelta delta)) =
      Function.update books delta.symbol.key (some (b.extend delta))) ∨
    (b.lastUpdateId < delta.lastUpdateId ∧ ¬ OrderBook.Extends delta b ∧
      foldBooks books (Event.market ts (.bookDelta delta)) =
        Function.update books delta.symbol.key none) := by
  simp only [foldBooks, Event.market_payload, foldBook, h]
  rcases b.apply_cases delta with ⟨hle, heq⟩ | ⟨hext, heq⟩ | ⟨hlt, hnot, heq⟩ <;>
    simp only [heq]
  · exact .inl ⟨hle, by rw [← h, Function.update_eq_self]⟩
  · exact .inr (.inl ⟨hext, trivial⟩)
  · exact .inr (.inr ⟨hlt, hnot, trivial⟩)

/-- A delta that extends the book it meets does not tear it. -/
theorem not_tears_of_extends {books : Books D} {ts : Timestamp} {delta : BookDelta D}
    {b : OrderBook D} (h : books delta.symbol.key = some b) (hext : OrderBook.Extends delta b) :
    ¬ Tears books (Event.market ts (.bookDelta delta)) := by
  rintro ⟨delta', b', e, g, hpay, hb', hgap⟩
  obtain rfl : delta = delta' := by simpa using hpay
  obtain rfl : b = b' := Option.some.inj (h.symm.trans hb')
  rcases b.apply_cases delta with ⟨-, heq⟩ | ⟨-, heq⟩ | ⟨-, hnot, -⟩
  · simp [heq] at hgap
  · simp [heq] at hgap
  · exact hnot hext

/-- Only deltas tear. -/
theorem not_tears {books : Books D} {event : Event D}
    (h : ∀ delta, event.payload ≠ .market (.bookDelta delta)) : ¬ Tears books event :=
  fun ⟨delta, _, _, _, hpay, _⟩ => h delta hpay

/-! ### The book under one key -/

/-- The key and update id of an event that carries a book or a change to one. -/
def Event.bookId (event : Event D) : Option (String × ℕ) :=
  match event.payload with
  | .market (.bookSnapshot book) => book.symbol.map fun symbol => (symbol.key, book.lastUpdateId)
  | .market (.bookDelta delta) => some (delta.symbol.key, delta.lastUpdateId)
  | _ => none

/-- What an event does to the book held under a key. -/
def foldAt (key : String) (held : Option (OrderBook D)) (event : Event D) : Option (OrderBook D) :=
  foldBooks (Function.update (fun _ => none) key held) event key

omit [LinearOrder D] [Zero D] in
theorem bookId_snapshot {event : Event D} {book : OrderBook D} {symbol : Symbol}
    (hevent : event.payload = .market (.bookSnapshot book)) (hsymbol : book.symbol = some symbol) :
    event.bookId = some (symbol.key, book.lastUpdateId) := by
  rw [Event.bookId, hevent]
  simp only [hsymbol, Option.map_some]

omit [LinearOrder D] [Zero D] in
theorem bookId_delta {event : Event D} {delta : BookDelta D}
    (hevent : event.payload = .market (.bookDelta delta)) :
    event.bookId = some (delta.symbol.key, delta.lastUpdateId) := by
  rw [Event.bookId, hevent]

/-- The three kinds of events, seen from a key: those that leave its book alone, a book for the
key, and a change to the book of the key. -/
theorem foldBooks_cases (event : Event D) (key : String) :
    ((∀ id, event.bookId ≠ some (key, id)) ∧
      ∀ books : Books D, foldBooks books event key = books key) ∨
    (∃ book symbol, event.payload = .market (.bookSnapshot book) ∧ book.symbol = some symbol ∧
      symbol.key = key ∧ ∀ books : Books D, foldBooks books event key = some book) ∨
    (∃ delta, event.payload = .market (.bookDelta delta) ∧ delta.symbol.key = key) := by
  rcases event with ⟨ts, market | account | health⟩
  · cases market with
    | bookSnapshot book =>
      cases hsymbol : book.symbol with
      | none =>
        refine .inl ⟨fun id => ?_, fun books => ?_⟩
        · simp [Event.bookId, hsymbol]
        · simp only [foldBooks, foldBook, hsymbol]
      | some symbol =>
        have hfold : ∀ books : Books D,
            foldBooks books ⟨ts, .market (.bookSnapshot book)⟩ =
              Function.update books symbol.key (some book) :=
          fun books => foldBooks_snapshot books ts hsymbol
        by_cases hkey : symbol.key = key
        · refine .inr (.inl ⟨book, symbol, rfl, hsymbol, hkey, fun books => ?_⟩)
          rw [hfold, hkey, Function.update_self]
        · refine .inl ⟨fun id => ?_, fun books => ?_⟩
          · simp [Event.bookId, hsymbol, hkey]
          · rw [hfold, Function.update_of_ne (Ne.symm hkey)]
    | bookDelta delta =>
      by_cases hkey : delta.symbol.key = key
      · exact .inr (.inr ⟨delta, rfl, hkey⟩)
      · refine .inl ⟨fun id => by simp [Event.bookId, hkey], fun books => ?_⟩
        change foldBooks books (Event.market ts (.bookDelta delta)) key = _
        cases hheld : books delta.symbol.key with
        | none => rw [foldBooks_delta_none books ts hheld]
        | some b =>
          rcases foldBooks_delta_some books ts hheld with ⟨-, heq⟩ | ⟨-, heq⟩ | ⟨-, -, heq⟩
          · rw [heq]
          · rw [heq, Function.update_of_ne (Ne.symm hkey)]
          · rw [heq, Function.update_of_ne (Ne.symm hkey)]
    | _ => exact .inl ⟨fun id => by simp [Event.bookId], fun books => rfl⟩
  · exact .inl ⟨fun id => by simp [Event.bookId], fun books => rfl⟩
  · exact .inl ⟨fun id => by simp [Event.bookId], fun books => rfl⟩

/-- What a change does to the book it is for. -/
theorem foldBooks_delta_apply (books : Books D) {event : Event D} {delta : BookDelta D}
    (hevent : event.payload = .market (.bookDelta delta)) :
    foldBooks books event delta.symbol.key =
      (books delta.symbol.key).bind fun b =>
        if delta.lastUpdateId ≤ b.lastUpdateId then some b
        else if OrderBook.Extends delta b then some (b.extend delta) else none := by
  obtain ⟨ts, payload⟩ := event
  subst hevent
  change foldBooks books (Event.market ts (.bookDelta delta)) _ = _
  cases hheld : books delta.symbol.key with
  | none => rw [foldBooks_delta_none books ts hheld, hheld, Option.bind_none]
  | some b =>
    rw [Option.bind_some]
    rcases foldBooks_delta_some books ts hheld with ⟨hle, heq⟩ | ⟨hext, heq⟩ | ⟨hlt, hnot, heq⟩
    · rw [heq, hheld, if_pos hle]
    · rw [heq, if_neg (Nat.not_le.mpr hext.1), if_pos hext, Function.update_self]
    · rw [heq, if_neg (Nat.not_le.mpr hlt), if_neg hnot, Function.update_self]

/-- Books are folded key by key. -/
theorem foldBooks_apply (books : Books D) (event : Event D) (key : String) :
    foldBooks books event key = foldAt key (books key) event := by
  rw [foldAt]
  rcases foldBooks_cases event key with ⟨-, hfold⟩ | ⟨book, symbol, -, -, -, hfold⟩ |
    ⟨delta, hevent, rfl⟩
  · rw [hfold, hfold, Function.update_self]
  · rw [hfold, hfold]
  · rw [foldBooks_delta_apply books hevent, foldBooks_delta_apply _ hevent, Function.update_self]

theorem foldl_foldBooks_apply (books : Books D) (events : List (Event D)) (key : String) :
    events.foldl foldBooks books key = events.foldl (foldAt key) (books key) := by
  induction events generalizing books with
  | nil => rfl
  | cons event events ih => rw [List.foldl_cons, ih, foldBooks_apply, List.foldl_cons]

/-- The three kinds of events, on the book under a key. -/
theorem foldAt_cases (event : Event D) (key : String) :
    ((∀ id, event.bookId ≠ some (key, id)) ∧ ∀ held, foldAt key held event = held) ∨
    (∃ book symbol, event.payload = .market (.bookSnapshot book) ∧ book.symbol = some symbol ∧
      symbol.key = key ∧ ∀ held, foldAt key held event = some book) ∨
    (∃ delta, event.payload = .market (.bookDelta delta) ∧ delta.symbol.key = key ∧
      ∀ held, foldAt key held event = held.bind fun b =>
        if delta.lastUpdateId ≤ b.lastUpdateId then some b
        else if OrderBook.Extends delta b then some (b.extend delta) else none) := by
  rcases foldBooks_cases event key with ⟨hid, hfold⟩ |
    ⟨book, symbol, hevent, hsymbol, hkey, hfold⟩ | ⟨delta, hevent, rfl⟩
  · exact .inl ⟨hid, fun held => by rw [foldAt, hfold, Function.update_self]⟩
  · exact .inr (.inl ⟨book, symbol, hevent, hsymbol, hkey, fun held => hfold _⟩)
  · refine .inr (.inr ⟨delta, hevent, rfl, fun held => ?_⟩)
    rw [foldAt, foldBooks_delta_apply _ hevent, Function.update_self]

/-- An event that makes a book of nothing makes it of anything. -/
theorem foldAt_of_none {event : Event D} {key : String} {b : OrderBook D}
    (h : foldAt key none event = some b) (held : Option (OrderBook D)) :
    foldAt key held event = some b := by
  rcases foldAt_cases event key with ⟨-, hfold⟩ | ⟨book, symbol, -, -, -, hfold⟩ |
    ⟨delta, -, -, hfold⟩
  · rw [hfold] at h
    cases h
  · rw [hfold] at h ⊢
    exact h
  · rw [hfold] at h
    cases h

/-- A stretch of the stream makes the same book whatever it starts from, or else it starts from a
book, never goes back behind it, and leaves every book at least as new as its result alone. -/
theorem foldl_foldAt_const_or_stale (events : List (Event D)) (key : String) :
    (∀ held held', events.foldl (foldAt key) held = events.foldl (foldAt key) held') ∨
      ∀ held b, events.foldl (foldAt key) held = some b →
        ∃ before, held = some before ∧ before.lastUpdateId ≤ b.lastUpdateId ∧
          ∀ newer : OrderBook D, b.lastUpdateId ≤ newer.lastUpdateId →
            events.foldl (foldAt key) (some newer) = some newer := by
  induction events with
  | nil => exact .inr fun held b hb => ⟨b, hb, le_rfl, fun _ _ => rfl⟩
  | cons event events ih =>
    rcases ih with hconst | hstale
    · exact .inl fun held held' => hconst _ _
    rcases foldAt_cases event key with ⟨-, hfold⟩ | ⟨book, symbol, -, -, -, hfold⟩ |
      ⟨delta, -, -, hfold⟩
    · refine .inr fun held b hb => ?_
      rw [List.foldl_cons, hfold] at hb
      obtain ⟨before, hheld, hle, hnewer⟩ := hstale held b hb
      exact ⟨before, hheld, hle, fun newer hn => by rw [List.foldl_cons, hfold, hnewer newer hn]⟩
    · exact .inl fun held held' => by rw [List.foldl_cons, List.foldl_cons, hfold, hfold]
    · refine .inr fun held b hb => ?_
      rw [List.foldl_cons] at hb
      obtain ⟨mid, hmid, hle, hnewer⟩ := hstale _ b hb
      rw [hfold] at hmid
      obtain ⟨before, rfl, hstep⟩ := Option.bind_eq_some_iff.mp hmid
      have hids : before.lastUpdateId ≤ mid.lastUpdateId ∧
          delta.lastUpdateId ≤ mid.lastUpdateId := by
        split_ifs at hstep with hold hext
        · obtain rfl := Option.some.inj hstep
          exact ⟨le_rfl, hold⟩
        · obtain rfl := Option.some.inj hstep
          exact ⟨hext.1.le, le_rfl⟩
      refine ⟨before, rfl, hids.1.trans hle, fun newer hn => ?_⟩
      have hskip : foldAt key (some newer) event = some newer := by
        rw [hfold, Option.bind_some, if_pos ((hids.2.trans hle).trans hn)]
      rw [List.foldl_cons, hskip, hnewer newer hn]

/-- **An overlap resolves itself.** What a stretch of the stream has made of a book it leaves
alone when it is folded a second time: a book inside it wins both times, and where there is none
every change of it is older than the book. -/
theorem foldl_foldAt_again {events : List (Event D)} {key : String} {held : Option (OrderBook D)}
    {b : OrderBook D} (h : events.foldl (foldAt key) held = some b) :
    events.foldl (foldAt key) (some b) = some b := by
  rcases foldl_foldAt_const_or_stale events key with hconst | hstale
  · rw [hconst _ held, h]
  · obtain ⟨-, -, -, hnewer⟩ := hstale held b h
    exact hnewer b le_rfl

/-- Events that leave the book of a key alone can be left out. -/
theorem foldl_foldAt_filter {key : String} {p : Event D → Bool}
    (h : ∀ event, (∃ id, event.bookId = some (key, id)) → p event = true)
    (events : List (Event D)) (held : Option (OrderBook D)) :
    (events.filter p).foldl (foldAt key) held = events.foldl (foldAt key) held := by
  induction events generalizing held with
  | nil => rfl
  | cons event events ih =>
    by_cases hp : p event
    · rw [List.filter_cons_of_pos hp, List.foldl_cons, List.foldl_cons, ih]
    · rw [List.filter_cons_of_neg hp, List.foldl_cons, ih]
      have hskip : foldAt key held event = held := by
        rcases foldAt_cases event key with ⟨-, hfold⟩ | ⟨book, symbol, hevent, hsymbol, rfl, -⟩ |
          ⟨delta, hevent, rfl, -⟩
        · exact hfold held
        · exact absurd (h event ⟨_, bookId_snapshot hevent hsymbol⟩) hp
        · exact absurd (h event ⟨_, bookId_delta hevent⟩) hp
      rw [hskip]

/-! ### Bars -/

section Bars

omit [LinearOrder D] [Zero D]

variable {depth : ℕ} {init : List (Candle D)} {last candle : Candle D}

@[simp]
theorem foldBar_nil (candle : Candle D) : foldBar depth [] candle = pushBounded depth [] candle :=
  rfl

/-- A bar that opens with the last one replaces it. -/
theorem foldBar_redraw (h : candle.openTime = last.openTime) :
    foldBar depth (init ++ [last]) candle = init ++ [candle] := by
  simp only [foldBar, List.getLast?_concat, if_pos h.symm, setBack_concat]

/-- A bar that opens after the last one is appended. -/
theorem foldBar_append (h : last.openTime < candle.openTime) :
    foldBar depth (init ++ [last]) candle = pushBounded depth (init ++ [last]) candle := by
  simp only [foldBar, List.getLast?_concat, if_neg h.ne, if_neg h.not_gt]

/-- A bar that opens before the last one is dropped. -/
theorem foldBar_drop (h : candle.openTime < last.openTime) :
    foldBar depth (init ++ [last]) candle = init ++ [last] := by
  simp only [foldBar, List.getLast?_concat, if_neg h.ne', if_pos h]

end Bars

end MoonCore
