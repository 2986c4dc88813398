import Mathlib.Data.Int.Order.Basic
import MoonCore.Core.BookReplica
import MoonCore.Core.Fanout

/-!
# A terminal that joins late

A session is handed the read-model's books while events the read-model has already folded are
still in its queue. `Fanout.Converging` says that what is on the way leads the terminal to the
read-model's books all the same; a hand-over establishes it whatever the queue holds, and only a
lag ends it.

A terminal that has missed events shows, for a symbol, nothing or a book of the past, as long as
no update id is published twice for the symbol (`Fanout.Fresh`). Where one is, the terminal may
apply a change to a book of the same id that the read-model no longer had.
-/

namespace MoonCore

variable {D : Type*} [LinearOrder D] [Zero D]

/-! ### What is published -/

/-- A published book is synced, and a published change extends the book it is for. -/
def Chains (books : Books D) (event : Event D) : Prop :=
  (∀ book, event.payload = .market (.bookSnapshot book) → book.synced = true) ∧
    ∀ delta, event.payload = .market (.bookDelta delta) →
      ∃ b, books delta.symbol.key = some b ∧ b.synced = true ∧ OrderBook.Extends delta b

omit [LinearOrder D] [Zero D] in
theorem chains_of_quiet {books : Books D} {event : Event D} (h : event.Quiet) :
    Chains books event :=
  ⟨fun book hbook => absurd hbook (h.1 book), fun delta hdelta => absurd hdelta (h.2 delta)⟩

/-- What goes with an announced change of a view of synced books chains onto a copy of it. -/
theorem Announces.chains {view view' : Books D} {events : List (Event D)}
    (h : Announces view view' events) {ms : MarketState D} (hsync : Sync view ms.books)
    (hview : ∀ key b, view key = some b → b.synced = true)
    (hview' : ∀ key b, view' key = some b → b.synced = true) :
    MarketState.consumer.Along (fun ms event => Chains ms.books event) ms events := by
  have hquiet : ∀ {events : List (Event D)}, (∀ event ∈ events, event.Quiet) → ∀ ms,
      MarketState.consumer.Along (fun ms event => Chains ms.books event) ms events := by
    intro events hquiet ms
    refine Machine.Along.mono (Machine.along_of_forall_mem hquiet ms) ?_
    exact fun ms event hevent => chains_of_quiet hevent
  cases h with
  | kept quiet => exact hquiet quiet ms
  | withdrawn key quiet => exact hquiet quiet ms
  | forgotten quiet => exact hquiet quiet ms
  | @extended events now delta b held extends_ quiet =>
    refine ⟨⟨fun book hbook => by simp at hbook, fun delta' hdelta => ?_⟩, hquiet quiet _⟩
    obtain rfl : delta = delta' := by simpa using hdelta
    exact ⟨b, hsync _ b held, hview _ b held, extends_⟩
  | @shown events now b symbol symbol_eq quiet =>
    refine ⟨⟨fun book hbook => ?_, fun delta hdelta => by simp at hdelta⟩, hquiet quiet _⟩
    obtain rfl : b = book := by simpa using hbook
    exact hview' symbol.key b (Function.update_self _ _ _)

omit [LinearOrder D] [Zero D] in
theorem BookSet.synced_of_book {set : BookSet D} {key : String} {b : OrderBook D}
    (h : set.book key = some b) : b.synced = true := by
  obtain ⟨-, -, -, hsynced⟩ := BookSet.book_eq_some.mp h
  exact hsynced

/-- The books a consumer makes of some events. -/
def booksAfter (events : List (Event D)) : Books D := events.foldl foldBooks fun _ => none

theorem booksAfter_concat (events : List (Event D)) (event : Event D) (key : String) :
    booksAfter (events ++ [event]) key = foldAt key (booksAfter events key) event := by
  rw [booksAfter, List.foldl_append, List.foldl_cons, List.foldl_nil, foldBooks_apply]
  rfl

theorem books_foldl_apply (events : List (Event D)) :
    (events.foldl MarketState.apply .new).books = booksAfter events :=
  MarketState.foldl_apply_books .new events

variable [Add D]

/-- Everything a connector publishes chains onto what it published before. -/
theorem chains_published {bucketing : Bucketing} {capacity : ℕ} {cooldownMs : ℤ}
    {inputs : List (Input D)} {past later : List (Event D)} {event : Event D}
    (h : (Connector.new bucketing capacity cooldownMs).published inputs = past ++ event :: later) :
    Chains (booksAfter past) event := by
  have halong : MarketState.consumer.Along (fun ms event => Chains ms.books event) .new
      ((Connector.new bucketing capacity cooldownMs).published inputs) := by
    refine Machine.along_outputs_flatten MarketState.consumer synced_step (fun s input hs => ?_)
      (synced_start bucketing capacity cooldownMs) inputs
    exact (s.1.announces hs.kept input).chains hs.sync (fun _ _ => BookSet.synced_of_book)
      fun _ _ => BookSet.synced_of_book
  have hat := Machine.along_iff_forall_split.mp halong past event later h
  rw [← Machine.foldl_next] at hat
  rw [← books_foldl_apply]
  exact hat

namespace Fanout

variable {bucketing : Bucketing} {capacity : ℕ} {cooldownMs : ℤ} {s : Fanout D}

theorem Pumped.books_eq {first : Connector D} (h : Pumped first s) :
    s.state.books = booksAfter s.folded := by
  rw [h.state_eq, books_foldl_apply]

/-- Every event the pump has folded chains onto those before it. -/
theorem Pumped.chains (h : Pumped (.new bucketing capacity cooldownMs) s)
    {past later : List (Event D)} {event : Event D} (hsplit : s.folded = past ++ event :: later) :
    Chains (booksAfter past) event := by
  obtain ⟨inputs, -, hevents⟩ := h.published
  rw [hsplit, List.append_assoc, List.cons_append] at hevents
  exact chains_published hevents.symm

/-- The books of the read-model, at any time, are synced and filed under their own key. -/
theorem Pumped.filed (h : Pumped (.new bucketing capacity cooldownMs) s)
    {past : List (Event D)} (hpast : past <+: s.folded) {key : String} {b : OrderBook D}
    (hb : booksAfter past key = some b) :
    b.synced = true ∧ ∃ symbol, b.symbol = some symbol ∧ symbol.key = key := by
  induction past using List.reverseRecOn generalizing b with
  | nil => cases hb
  | append_singleton past event ih =>
    have hbefore : past <+: s.folded := (List.prefix_append past [event]).trans hpast
    rw [booksAfter_concat] at hb
    rcases foldAt_cases event key with ⟨-, hfold⟩ | ⟨book, symbol, hevent, hsymbol, hkey, hfold⟩ |
      ⟨delta, -, -, hfold⟩
    · rw [hfold] at hb
      exact ih hbefore hb
    · obtain ⟨later, hsplit⟩ := hpast
      rw [List.append_assoc, List.singleton_append] at hsplit
      rw [hfold] at hb
      obtain rfl := Option.some.inj hb
      exact ⟨(h.chains hsplit.symm).1 book hevent, symbol, hsymbol, hkey⟩
    · rw [hfold] at hb
      obtain ⟨before, hheld, hstep⟩ := Option.bind_eq_some_iff.mp hb
      obtain ⟨hsynced, symbol, hsymbol, hkey⟩ := ih hbefore hheld
      split_ifs at hstep
      · obtain rfl := Option.some.inj hstep
        exact ⟨hsynced, symbol, hsymbol, hkey⟩
      · obtain rfl := Option.some.inj hstep
        exact ⟨rfl, symbol, hsymbol, hkey⟩

/-! ### Draining -/

/-- The terminal's books once everything on the way has arrived. -/
def drained (s : Fanout D) (session : Session) : Books D :=
  (events s.wire ++ s.pending.filter session.wants).foldl foldBooks s.feed.books

/-- What is on the way leads the terminal to the read-model's books of its symbols. -/
def Converging (s : Fanout D) : Prop :=
  ∀ session, s.session = some session → ∀ sub ∈ session.subscriptions, ∀ b,
    s.state.books sub.symbol.key = some b → s.drained session sub.symbol.key = some b

omit [LinearOrder D] [Zero D] [Add D] in
/-- A session wants what concerns the book of a subscribed symbol. -/
theorem wants_of_bookId {session : Session} {sub : Subscription}
    (hsub : sub ∈ session.subscriptions) (event : Event D)
    (hid : ∃ id, event.bookId = some (sub.symbol.key, id)) : session.wants event = true := by
  obtain ⟨id, hid⟩ := hid
  obtain ⟨ts, market | account | health⟩ := event
  · cases market with
    | bookSnapshot book =>
      obtain ⟨symbol, hsymbol, hkey⟩ := Option.map_eq_some_iff.mp hid
      have hsame : sub.symbol = symbol := Symbol.key_injective (Prod.mk.inj hkey).1.symm
      exact Session.wants_of_subscribed rfl hsymbol ⟨sub, hsub, hsame⟩
    | bookDelta delta =>
      have hsame : sub.symbol = delta.symbol :=
        Symbol.key_injective (Prod.mk.inj (Option.some.inj hid)).1.symm
      exact Session.wants_of_subscribed rfl rfl ⟨sub, hsub, hsame⟩
    | _ => cases hid
  · cases hid
  · cases hid

omit [Add D] in
/-- Shown books end up where they are held. -/
theorem foldl_shown {held : Books D} {shown : List (OrderBook D)} (now : Timestamp)
    (hshown : ∀ b ∈ shown, ∃ symbol, b.symbol = some symbol ∧ held symbol.key = some b)
    (books : Books D) {symbol : Symbol} {b : OrderBook D} (hsymbol : b.symbol = some symbol)
    (hb : held symbol.key = some b) (hin : books symbol.key = some b ∨ b ∈ shown) :
    (shown.map fun book => Event.market now (.bookSnapshot book)).foldl foldBooks books
      symbol.key = some b := by
  induction shown generalizing books with
  | nil => exact hin.resolve_right List.not_mem_nil
  | cons first shown ih =>
    obtain ⟨symbol', hsymbol', hheld'⟩ := hshown first List.mem_cons_self
    rw [List.map_cons, List.foldl_cons, foldBooks_snapshot books now hsymbol']
    refine ih (fun b hb => hshown b (List.mem_cons_of_mem first hb)) _ ?_
    rw [Function.update_apply]
    split_ifs with hkey
    · rw [← hkey, hb] at hheld'
      exact .inl hheld'.symm
    · refine hin.imp_right fun hmem => (List.mem_cons.mp hmem).resolve_left ?_
      rintro rfl
      rw [hsymbol] at hsymbol'
      exact hkey (congrArg Symbol.key (Option.some.inj hsymbol'))

omit [Add D] in
/-- After a hand-over the terminal has every subscribed book of the read-model. -/
theorem foldl_handOver {state : MarketState D} {subs : List Subscription} (now : Timestamp)
    (hfiled : ∀ key b, state.books key = some b →
      b.synced = true ∧ ∃ symbol, b.symbol = some symbol ∧ symbol.key = key)
    (books : Books D) {sub : Subscription} (hsub : sub ∈ subs) {b : OrderBook D}
    (hb : state.books sub.symbol.key = some b) :
    (handOver state subs now).foldl foldBooks books sub.symbol.key = some b := by
  have hquiet : ∀ event ∈ (state.tapeFor subs).map (fun trade => Event.market now (.trade trade)) ++
      (state.candlesFor subs).map (fun candle => Event.market now (.candle candle)),
      event.Quiet := by
    intro event hevent
    rcases List.mem_append.mp hevent with hmem | hmem <;>
      obtain ⟨_, -, rfl⟩ := List.mem_map.mp hmem <;> simp [Event.Quiet]
  obtain ⟨hsynced, symbol, hsymbol, hkey⟩ := hfiled _ b hb
  have hserved : b ∈ state.snapshotsFor subs :=
    MarketState.mem_snapshotsFor.mpr ⟨hsynced, sub, hsub, hb⟩
  rw [handOver, List.foldl_append, foldl_foldBooks_quiet hquiet, ← hkey]
  refine foldl_shown now (fun b' hb' => ?_) books hsymbol (hkey ▸ hb) (.inr hserved)
  obtain ⟨-, sub', -, hheld'⟩ := MarketState.mem_snapshotsFor.mp hb'
  obtain ⟨-, symbol', hsymbol', hkey'⟩ := hfiled _ b' hheld'
  exact ⟨symbol', hsymbol', hkey' ▸ hheld'⟩

/-! ### What keeps a session converging -/

omit [Add D] in
/-- What is on the way, for the book under a subscribed key. -/
theorem drained_apply {session : Session} {sub : Subscription}
    (hsub : sub ∈ session.subscriptions) :
    s.drained session sub.symbol.key =
      s.pending.foldl (foldAt sub.symbol.key)
        ((events s.wire).foldl foldBooks s.feed.books sub.symbol.key) := by
  rw [drained, List.foldl_append, foldl_foldBooks_apply, foldl_foldAt_filter]
  exact wants_of_bookId hsub

/-- A hand-over makes a session converge, whatever is still in its queue. -/
theorem Pumped.converging_answer (h : Pumped (.new bucketing capacity cooldownMs) s)
    (after : Session) {reply : ServerMsg D} (hreply : ∀ event, reply ≠ .event event)
    (now : Timestamp) :
    Converging { s with
      session := some after
      wire := s.wire ++ reply :: (handOver s.state after.subscriptions now).map .event } := by
  intro session hsession sub hsub b hb
  obtain rfl := Option.some.inj hsession
  obtain ⟨gone, hpending⟩ := h.pending
  rw [drained_apply hsub, events_append, events_reply hreply, events_map_event,
    List.foldl_append, foldl_handOver now (fun key b hb => ?_) _ hsub hb]
  · have hread := hb
    change s.state.books sub.symbol.key = some b at hread
    rw [h.books_eq, hpending, booksAfter, List.foldl_append, foldl_foldBooks_apply] at hread
    exact foldl_foldAt_again hread
  · rw [h.books_eq] at hb
    exact h.filed List.prefix_rfl hb

/-- After any message of its terminal a session converges. -/
theorem Pumped.converging_client (h : Pumped (.new bucketing capacity cooldownMs) s) (auth : Auth)
    (msg : Except String ClientMsg) (now : Timestamp) :
    Converging ((machine auth).next s (.client msg now)) := by
  refine next_of_steps fun after hsteps => ?_
  cases hsteps with
  | rest hvenue hmove =>
    have hnone := hmove msg now rfl
    exact fun session hsession => by cases hnone.symm.trans hsession
  | answer hsession hreceive hreply => exact h.converging_answer _ hreply now
  | close => exact fun session hsession => by cases hsession

/-- Without a lag a converging session goes on converging. -/
theorem Converging.next (hconv : Converging s)
    (h : Pumped (.new bucketing capacity cooldownMs) s) (auth : Auth) {move : Move D}
    (hmove : move.isLag = false) : Converging ((machine auth).next s move) := by
  refine next_of_steps fun after hsteps => ?_
  cases hsteps with
  | answer hsession hreceive hreply now => exact h.converging_answer _ hreply now
  | lag => cases hmove
  | @fold event channel hheld hchannel =>
    intro session hsession sub hsub b hb
    have hold := hconv session hsession sub hsub
    rw [drained_apply hsub] at hold ⊢
    rw [MarketState.apply_books, foldBooks_apply] at hb
    rw [pending, hheld, Option.toList_none, List.append_nil] at hold
    rw [pending, Option.toList_some, List.foldl_append, List.foldl_cons, List.foldl_nil]
    -- either both have the book and change it alike, or the event is itself the book
    cases hread : s.state.books sub.symbol.key with
    | none =>
      rw [hread] at hb
      exact foldAt_of_none hb _
    | some before =>
      rw [hread] at hb
      rw [hold before hread]
      exact hb
  | @broadcast event session hheld hsession =>
    have hsame : pending { s with held := none, queue := s.queue ++ [event] } = s.pending := by
      simp only [pending, hheld, Option.toList_some, Option.toList_none, List.append_nil]
    intro session hsession sub hsub b hb
    rw [drained, hsame]
    exact hconv session hsession sub hsub b hb
  | @stream before event queue hbefore hqueue hwants =>
    intro session hsession sub hsub b hb
    have hold := hconv session hsession sub hsub b hb
    obtain rfl := Option.some.inj (hbefore.symm.trans hsession)
    -- the event goes from the queue to the socket, so all that is on the way stays the same
    rw [drained, pending, hqueue, List.cons_append, List.filter_cons_of_pos hwants] at hold
    rw [drained, pending, events_append, List.append_assoc]
    exact hold
  | @skip before event queue hbefore hqueue hwants =>
    intro session hsession sub hsub b hb
    have hold := hconv session hsession sub hsub b hb
    obtain rfl := Option.some.inj (hbefore.symm.trans hsession)
    -- nobody waits for the event, so it was not counted as on the way
    rw [drained, pending, hqueue, List.cons_append,
      List.filter_cons_of_neg (by simp [hwants])] at hold
    exact hold
  | @receive event wire hwire =>
    intro session hsession sub hsub b hb
    have hold := hconv session hsession sub hsub b hb
    rw [drained, hwire] at hold
    rw [drained, FeedState.apply_books]
    exact hold
  | @ignore msg wire hwire hmsg =>
    intro session hsession sub hsub b hb
    have hold := hconv session hsession sub hsub b hb
    rw [drained, hwire, events_reply hmsg] at hold
    exact hold
  -- a session that has just connected subscribes to nothing
  | connect =>
    intro session hsession sub hsub
    obtain rfl := Option.some.inj hsession
    cases hsub
  | unheard hheld hnone => exact fun session hsession => by cases hnone.symm.trans hsession
  | close => exact fun session hsession => by cases hsession
  | refused => exact fun session hsession => by cases hsession
  | disconnect => exact fun session hsession => by cases hsession
  | _ => exact hconv

/-! ### What a terminal that missed events can show -/

omit [Add D] in
/-- A book the read-model had, at some time, under a key. -/
def Had (folded : List (Event D)) (key : String) (b : OrderBook D) : Prop :=
  ∃ past, past <+: folded ∧ booksAfter past key = some b

/-- The pump folds no book event under an update id its symbol has used before. -/
def Fresh (s : Fanout D) : Move D → Prop
  | .fold => ∀ event channel, s.channel = event :: channel → ∀ id, event.bookId = some id →
      id ∉ s.folded.filterMap Event.bookId
  | _ => True

instance (s : Fanout D) : (move : Move D) → Decidable (Fresh s move)
  | .fold => decidable_of_iff (∀ event ∈ s.channel.head?, ∀ id ∈ event.bookId,
      id ∉ s.folded.filterMap Event.bookId) (by cases h : s.channel <;> simp [Fresh, h])
  | .venue _ | .broadcast | .connect | .client _ _ | .stream | .lag _ _ | .receive
  | .disconnect => .isTrue trivial

/-- What an event may carry when it reaches the terminal: a book the read-model had, or a change
it has folded. -/
def Known (folded : List (Event D)) (event : Event D) : Prop :=
  (∀ book symbol, event.payload = .market (.bookSnapshot book) → book.symbol = some symbol →
    Had folded symbol.key book) ∧
  ∀ delta, event.payload = .market (.bookDelta delta) → event ∈ folded

/-- An update id names one book of the read-model, and the terminal knows of no other. -/
structure Recalling (s : Fanout D) : Prop where
  unique : ∀ key b b', Had s.folded key b → Had s.folded key b' →
    b.lastUpdateId = b'.lastUpdateId → b = b'
  sent : ∀ event ∈ events s.wire, Known s.folded event
  feed : ∀ key b, s.feed.books key = some b → Had s.folded key b

omit [Add D] in
theorem Had.mono {folded later : List (Event D)} {key : String} {b : OrderBook D}
    (h : Had folded key b) : Had (folded ++ later) key b := by
  obtain ⟨past, hpast, hb⟩ := h
  exact ⟨past, hpast.trans (List.prefix_append _ _), hb⟩

omit [Add D] in
theorem Known.mono {folded later : List (Event D)} {event : Event D} (h : Known folded event) :
    Known (folded ++ later) event :=
  ⟨fun book symbol hevent hsymbol => (h.1 book symbol hevent hsymbol).mono,
    fun delta hevent => List.mem_append_left _ (h.2 delta hevent)⟩

omit [Add D] in
/-- The book after one more event is an old one, or carries the id of that event. -/
theorem had_concat {folded : List (Event D)} {event : Event D} {key : String} {b : OrderBook D}
    (h : Had (folded ++ [event]) key b) :
    Had folded key b ∨ event.bookId = some (key, b.lastUpdateId) ∧
      booksAfter (folded ++ [event]) key = some b := by
  obtain ⟨past, hpast, hb⟩ := h
  rcases List.prefix_concat_iff.mp hpast with rfl | hold
  · have hnow := hb
    rw [booksAfter_concat] at hb
    rcases foldAt_cases event key with ⟨-, hfold⟩ | ⟨book, symbol, hevent, hsymbol, rfl, hfold⟩ |
      ⟨delta, hevent, rfl, hfold⟩
    · rw [hfold] at hb
      exact .inl ⟨folded, List.prefix_rfl, hb⟩
    · rw [hfold] at hb
      obtain rfl := Option.some.inj hb
      exact .inr ⟨bookId_snapshot hevent hsymbol, hnow⟩
    · rw [hfold] at hb
      obtain ⟨before, hheld, hstep⟩ := Option.bind_eq_some_iff.mp hb
      split_ifs at hstep with hle hext
      · rw [Option.some.inj hstep] at hheld
        exact .inl ⟨folded, List.prefix_rfl, hheld⟩
      · obtain rfl := Option.some.inj hstep
        exact .inr ⟨bookId_delta hevent, hnow⟩
  · exact .inl ⟨past, hold, hb⟩

omit [Add D] in
/-- Every book the read-model had came under an id that was folded. -/
theorem Had.id_mem {folded : List (Event D)} {key : String} {b : OrderBook D}
    (h : Had folded key b) : (key, b.lastUpdateId) ∈ folded.filterMap Event.bookId := by
  induction folded using List.reverseRecOn with
  | nil =>
    obtain ⟨past, hpast, hb⟩ := h
    rw [List.prefix_nil.mp hpast] at hb
    cases hb
  | append_singleton folded event ih =>
    rw [List.filterMap_append]
    rcases had_concat h with hold | ⟨hid, -⟩
    · exact List.mem_append_left _ (ih hold)
    · refine List.mem_append_right _ (List.mem_filterMap.mpr ?_)
      exact ⟨event, List.mem_singleton_self event, hid⟩

omit [Add D] in
/-- While ids are fresh, an id names one book of the read-model. -/
theorem unique_concat {folded : List (Event D)} {event : Event D}
    (hunique : ∀ key b b', Had folded key b → Had folded key b' →
      b.lastUpdateId = b'.lastUpdateId → b = b')
    (hfresh : ∀ id, event.bookId = some id → id ∉ folded.filterMap Event.bookId)
    (key : String) (b b' : OrderBook D) (hb : Had (folded ++ [event]) key b)
    (hb' : Had (folded ++ [event]) key b') (hid : b.lastUpdateId = b'.lastUpdateId) : b = b' := by
  rcases had_concat hb with hold | ⟨hnew, hnow⟩ <;>
    rcases had_concat hb' with hold' | ⟨hnew', hnow'⟩
  · exact hunique key b b' hold hold' hid
  · exact absurd (hid ▸ hold.id_mem) (hfresh _ hnew')
  · exact absurd (hid ▸ hold'.id_mem) (hfresh _ hnew)
  · exact Option.some.inj (hnow.symm.trans hnow')

omit [Add D] in
/-- Whatever the pump has folded is known. -/
theorem known_of_mem {folded : List (Event D)} {event : Event D} (h : event ∈ folded) :
    Known folded event := by
  refine ⟨fun book symbol hevent hsymbol => ?_, fun _ _ => h⟩
  obtain ⟨past, later, rfl⟩ := List.append_of_mem h
  refine ⟨past ++ [event], ⟨later, by simp⟩, ?_⟩
  obtain ⟨ts, payload⟩ := event
  subst hevent
  rw [booksAfter, List.foldl_append]
  change foldBooks _ (Event.market ts (.bookSnapshot book)) _ = _
  rw [foldBooks_snapshot _ ts hsymbol, Function.update_self]

/-- Whatever a session hands over is known. -/
theorem Pumped.known_handOver (h : Pumped (.new bucketing capacity cooldownMs) s)
    (subs : List Subscription) (now : Timestamp) (event : Event D)
    (hevent : event ∈ handOver s.state subs now) : Known s.folded event := by
  rw [handOver, List.mem_append, List.mem_append] at hevent
  rcases hevent with (hmem | hmem) | hmem <;> obtain ⟨_, hserved, rfl⟩ := List.mem_map.mp hmem
  · simp [Known]
  · simp [Known]
  · refine ⟨fun book symbol hbook hsymbol => ?_, fun delta hdelta => by simp at hdelta⟩
    obtain rfl : _ = book := by simpa using hbook
    obtain ⟨-, sub, -, hheld⟩ := MarketState.mem_snapshotsFor.mp hserved
    rw [h.books_eq] at hheld
    obtain ⟨-, symbol', hsymbol', hkey⟩ := h.filed List.prefix_rfl hheld
    obtain rfl : symbol = symbol' := Option.some.inj (hsymbol.symm.trans hsymbol')
    exact ⟨s.folded, List.prefix_rfl, hkey ▸ hheld⟩

/-- A known event leads a terminal from a book of the past to none or to another. -/
theorem Recalling.receive (hrecall : Recalling s)
    (h : Pumped (.new bucketing capacity cooldownMs) s) {event : Event D}
    (hknown : Known s.folded event) (key : String) (b : OrderBook D)
    (hb : (s.feed.apply event).books key = some b) : Had s.folded key b := by
  rw [FeedState.apply_books, foldBooks_apply] at hb
  rcases foldAt_cases event key with ⟨-, hfold⟩ | ⟨book, symbol, hevent, hsymbol, rfl, hfold⟩ |
    ⟨delta, hevent, rfl, hfold⟩
  · rw [hfold] at hb
    exact hrecall.feed key b hb
  · rw [hfold] at hb
    obtain rfl := Option.some.inj hb
    exact hknown.1 book symbol hevent hsymbol
  · rw [hfold] at hb
    obtain ⟨before, hheld, hstep⟩ := Option.bind_eq_some_iff.mp hb
    have hbefore := hrecall.feed _ _ hheld
    split_ifs at hstep with hle hext
    · obtain rfl := Option.some.inj hstep
      exact hbefore
    · -- the read-model applied this change to a book of the same id, so to the same book
      obtain ⟨past, later, hsplit⟩ := List.append_of_mem (hknown.2 delta hevent)
      have hpast : past <+: s.folded := ⟨event :: later, hsplit.symm⟩
      obtain ⟨read, hread, hsynced, hextread⟩ := (h.chains hsplit).2 delta hevent
      obtain ⟨past', hpast', hb'⟩ := hbefore
      have hprev : delta.prevUpdateId = before.lastUpdateId := by
        have hjoin := hext.2
        rwa [if_pos (h.filed hpast' hb').1] at hjoin
      have hprevread : delta.prevUpdateId = read.lastUpdateId := by
        have hjoin := hextread.2
        rwa [if_pos hsynced] at hjoin
      obtain rfl : before = read :=
        hrecall.unique _ _ _ ⟨past', hpast', hb'⟩ ⟨past, hpast, hread⟩ (hprev ▸ hprevread)
      refine ⟨past ++ [event], ⟨later, by rw [hsplit, List.append_assoc]; rfl⟩, ?_⟩
      rw [booksAfter_concat, hread, hfold, Option.bind_some, if_neg hle, if_pos hext, hstep]

theorem Recalling.next (hrecall : Recalling s)
    (h : Pumped (.new bucketing capacity cooldownMs) s) (auth : Auth) {move : Move D}
    (hfresh : Fresh s move) : Recalling ((machine auth).next s move) := by
  refine next_of_steps fun after hsteps => ?_
  have hnothing : ∀ event ∈ events ([] : List (ServerMsg D)), Known s.folded event :=
    fun event hevent => absurd hevent List.not_mem_nil
  have hdropped : ∀ key b, s.feed.dropBooks.books key = some b → Had s.folded key b :=
    fun key b hb => by cases hb
  cases hsteps with
  | @fold event channel hheld hchannel =>
    refine ⟨unique_concat hrecall.unique (hfresh event channel hchannel), fun event hevent => ?_,
      fun key b hb => (hrecall.feed key b hb).mono⟩
    exact (hrecall.sent event hevent).mono
  | answer hsession hreceive hreply now =>
    refine ⟨hrecall.unique, fun event hevent => ?_, hrecall.feed⟩
    rw [events_append, events_reply hreply, events_map_event, List.mem_append] at hevent
    rcases hevent with hold | hnew
    · exact hrecall.sent event hold
    · exact h.known_handOver _ _ event hnew
  | close hsession hreply =>
    refine ⟨hrecall.unique, fun event hevent => ?_, hrecall.feed⟩
    rw [events_append, events_reply hreply, List.mem_append] at hevent
    exact hrecall.sent event (hevent.resolve_right List.not_mem_nil)
  | @stream session event queue hsession hqueue =>
    refine ⟨hrecall.unique, fun event' hevent => ?_, hrecall.feed⟩
    rw [events_append, List.mem_append] at hevent
    rcases hevent with hold | hnew
    · exact hrecall.sent event' hold
    · obtain rfl : event' = event := List.mem_singleton.mp hnew
      -- what is queued was folded before it was broadcast
      obtain ⟨gone, hpending⟩ := h.pending
      refine known_of_mem ?_
      rw [hpending, pending, hqueue]
      simp
  | lag hsession missed now =>
    refine ⟨hrecall.unique, fun event hevent => ?_, hrecall.feed⟩
    rw [events_append, List.mem_append] at hevent
    rcases hevent with hold | hnew
    · exact hrecall.sent event hold
    · obtain rfl : event = lagNotice missed now := List.mem_singleton.mp hnew
      simp [Known, lagNotice]
  | @receive event wire hwire =>
    have hsent := hrecall.sent
    rw [hwire] at hsent
    refine ⟨hrecall.unique, fun event' hevent => hsent event' (List.mem_cons_of_mem event hevent),
      hrecall.receive h (hsent event List.mem_cons_self)⟩
  | @ignore msg wire hwire hmsg =>
    have hsent := hrecall.sent
    rw [hwire, events_reply hmsg] at hsent
    exact ⟨hrecall.unique, hsent, hrecall.feed⟩
  | connect => exact ⟨hrecall.unique, hnothing, hdropped⟩
  | refused => exact ⟨hrecall.unique, hnothing, hdropped⟩
  | disconnect => exact ⟨hrecall.unique, hnothing, hdropped⟩
  | _ => exact ⟨hrecall.unique, hrecall.sent, hrecall.feed⟩

/-! ### Runs -/

omit [Add D] in
theorem recalling_start (bucketing : Bucketing) (capacity : ℕ) (cooldownMs : ℤ) :
    Recalling (start bucketing capacity cooldownMs : Fanout D) where
  unique := fun key b b' ⟨past, hpast, hb⟩ => by
    rw [List.prefix_nil.mp hpast] at hb
    cases hb
  sent := fun event hevent => absurd hevent List.not_mem_nil
  feed := fun key b hb => by cases hb

/-- From a message of the terminal on, and until a lag, a session converges. -/
theorem converging_run (auth : Auth) (bucketing : Bucketing) (capacity : ℕ) (cooldownMs : ℤ)
    (before : List (Move D)) (msg : Except String ClientMsg) (now : Timestamp)
    {rest : List (Move D)} (hrest : ∀ move ∈ rest, move.isLag = false) :
    Converging ((machine auth).run (start bucketing capacity cooldownMs)
      (before ++ .client msg now :: rest)) := by
  have hpumped := pumped_run auth bucketing capacity cooldownMs before
  rw [Machine.run_append, Machine.run_cons]
  have hnext : ∀ (s : Fanout D) (move : Move D), move.isLag = false →
      (Pumped (.new bucketing capacity cooldownMs) s ∧ Converging s) →
      Pumped (.new bucketing capacity cooldownMs) ((machine auth).next s move) ∧
        Converging ((machine auth).next s move) :=
    fun s move hmove hs => ⟨hs.1.next auth move, hs.2.next hs.1 auth hmove⟩
  have halong : ∀ s, (machine auth).Along (fun _ move => move.isLag = false) s rest :=
    Machine.along_of_forall_mem hrest
  exact ((halong _).run_invariant hnext
    ⟨hpumped.next auth _, hpumped.converging_client auth msg now⟩).2

/-- While ids are fresh, what the terminal shows is of the past. -/
theorem recalling_run (auth : Auth) {bucketing : Bucketing} {capacity : ℕ} {cooldownMs : ℤ}
    {moves : List (Move D)}
    (hfresh : (machine auth).Along Fresh (start bucketing capacity cooldownMs) moves) :
    Recalling ((machine auth).run (start bucketing capacity cooldownMs) moves) := by
  have hnext : ∀ (s : Fanout D) (move : Move D), Fresh s move →
      (Pumped (.new bucketing capacity cooldownMs) s ∧ Recalling s) →
      Pumped (.new bucketing capacity cooldownMs) ((machine auth).next s move) ∧
        Recalling ((machine auth).next s move) :=
    fun s move hmove hs => ⟨hs.1.next auth move, hs.2.next hs.1 auth hmove⟩
  exact (hfresh.run_invariant hnext ⟨pumped_start bucketing capacity cooldownMs,
    recalling_start bucketing capacity cooldownMs⟩).2

/-- **A late subscriber converges, and recalls.** From a hand-over on, and until a lag, a terminal
that has drained everything on the way has the read-model's book for each subscribed symbol of
which the read-model has a synced one, whatever was in the queue. With lags anywhere, at every
moment each book of the terminal is one the read-model had, provided no update id of a symbol is
published twice. -/
theorem late_subscriber_recalls (auth : Auth) (bucketing : Bucketing) (capacity : ℕ)
    (cooldownMs : ℤ) (moves : List (Move D)) :
    (∀ before msg now rest, moves = before ++ .client msg now :: rest →
      (∀ move ∈ rest, move.isLag = false) →
      let s := (machine auth).run (start bucketing capacity cooldownMs) moves
      s.wire = [] → s.queue = [] → s.held = none →
      ∀ session, s.session = some session → ∀ sub ∈ session.subscriptions, ∀ b,
        s.state.books sub.symbol.key = some b → b.synced = true →
          s.feed.books sub.symbol.key = some b) ∧
    ((machine auth).Along Fresh (start bucketing capacity cooldownMs) moves →
      ∀ k, let s := (machine auth).run (start bucketing capacity cooldownMs) (moves.take k)
        s.state = s.folded.foldl MarketState.apply .new ∧
        ∀ key b, s.feed.books key = some b →
          ∃ past, past <+: s.folded ∧
            (past.foldl MarketState.apply .new).books key = some b) := by
  constructor
  · rintro before msg now rest rfl hrest s hwire hqueue hheld session hsession sub hsub b hb -
    have hdrained := converging_run auth bucketing capacity cooldownMs before msg now hrest
      session hsession sub hsub b hb
    rw [drained, hwire, pending, hqueue, hheld] at hdrained
    exact hdrained
  · intro hfresh k
    refine ⟨(pumped_run auth bucketing capacity cooldownMs _).state_eq, fun key b hb => ?_⟩
    obtain ⟨past, hpast, hhad⟩ := (recalling_run auth (hfresh.take k)).feed key b hb
    exact ⟨past, hpast, by rw [books_foldl_apply, hhad]⟩

/-- A terminal that loses a change to a lag, and gets the next one. -/
private def lagged : List (Move ℤ) :=
  [.venue (.delta ⟨btcusdt, 0, 10, [⟨100, 2⟩], [], 5⟩ 5),
    .venue (.fetched ⟨some btcusdt, [⟨100, 1⟩], [⟨101, 1⟩], 5, 4, false⟩ 6),
    .fold, .broadcast, .fold, .broadcast, .connect, .client (.ok (.hello 2 "t")) 7,
    .client (.ok (.subscribe [.book btcusdt])) 8, .receive, .receive, .receive,
    .venue (.delta ⟨btcusdt, 10, 20, [⟨99, 1⟩], [], 12⟩ 12), .fold, .broadcast,
    .venue (.delta ⟨btcusdt, 20, 30, [⟨98, 1⟩], [], 14⟩ 14), .fold, .broadcast,
    .lag 1 15, .receive]

/-- The book it had before is one the read-model had, though not the one it has. -/
theorem late_subscriber_recalls_lagged :
    let s := (machine ⟨"t"⟩).run (start (.ticks 25) 1200 1000) lagged
    let shown : OrderBook ℤ := ⟨some btcusdt, [⟨100, 2⟩], [⟨101, 1⟩], 10, 5, true⟩
    s.feed.books btcusdt.key = some shown ∧ s.state.books btcusdt.key ≠ some shown ∧
      ∃ past, past <+: s.folded ∧
        (past.foldl MarketState.apply .new).books btcusdt.key = some shown := by
  intro s shown
  have hfresh : (machine ⟨"t"⟩).Along Fresh (start (.ticks 25) 1200 1000) lagged := by
    decide +kernel
  have hshown : s.feed.books btcusdt.key = some shown := by decide +kernel
  have hmoved : s.state.books btcusdt.key ≠ some shown := by decide +kernel
  have hrecalls :=
    (late_subscriber_recalls ⟨"t"⟩ (.ticks 25) 1200 1000 lagged).2 hfresh lagged.length
  rw [List.take_length] at hrecalls
  exact ⟨hshown, hmoved, hrecalls.2 btcusdt.key shown hshown⟩

/-- The venue's ids start over after a reconnect, and the lag drops the book that says so. -/
private def reusedIds : List (Move ℤ) :=
  [.venue (.delta ⟨btcusdt, 0, 10, [⟨100, 2⟩], [], 5⟩ 5),
    .venue (.fetched ⟨some btcusdt, [⟨100, 1⟩], [⟨101, 1⟩], 5, 4, false⟩ 6),
    .fold, .broadcast, .fold, .broadcast, .connect, .client (.ok (.hello 2 "t")) 7,
    .client (.ok (.subscribe [.book btcusdt])) 8, .receive, .receive, .receive,
    .venue (.disconnected "reset" 9),
    .venue (.delta ⟨btcusdt, 0, 10, [⟨100, 7⟩], [], 10⟩ 10),
    .venue (.fetched ⟨some btcusdt, [⟨100, 6⟩], [⟨101, 1⟩], 5, 9, false⟩ 11),
    .venue (.delta ⟨btcusdt, 10, 20, [⟨99, 1⟩], [], 12⟩ 12),
    .fold, .broadcast, .fold, .broadcast, .fold, .broadcast, .fold, .broadcast,
    .lag 3 13, .stream, .receive, .receive]

/-- The terminal shows the new change on top of the old book of the same id, which is no book
the read-model ever had. -/
theorem not_late_subscriber_recalls_reusedIds :
    let s := (machine ⟨"t"⟩).run (start (.ticks 25) 1200 1000) reusedIds
    ¬ ∀ key b, s.feed.books key = some b → ∃ past, past <+: s.folded ∧
      (past.foldl MarketState.apply .new).books key = some b := by
  intro s h
  let shown : OrderBook ℤ := ⟨some btcusdt, [⟨100, 2⟩, ⟨99, 1⟩], [⟨101, 1⟩], 20, 12, true⟩
  have hshown : s.feed.books btcusdt.key = some shown := by decide +kernel
  obtain ⟨past, hpast, hhad⟩ := h btcusdt.key shown hshown
  have hnever : ∀ n ≤ s.folded.length,
      ((s.folded.take n).foldl MarketState.apply .new).books btcusdt.key ≠ some shown := by
    decide +kernel
  rw [List.prefix_iff_eq_take.mp hpast] at hhad
  exact hnever past.length hpast.length_le hhad

end Fanout

end MoonCore
