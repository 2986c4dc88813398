import Mathlib.Data.Int.Order.Basic
import MoonCore.Domain.Order
import MoonCore.Storage.Store

/-!
# Recording an order before it exists anywhere else

`storage::orders`. An `OrderCall` is one call of `record_intent`, `record_update` or
`record_never_placed`; `OrderCall.exec` is what its statement does to the `orders` table, and
`Orders.machine` runs one call after another, which is what the store makes durable
(`Store.committed_eq_run`).

The guard of the domain's lifecycle rule is in none of the statements. `Orders.Forward` says
when a call does not need it, and `Orders.status_forward_iff` that the stored statuses move
forward over a run exactly when every call of it is of that kind.
-/

namespace MoonCore

variable {D : Type*}

/-! ### Names on disk -/

/-- The status an order is stored under before anything is sent to the venue. -/
def PENDING : String := "pending"

/-- Lowercase names matching the `status` values of the schema and the reconciliation query. -/
def statusOf : OrderStatus → String
  | .pending => PENDING
  | .new => "new"
  | .partiallyFilled => "partially_filled"
  | .filled => "filled"
  | .canceled => "canceled"
  | .rejected => "rejected"
  | .expired => "expired"

/-- How a side is stored. -/
def sideOf : Side → String
  | .buy => "buy"
  | .sell => "sell"

/-- The name of the variant, lowercased. -/
def orderTypeOf : OrderType → String
  | .limit => "limit"
  | .market => "market"
  | .stopMarket => "stopmarket"
  | .stopLimit => "stoplimit"
  | .takeProfitMarket => "takeprofitmarket"
  | .takeProfitLimit => "takeprofitlimit"

theorem statusOf_injective : Function.Injective statusOf := by
  intro s t h
  cases s <;> cases t <;> first | rfl | exact absurd h (by decide)

/-! ### The table -/

/-- A row of `orders`. Decimals are on disk as their exact text. -/
structure OrderRow (D : Type*) where
  clientId : String
  dealId : Option ℤ
  venueId : Option String
  coreUid : ℤ
  exchange : String
  market : String
  symbol : String
  side : String
  orderType : String
  status : String
  qty : D
  filledQty : D
  price : Option D
  triggerPrice : Option D
  avgPrice : D
  reduceOnly : Bool
  createdAt : ℤ
  updatedAt : ℤ
  rev : ℤ

/-- The `orders` table, in the order of insertion. -/
abbrev Orders (D : Type*) := List (OrderRow D)

/-- Why a statement on `orders` is refused. -/
inductive Constraint where
  /-- "UNIQUE constraint failed: orders.client_id" -/
  | primaryKey
  /-- "CHECK constraint failed: side IN ('buy','sell')" -/
  | side
  deriving DecidableEq

/-- One call of a recording function. -/
inductive OrderCall (D : Type*) where
  | recordIntent (order : NewOrder D) (coreUid : ℤ) (nowMs : ℤ)
  | recordUpdate (order : Order D) (nowMs : ℤ)
  | recordNeverPlaced (clientId : String) (nowMs : ℤ)

namespace Orders

/-- `INSERT INTO orders`. -/
def insert (row : OrderRow D) (table : Orders D) : Except Constraint (Orders D) :=
  if table.any fun stored => stored.clientId = row.clientId then .error .primaryKey
  else if row.side ∈ ["buy", "sell"] then .ok (table ++ [row])
  else .error .side

/-- `UPDATE orders SET … WHERE …`. -/
def update (set : OrderRow D → OrderRow D) (hit : OrderRow D → Prop) [DecidablePred hit]
    (table : Orders D) : Orders D :=
  table.map fun row => if hit row then set row else row

/-- The status stored for an order. -/
def status (table : Orders D) (clientId : String) : Option String :=
  (table.find? fun row => row.clientId = clientId).map OrderRow.status

end Orders

/-- The row of an order nobody has heard of yet. -/
def NewOrder.row [Zero D] (order : NewOrder D) (coreUid nowMs : ℤ) : OrderRow D where
  clientId := order.clientId
  dealId := none
  venueId := none
  coreUid := coreUid
  exchange := order.symbol.exchange.asStr
  market := order.symbol.market.asStr
  symbol := order.symbol.raw
  side := sideOf order.side
  orderType := orderTypeOf order.orderType
  status := PENDING
  qty := order.qty
  filledQty := 0
  price := order.price
  triggerPrice := order.triggerPrice
  avgPrice := 0
  reduceOnly := order.reduceOnly
  createdAt := nowMs
  updatedAt := nowMs
  rev := 0

/-- `SET status, venue_id, filled_qty, avg_price, updated_at, rev = rev + 1` -/
def OrderRow.report (order : Order D) (nowMs : ℤ) (row : OrderRow D) : OrderRow D :=
  { row with
    status := statusOf order.status
    venueId := order.venueId
    filledQty := order.filledQty
    avgPrice := order.avgPrice
    updatedAt := nowMs
    rev := row.rev + 1 }

/-- `SET status = 'rejected', updated_at, rev = rev + 1` -/
def OrderRow.reject (nowMs : ℤ) (row : OrderRow D) : OrderRow D :=
  { row with status := "rejected", updatedAt := nowMs, rev := row.rev + 1 }

@[simp]
theorem OrderRow.report_clientId (order : Order D) (nowMs : ℤ) (row : OrderRow D) :
    (row.report order nowMs).clientId = row.clientId := rfl

@[simp]
theorem OrderRow.reject_clientId (nowMs : ℤ) (row : OrderRow D) :
    (row.reject nowMs).clientId = row.clientId := rfl

/-- What the statement of a call does to the table. -/
def OrderCall.exec [Zero D] : OrderCall D → Orders D → Except Constraint (Orders D)
  | .recordIntent order coreUid nowMs, table => table.insert (order.row coreUid nowMs)
  | .recordUpdate order nowMs, table =>
    .ok (table.update (.report order nowMs) fun row => row.clientId = order.clientId)
  | .recordNeverPlaced clientId nowMs, table =>
    .ok (table.update (.reject nowMs) fun row =>
      row.clientId = clientId ∧ row.status = "pending")

namespace Orders

/-- One call: the statement commits, or it is refused and the table is as it was. -/
def step [Zero D] (table : Orders D) (call : OrderCall D) :
    Orders D × Except Constraint Unit :=
  match call.exec table with
  | .ok table => (table, .ok ())
  | .error e => (table, .error e)

/-- The table, stepping on the calls of the recording functions. -/
def machine [Zero D] : Machine (Orders D) (OrderCall D) (Except Constraint Unit) := ⟨step⟩

/-! ### What a call does to the stored statuses -/

theorem status_append (table : Orders D) (row : OrderRow D) (clientId : String) :
    status (table ++ [row]) clientId =
      (table.status clientId).or (if row.clientId = clientId then some row.status else none) := by
  rw [status, status, List.find?_append, Option.map_or]
  congr 1
  by_cases h : row.clientId = clientId <;> simp [h]

/-- An update leaves every client id where it is, so an order's status changes with the row
found under its id. -/
theorem status_update (table : Orders D) {set : OrderRow D → OrderRow D}
    (hset : ∀ row, (set row).clientId = row.clientId)
    (hit : OrderRow D → Prop) [DecidablePred hit] (clientId : String) :
    (table.update set hit).status clientId =
      (table.find? fun row => row.clientId = clientId).map fun row =>
        if hit row then (set row).status else row.status := by
  rw [status, update, List.find?_map, Option.map_map]
  have hsame : ((fun row : OrderRow D => decide (row.clientId = clientId)) ∘ fun row =>
      if hit row then set row else row) = fun row => decide (row.clientId = clientId) := by
    funext row
    by_cases h : hit row <;> simp [h, hset]
  rw [hsame]
  congr 1
  funext row
  by_cases h : hit row <;> simp [h]

/-- Whether the primary key is taken. -/
theorem any_clientId_iff (table : Orders D) (clientId : String) :
    (table.any fun stored => stored.clientId = clientId) ↔ table.status clientId ≠ none := by
  rw [status, Ne, Option.map_eq_none_iff, List.find?_eq_none]
  simp

variable [Zero D]

/-- An intent is a new row, unless the client id is taken. -/
theorem next_recordIntent (table : Orders D) (order : NewOrder D) (coreUid nowMs : ℤ) :
    machine.next table (.recordIntent order coreUid nowMs) =
      if table.any fun stored => stored.clientId = order.clientId then table
      else table ++ [order.row coreUid nowMs] := by
  have hside : (order.row coreUid nowMs).side ∈ ["buy", "sell"] := by
    simp only [NewOrder.row]
    cases order.side <;> simp [sideOf]
  have hid : (order.row coreUid nowMs).clientId = order.clientId := rfl
  change (table.step (.recordIntent order coreUid nowMs)).1 = _
  simp only [step, OrderCall.exec, insert, hid, if_pos hside]
  split_ifs <;> rfl

/-- A new order is pending; an order already stored keeps its row. -/
theorem status_next_recordIntent (table : Orders D) (order : NewOrder D) (coreUid nowMs : ℤ)
    (clientId : String) :
    (machine.next table (.recordIntent order coreUid nowMs)).status clientId =
      (table.status clientId).or (if order.clientId = clientId then some PENDING else none) := by
  rw [next_recordIntent]
  by_cases htaken : table.any fun stored => stored.clientId = order.clientId
  · rw [if_pos htaken]
    have hstored := (any_clientId_iff table order.clientId).mp htaken
    by_cases hid : order.clientId = clientId
    · rw [hid] at hstored
      obtain ⟨text, htext⟩ := Option.ne_none_iff_exists'.mp hstored
      simp [htext]
    · simp [hid]
  · rw [if_neg htaken]
    exact status_append table (order.row coreUid nowMs) clientId

/-- An update overwrites the status of the order it names. -/
theorem status_next_recordUpdate (table : Orders D) (order : Order D) (nowMs : ℤ)
    (clientId : String) :
    (machine.next table (.recordUpdate order nowMs)).status clientId =
      if order.clientId = clientId then (table.status clientId).map fun _ => statusOf order.status
      else table.status clientId := by
  refine (status_update table (OrderRow.report_clientId order nowMs) _ clientId).trans ?_
  rw [status]
  cases hfind : table.find? fun row => row.clientId = clientId with
  | none => simp
  | some row =>
    have hid : row.clientId = clientId := by simpa using List.find?_some hfind
    by_cases h : order.clientId = clientId
    · simp [hid, h, OrderRow.report]
    · simp [hid, h, Ne.symm h]

/-- The resolution rejects the order it names where it is still pending. -/
theorem status_next_recordNeverPlaced (table : Orders D) (other : String) (nowMs : ℤ)
    (clientId : String) :
    (machine.next table (.recordNeverPlaced other nowMs)).status clientId =
      if other = clientId ∧ table.status clientId = some PENDING then some (statusOf .rejected)
      else table.status clientId := by
  refine (status_update table (OrderRow.reject_clientId nowMs) _ clientId).trans ?_
  rw [status]
  cases hfind : table.find? fun row => row.clientId = clientId with
  | none => simp
  | some row =>
    have hid : row.clientId = clientId := by simpa using List.find?_some hfind
    by_cases h : other = clientId ∧ row.status = PENDING
    · simp [hid, h.1, h.2, statusOf, PENDING, OrderRow.reject]
    · have hmiss : ¬ (row.clientId = other ∧ row.status = "pending") := fun hhit =>
        h ⟨hhit.1.symm.trans hid, hhit.2⟩
      simp [h, hmiss]

/-- A stored order stays stored, under the name of some status. -/
theorem exists_status_next {table : Orders D} {clientId : String} {s : OrderStatus}
    (h : table.status clientId = some (statusOf s)) (call : OrderCall D) :
    ∃ t, (machine.next table call).status clientId = some (statusOf t) := by
  cases call with
  | recordIntent order coreUid nowMs =>
    rw [status_next_recordIntent, h]
    exact ⟨s, rfl⟩
  | recordUpdate order nowMs =>
    rw [status_next_recordUpdate, h]
    split_ifs
    · exact ⟨order.status, rfl⟩
    · exact ⟨s, rfl⟩
  | recordNeverPlaced other nowMs =>
    rw [status_next_recordNeverPlaced, h]
    split_ifs
    · exact ⟨.rejected, rfl⟩
    · exact ⟨s, rfl⟩

theorem exists_status_run {table : Orders D} {clientId : String} {s : OrderStatus}
    (h : table.status clientId = some (statusOf s)) (calls : List (OrderCall D)) :
    ∃ t, (machine.run table calls).status clientId = some (statusOf t) := by
  induction calls generalizing table s with
  | nil => exact ⟨s, h⟩
  | cons call calls ih =>
    obtain ⟨t, ht⟩ := exists_status_next h call
    exact ih ht

/-! ### Moving forward -/

/-- Each order stored in both tables has kept its status or advanced from it, and one stored in
a terminal status has kept it. -/
structure MovesForward (before after : Orders D) : Prop where
  advance : ∀ clientId s t, before.status clientId = some (statusOf s) →
    after.status clientId = some (statusOf t) → s ≠ t → s.canAdvanceTo t
  terminal : ∀ clientId s, before.status clientId = some (statusOf s) → s.isTerminal →
    after.status clientId = some (statusOf s)

/-- An update repeats the status it finds stored, or outranks it. -/
def Forward (table : Orders D) : OrderCall D → Prop
  | .recordUpdate order _ => ∀ s, table.status order.clientId = some (statusOf s) →
      s = order.status ∨ s.rank < order.status.rank
  | _ => True

/-- Over a run it is enough that no stored status sinks. -/
theorem movesForward_run {table : Orders D} {calls : List (OrderCall D)}
    (h : ∀ clientId s t, table.status clientId = some (statusOf s) →
      (machine.run table calls).status clientId = some (statusOf t) → s = t ∨ s.rank < t.rank) :
    MovesForward table (machine.run table calls) := by
  have hadvance : ∀ clientId s t, table.status clientId = some (statusOf s) →
      (machine.run table calls).status clientId = some (statusOf t) → s ≠ t →
        s.canAdvanceTo t := by
    intro clientId s t hs ht hne
    rw [OrderStatus.canAdvanceTo_iff_rank_lt hne]
    exact (h clientId s t hs ht).resolve_left hne
  refine ⟨hadvance, fun clientId s hs hterminal => ?_⟩
  obtain ⟨t, ht⟩ := exists_status_run hs calls
  by_cases hst : s = t
  · rw [ht, hst]
  · have hadv := hadvance clientId s t hs ht hst
    rw [OrderStatus.canAdvanceTo, if_pos hterminal] at hadv
    cases hadv

/-- A call that does not need the guard leaves no stored status lower than it was. -/
theorem Forward.next {table : Orders D} {call : OrderCall D} (h : Forward table call)
    {clientId : String} {s t : OrderStatus} (hs : table.status clientId = some (statusOf s))
    (ht : (machine.next table call).status clientId = some (statusOf t)) :
    s = t ∨ s.rank < t.rank := by
  have hsame (hkept : some (statusOf s) = some (statusOf t)) : s = t ∨ s.rank < t.rank :=
    .inl (statusOf_injective (Option.some.inj hkept))
  cases call with
  | recordIntent order coreUid nowMs =>
    rw [status_next_recordIntent, hs] at ht
    exact hsame ht
  | recordUpdate order nowMs =>
    rw [status_next_recordUpdate, hs] at ht
    split_ifs at ht with hid
    · have htold : order.status = t := statusOf_injective (Option.some.inj ht)
      subst hid htold
      exact h s hs
    · exact hsame ht
  | recordNeverPlaced other nowMs =>
    rw [status_next_recordNeverPlaced, hs] at ht
    split_ifs at ht with hpending
    · -- only a pending order is rejected
      have hs' : s = .pending := statusOf_injective (Option.some.inj hpending.2)
      have ht' : OrderStatus.rejected = t := statusOf_injective (Option.some.inj ht)
      subst hs' ht'
      exact .inr (by decide)
    · exact hsame ht

/-- A call that moves forward did not need the guard. -/
theorem forward_of_movesForward {table : Orders D} {call : OrderCall D}
    (h : MovesForward table (machine.next table call)) : Forward table call := by
  cases call with
  | recordUpdate order nowMs =>
    intro s hs
    have ht : (machine.next table (.recordUpdate order nowMs)).status order.clientId =
        some (statusOf order.status) := by
      rw [status_next_recordUpdate, if_pos rfl, hs]
      rfl
    by_cases hne : s = order.status
    · exact .inl hne
    · exact .inr ((OrderStatus.canAdvanceTo_iff_rank_lt hne).mp (h.advance _ s _ hs ht hne))
  | _ => trivial

/-- Along calls that do not need the guard no stored status sinks. -/
theorem rank_le_of_along {table : Orders D} {calls : List (OrderCall D)}
    (h : machine.Along Forward table calls) {clientId : String} {s t : OrderStatus}
    (hs : table.status clientId = some (statusOf s))
    (ht : (machine.run table calls).status clientId = some (statusOf t)) :
    s = t ∨ s.rank < t.rank := by
  induction calls generalizing table s with
  | nil =>
    rw [Machine.run_nil, hs] at ht
    exact .inl (statusOf_injective (Option.some.inj ht))
  | cons call calls ih =>
    obtain ⟨m, hm⟩ := exists_status_next hs call
    rcases Forward.next h.1 hs hm with rfl | hlt
    · exact ih h.2 hm ht
    · rcases ih h.2 hm ht with rfl | hlt'
      · exact .inr hlt
      · exact .inr (hlt.trans hlt')

/-- **The stored status moves forward exactly when no update needs the guard.** For every
sequence of calls on a fresh table: between any two moments of the run every stored order has
kept its status or advanced from it, and every terminal one has kept it, if and only if each
`record_update` repeats the status it finds stored or outranks it. -/
theorem status_forward_iff (calls : List (OrderCall D)) :
    (∀ i j, i ≤ j → MovesForward (machine.run [] (calls.take i)) (machine.run [] (calls.take j))) ↔
      machine.Along Forward [] calls := by
  constructor
  · exact fun h => (Machine.along_next_of_forall_take h).mono fun _ _ => forward_of_movesForward
  · refine fun h => h.forall_take fun {table calls} hcalls => ?_
    exact movesForward_run fun _ _ _ => rank_le_of_along hcalls

/-- Calls none of which is refused, one after the other. -/
theorem run_of_foldlM {calls : List (OrderCall D)} {table after : Orders D}
    (h : calls.foldlM (fun table call => call.exec table) table = .ok after) :
    after = machine.run table calls := by
  induction calls generalizing table with
  | nil => exact (Except.ok.inj h).symm
  | cons call calls ih =>
    obtain ⟨mid, hexec, hrest⟩ := foldlM_cons_eq_ok.mp h
    have hnext : machine.next table call = mid := by
      change (step table call).1 = mid
      rw [step, hexec]
    rw [Machine.run_cons, hnext]
    exact ih hrest

/-! ### A fill that is reported open again -/

/-- An order for the fixed run. -/
def limitBuy : NewOrder ℤ :=
  ⟨"c-1", btcusdt, .buy, .limit, 1, some 63096, none, .gtc, .long, false⟩

/-- What the venue reports about it. -/
def reported (status : OrderStatus) (filledQty : ℤ) : Order ℤ :=
  ⟨"c-1", some "v-1", btcusdt, .buy, .limit, status, 1, filledQty, some 63096, none, 63096, .gtc,
    .long, false, 0, 1⟩

/-- The fill, and then a `New` that was delayed on the way. -/
def lateNew : List (OrderCall ℤ) :=
  [.recordIntent limitBuy 0 0, .recordUpdate (reported .filled 1) 1,
    .recordUpdate (reported .new 0) 2]

/-- The filled order is open again. -/
theorem not_status_forward_lateNew :
    ¬ ∀ i j, i ≤ j →
      MovesForward (machine.run [] (lateNew.take i)) (machine.run [] (lateNew.take j)) := by
  intro h
  have hkept := (h 2 3 (by decide)).terminal "c-1" .filled (by decide +kernel) rfl
  exact absurd hkept (by decide +kernel)

end Orders

/-! ### What the store makes durable -/

section

variable [Zero D]

/-- The store whose jobs are recording calls. The table it has made durable is the one the
confirmed calls lead to, one after the other. -/
theorem Store.committed_eq_run (db : Orders D) (calls : List (Call (OrderCall D) Constraint)) :
    let store := (machine OrderCall.exec).run (start db) calls
    store.connection.committed =
      Orders.machine.run db ((confirmed store.settled).flatMap Job.writes) := by
  intro store
  have h : SerialLog OrderCall.exec db store := (SerialLog.start OrderCall.exec db).run calls
  have hcommitted := h.committed
  rw [serially] at hcommitted
  exact Orders.run_of_foldlM hcommitted

end

end MoonCore
