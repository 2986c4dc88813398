import MoonCore.ForMathlib.KeyedTable
import MoonCore.Storage.Orders

/-!
# What the tables promise

The rows of `moon.sqlite` and the statements that write them: those of `storage::schema::sql`, the
updates of `storage::orders` and the deletes of `storage::retention`. The constraints of the tables
are in `Statement.exec`, where SQLite has them, and a `Database` that is `Sound` meets them all.

`Statement.Effect` lists all a statement can do that is not refused. Each of it keeps a database
sound (`Database.Sound.effect`) and takes nothing back (`Database.Keeps.effect`).
-/

namespace MoonCore

variable {D : Type*}

/-! ### Rows -/

/-- A row of `deals`. Money is text. -/
structure DealRow where
  dealId : ℤ
  coreUid : ℤ
  exchange : String
  market : String
  symbol : String
  side : String
  phase : String
  qty : String
  entryPrice : Option String
  exitPrice : Option String
  realized : Option String
  fee : String
  closeReason : Option String
  openedAt : ℤ
  closedAt : Option ℤ
  deriving DecidableEq

/-- The checks of the table. -/
def DealRow.Checked (row : DealRow) : Prop :=
  row.side ∈ ["buy", "sell"] ∧ (row.phase ≠ "closed" ∨ row.closedAt ≠ none) ∧
    (row.phase ≠ "closed" ∨ row.realized ≠ none)

instance : DecidablePred DealRow.Checked := fun row =>
  inferInstanceAs (Decidable (row.side ∈ ["buy", "sell"] ∧ _ ∧ _))

/-- A row of `fills`. -/
structure FillRow where
  tradeId : String
  clientId : String
  symbol : String
  side : String
  price : String
  qty : String
  fee : String
  feeAsset : String
  isMaker : Bool
  ts : ℤ
  deriving DecidableEq

/-- `PRIMARY KEY (client_id, trade_id)` -/
def FillRow.key (row : FillRow) : String × String := (row.clientId, row.tradeId)

/-- `CHECK (side IN ('buy','sell'))` -/
def FillRow.Checked (row : FillRow) : Prop := row.side ∈ ["buy", "sell"]

instance : DecidablePred FillRow.Checked := fun row =>
  inferInstanceAs (Decidable (row.side ∈ ["buy", "sell"]))

/-- A row of `candles`. -/
structure BarRow where
  exchange : String
  market : String
  symbol : String
  tfMs : ℤ
  openTime : ℤ
  opened : String
  high : String
  low : String
  close : String
  volume : String
  trades : ℤ
  deriving DecidableEq

/-- `PRIMARY KEY (exchange, market, symbol, tf_ms, open_time)` -/
def BarRow.key (row : BarRow) : String × String × String × ℤ × ℤ :=
  (row.exchange, row.market, row.symbol, row.tfMs, row.openTime)

/-- `DO UPDATE SET high=excluded.high, …`, which leaves `open` as it was first written. -/
def BarRow.rewrite (stored row : BarRow) : BarRow :=
  { stored with
    high := row.high
    low := row.low
    close := row.close
    volume := row.volume
    trades := row.trades }

@[simp]
theorem BarRow.key_rewrite (stored row : BarRow) : (stored.rewrite row).key = stored.key := rfl

/-- What is bound to an insert into `audit`. -/
structure AuditEntry where
  atMs : ℤ
  sessionId : ℤ
  deviceId : String
  peer : String
  role : String
  req : ℤ
  command : String
  body : List UInt8
  outcome : String
  detail : Option String

/-! ### Statements -/

/-- The tables, each in the order of insertion. -/
structure Database (D : Type*) where
  deals : List DealRow
  orders : Orders D
  fills : List FillRow
  candles : List BarRow
  /-- Entries, each under its `rec_id`. -/
  audit : List (ℕ × AuditEntry)
  /-- The last `rec_id` given out, which AUTOINCREMENT remembers. -/
  lastRecId : ℕ

/-- The tables of a file just migrated. -/
def Database.empty : Database D := ⟨[], [], [], [], [], 0⟩

/-- Why a statement is refused. -/
inductive Violation where
  | unique
  | check
  | foreignKey
  deriving DecidableEq

/-- What SQLite says of a row that breaks the constraint. -/
def Constraint.violation : Constraint → Violation
  | .primaryKey => .unique
  | .side => .check

/-- A statement, with the values bound to it. -/
inductive Statement (D : Type*) where
  | insertDeal (row : DealRow)
  | insertOrder (row : OrderRow D)
  /-- The statement of a recording call. -/
  | record (call : OrderCall D)
  | insertFill (row : FillRow)
  | upsertCandle (row : BarRow)
  | insertAudit (entry : AuditEntry)
  /-- One batch of a sweep, on whatever rows it picks. -/
  | deleteCandles (doomed : BarRow → Bool)
  | deleteAudit (doomed : ℕ × AuditEntry → Bool)

namespace Database

/-- The deal an order belongs to is there, if it belongs to one. -/
def HasDeal (db : Database D) (dealId : Option ℤ) : Prop :=
  ∀ id ∈ dealId, id ∈ db.deals.map DealRow.dealId

/-- The order a fill belongs to is there. -/
def HasOrder (db : Database D) (clientId : String) : Prop :=
  clientId ∈ db.orders.map OrderRow.clientId

instance (db : Database D) (dealId : Option ℤ) : Decidable (db.HasDeal dealId) :=
  inferInstanceAs (Decidable (∀ id ∈ dealId, _))

instance (db : Database D) (clientId : String) : Decidable (db.HasOrder clientId) :=
  inferInstanceAs (Decidable (clientId ∈ _))

end Database

/-- An update of an order leaves alone what constraints are about. -/
structure OrderRow.SameKeys (before after : OrderRow D) : Prop where
  clientId : after.clientId = before.clientId
  dealId : after.dealId = before.dealId
  side : after.side = before.side

/-! ### Constraints -/

/-- The constraints of the tables, all of them. -/
structure Database.Sound (db : Database D) : Prop where
  deals_unique : (db.deals.map DealRow.dealId).Nodup
  deals_checked : ∀ row ∈ db.deals, row.Checked
  orders_unique : (db.orders.map OrderRow.clientId).Nodup
  orders_checked : ∀ row ∈ db.orders, row.side ∈ ["buy", "sell"]
  orders_deal : ∀ row ∈ db.orders, db.HasDeal row.dealId
  fills_unique : (db.fills.map FillRow.key).Nodup
  fills_checked : ∀ row ∈ db.fills, row.Checked
  fills_order : ∀ row ∈ db.fills, db.HasOrder row.clientId
  candles_unique : (db.candles.map BarRow.key).Nodup
  /-- Ids rise, so none is given out again. -/
  audit_rising : (db.audit.map Prod.fst).Pairwise (· < ·)
  audit_le : ∀ line ∈ db.audit, line.1 ≤ db.lastRecId

/-- What is recorded stays: deals and fills as they are, an order under its id and with its deal,
and an entry of the audit unless retention removes it. -/
structure Database.Keeps (before after : Database D) : Prop where
  deals : before.deals <+: after.deals
  orders : before.orders.map (fun row => (row.clientId, row.dealId)) <+:
    after.orders.map fun row => (row.clientId, row.dealId)
  fills : before.fills <+: after.fills
  audit : ∀ line ∈ after.audit, line.1 ≤ before.lastRecId → line ∈ before.audit
  lastRecId : before.lastRecId ≤ after.lastRecId

variable {db after : Database D}

namespace Database

theorem Sound.empty : (empty : Database D).Sound := by
  refine ⟨?_, ?_, ?_, ?_, ?_, ?_, ?_, ?_, ?_, ?_, ?_⟩ <;> simp [Database.empty]

theorem Keeps.refl (db : Database D) : db.Keeps db :=
  ⟨List.prefix_rfl, List.prefix_rfl, List.prefix_rfl, fun _ hline _ => hline, le_rfl⟩

theorem Keeps.trans {first middle last : Database D} (h : first.Keeps middle)
    (hlater : middle.Keeps last) : first.Keeps last where
  deals := h.deals.trans hlater.deals
  orders := h.orders.trans hlater.orders
  fills := h.fills.trans hlater.fills
  audit := fun line hline hle =>
    h.audit line (hlater.audit line hline (hle.trans h.lastRecId)) hle
  lastRecId := h.lastRecId.trans hlater.lastRecId

theorem Keeps.hasDeal (h : db.Keeps after) {dealId : Option ℤ} (hdeal : db.HasDeal dealId) :
    after.HasDeal dealId := fun id hid => (h.deals.map DealRow.dealId).subset (hdeal id hid)

theorem Keeps.hasOrder (h : db.Keeps after) {clientId : String} (horder : db.HasOrder clientId) :
    after.HasOrder clientId := by
  have hids := h.orders.map Prod.fst
  rw [List.map_map, List.map_map] at hids
  exact hids.subset horder

/-- An update keeps every column the constraints look at. -/
theorem map_update {set : OrderRow D → OrderRow D}
    (hset : ∀ row : OrderRow D, row.SameKeys (set row)) (table : Orders D) :
    (table.map set).map (fun row => (row.clientId, row.dealId)) =
      table.map fun row => (row.clientId, row.dealId) := by
  rw [List.map_map]
  refine List.map_congr_left fun row _ => ?_
  simp only [Function.comp_apply, (hset row).clientId, (hset row).dealId]

end Database

/-! ### What a statement does -/

/-- What a statement does, with foreign keys on. -/
def Statement.exec [Zero D] (statement : Statement D) (db : Database D) :
    Except Violation (Database D) :=
  match statement with
  | .insertDeal row =>
    if ¬ row.Checked then .error .check
    else if row.dealId ∈ db.deals.map DealRow.dealId then .error .unique
    else .ok { db with deals := db.deals ++ [row] }
  | .insertOrder row =>
    match db.orders.insert row with
    | .error e => .error e.violation
    | .ok orders =>
      if db.HasDeal row.dealId then .ok { db with orders := orders } else .error .foreignKey
  | .record call =>
    match call.exec db.orders with
    | .error e => .error e.violation
    | .ok orders => .ok { db with orders := orders }
  | .insertFill row =>
    -- OR IGNORE skips a row that fails the check or whose key is taken, and never gets to its order
    if ¬ row.Checked ∨ (Keyed.find FillRow.key db.fills row.key).isSome then .ok db
    else if db.HasOrder row.clientId then .ok { db with fills := db.fills ++ [row] }
    else .error .foreignKey
  | .upsertCandle row =>
    .ok { db with candles := Keyed.upsert BarRow.key BarRow.rewrite db.candles row }
  | .insertAudit entry =>
    .ok { db with
      audit := db.audit ++ [(db.lastRecId + 1, entry)]
      lastRecId := db.lastRecId + 1 }
  | .deleteCandles doomed => .ok { db with candles := db.candles.filter fun row => !doomed row }
  | .deleteAudit doomed => .ok { db with audit := db.audit.filter fun line => !doomed line }

/-- The order a statement inserts. -/
def Statement.order [Zero D] : Statement D → Option (OrderRow D)
  | .insertOrder row => some row
  | .record (.recordIntent order coreUid nowMs) => some (order.row coreUid nowMs)
  | _ => none

/-- All a statement that is not refused can do. -/
inductive Statement.Effect [Zero D] (db : Database D) : Statement D → Database D → Prop where
  | insertDeal (row : DealRow) (hchecked : row.Checked)
      (hfree : row.dealId ∉ db.deals.map DealRow.dealId) :
      Effect db (.insertDeal row) { db with deals := db.deals ++ [row] }
  | insertOrder (statement : Statement D) (row : OrderRow D) (horder : statement.order = some row)
      (hfree : ¬ db.HasOrder row.clientId) (hside : row.side ∈ ["buy", "sell"])
      (hdeal : db.HasDeal row.dealId) :
      Effect db statement { db with orders := db.orders ++ [row] }
  | update (call : OrderCall D) (hcall : Statement.order (.record call) = none)
      (set : OrderRow D → OrderRow D)
      (hset : ∀ row : OrderRow D, row.SameKeys (set row)) :
      Effect db (.record call) { db with orders := db.orders.map set }
  | ignore (row : FillRow)
      (h : ¬ row.Checked ∨ (Keyed.find FillRow.key db.fills row.key).isSome) :
      Effect db (.insertFill row) db
  | insertFill (row : FillRow) (hchecked : row.Checked)
      (hfree : ¬ (Keyed.find FillRow.key db.fills row.key).isSome)
      (horder : db.HasOrder row.clientId) :
      Effect db (.insertFill row) { db with fills := db.fills ++ [row] }
  | upsertCandle (row : BarRow) :
      Effect db (.upsertCandle row)
        { db with candles := Keyed.upsert BarRow.key BarRow.rewrite db.candles row }
  | insertAudit (entry : AuditEntry) :
      Effect db (.insertAudit entry) { db with
        audit := db.audit ++ [(db.lastRecId + 1, entry)]
        lastRecId := db.lastRecId + 1 }
  | deleteCandles (doomed : BarRow → Bool) :
      Effect db (.deleteCandles doomed)
        { db with candles := db.candles.filter fun row => !doomed row }
  | deleteAudit (doomed : ℕ × AuditEntry → Bool) :
      Effect db (.deleteAudit doomed)
        { db with audit := db.audit.filter fun line => !doomed line }

theorem Orders.insert_ok {row : OrderRow D} {table after : Orders D}
    (h : table.insert row = .ok after) :
    row.clientId ∉ table.map OrderRow.clientId ∧ row.side ∈ ["buy", "sell"] ∧
      after = table ++ [row] := by
  rw [Orders.insert] at h
  split_ifs at h with htaken hside
  refine ⟨fun hmem => htaken ?_, hside, (Except.ok.inj h).symm⟩
  obtain ⟨stored, hstored, hkey⟩ := List.mem_map.mp hmem
  exact List.any_eq_true.mpr ⟨stored, hstored, decide_eq_true hkey⟩

variable [Zero D] {statement : Statement D}

theorem Statement.effect_record {call : OrderCall D} {orders : Orders D}
    (h : call.exec db.orders = .ok orders) :
    Effect db (.record call) { db with orders := orders } := by
  cases call with
  | recordIntent order coreUid nowMs =>
    obtain ⟨hfree, hside, rfl⟩ := Orders.insert_ok h
    exact .insertOrder _ _ rfl hfree hside fun id hid => absurd hid (by simp [NewOrder.row])
  | recordUpdate order nowMs =>
    obtain rfl := Except.ok.inj h
    refine .update _ rfl _ fun row => ?_
    split_ifs <;> exact ⟨rfl, rfl, rfl⟩
  | recordNeverPlaced clientId nowMs =>
    obtain rfl := Except.ok.inj h
    refine .update _ rfl _ fun row => ?_
    split_ifs <;> exact ⟨rfl, rfl, rfl⟩

theorem Statement.effect (h : statement.exec db = .ok after) : Effect db statement after := by
  cases statement with
  | insertDeal row =>
    simp only [exec] at h
    split_ifs at h with hchecked hfree
    obtain rfl := Except.ok.inj h
    exact .insertDeal row hchecked hfree
  | insertOrder row =>
    simp only [exec] at h
    split at h
    · cases h
    · next orders hinsert =>
      obtain ⟨hfree, hside, rfl⟩ := Orders.insert_ok hinsert
      split_ifs at h with hdeal
      obtain rfl := Except.ok.inj h
      exact .insertOrder _ row rfl hfree hside hdeal
  | record call =>
    simp only [exec] at h
    split at h
    · cases h
    · next orders hcall =>
      obtain rfl := Except.ok.inj h
      exact effect_record hcall
  | insertFill row =>
    simp only [exec] at h
    split_ifs at h with hignored horder
    · obtain rfl := Except.ok.inj h
      exact .ignore row hignored
    · obtain rfl := Except.ok.inj h
      obtain ⟨hchecked, hfree⟩ := not_or.mp hignored
      exact .insertFill row (not_not.mp hchecked) hfree horder
  | upsertCandle row =>
    obtain rfl := Except.ok.inj h
    exact .upsertCandle row
  | insertAudit entry =>
    obtain rfl := Except.ok.inj h
    exact .insertAudit entry
  | deleteCandles doomed =>
    obtain rfl := Except.ok.inj h
    exact .deleteCandles doomed
  | deleteAudit doomed =>
    obtain rfl := Except.ok.inj h
    exact .deleteAudit doomed

namespace Database

theorem Keeps.effect (h : statement.Effect db after) : db.Keeps after := by
  cases h with
  | insertDeal row => exact { Keeps.refl db with deals := List.prefix_append _ _ }
  | insertOrder _ row =>
    refine { Keeps.refl db with orders := ?_ }
    rw [List.map_append]
    exact List.prefix_append _ _
  | update call hcall set hset =>
    refine { Keeps.refl db with orders := ?_ }
    rw [map_update hset]
  | ignore row => exact Keeps.refl db
  | insertFill row => exact { Keeps.refl db with fills := List.prefix_append _ _ }
  | upsertCandle row => exact { Keeps.refl db with }
  | insertAudit entry =>
    refine { Keeps.refl db with audit := fun line hline hle => ?_, lastRecId := Nat.le_succ _ }
    rcases List.mem_append.mp hline with hold | hnew
    · exact hold
    · obtain rfl := List.mem_singleton.mp hnew
      exact absurd hle (Nat.not_succ_le_self _)
  | deleteCandles doomed => exact { Keeps.refl db with }
  | deleteAudit doomed =>
    exact { Keeps.refl db with audit := fun line hline _ => (List.mem_filter.mp hline).1 }

theorem Sound.effect (hsound : db.Sound) (h : statement.Effect db after) : after.Sound := by
  have hkept := Keeps.effect h
  cases h with
  | insertDeal row hchecked hfree =>
    refine { hsound with
      deals_unique := ?_
      deals_checked := ?_
      orders_deal := fun order horder => hkept.hasDeal (hsound.orders_deal order horder) }
    · rw [List.map_append, List.map_singleton, ← List.concat_eq_append]
      exact hsound.deals_unique.concat hfree
    · intro deal hdeal
      rcases List.mem_append.mp hdeal with hold | hnew
      · exact hsound.deals_checked deal hold
      · obtain rfl := List.mem_singleton.mp hnew
        exact hchecked
  | insertOrder _ row _ hfree hside hdeal =>
    refine { hsound with
      orders_unique := ?_
      orders_checked := ?_
      orders_deal := ?_
      fills_order := fun fill hfill => hkept.hasOrder (hsound.fills_order fill hfill) }
    · rw [List.map_append, List.map_singleton, ← List.concat_eq_append]
      exact hsound.orders_unique.concat hfree
    · intro order horder
      rcases List.mem_append.mp horder with hold | hnew
      · exact hsound.orders_checked order hold
      · obtain rfl := List.mem_singleton.mp hnew
        exact hside
    · intro order horder
      rcases List.mem_append.mp horder with hold | hnew
      · exact hsound.orders_deal order hold
      · obtain rfl := List.mem_singleton.mp hnew
        exact hdeal
  | update call hcall set hset =>
    have hids : (db.orders.map set).map OrderRow.clientId = db.orders.map OrderRow.clientId := by
      rw [List.map_map]
      exact List.map_congr_left fun row _ => (hset row).clientId
    refine { hsound with
      orders_unique := hids ▸ hsound.orders_unique
      orders_checked := ?_
      orders_deal := ?_
      fills_order := fun fill hfill => hkept.hasOrder (hsound.fills_order fill hfill) }
    · intro order horder
      obtain ⟨row, hrow, rfl⟩ := List.mem_map.mp horder
      rw [(hset row).side]
      exact hsound.orders_checked row hrow
    · intro order horder
      obtain ⟨row, hrow, rfl⟩ := List.mem_map.mp horder
      rw [(hset row).dealId]
      exact hsound.orders_deal row hrow
  | ignore row => exact hsound
  | insertFill row hchecked hfree horder =>
    refine { hsound with
      fills_unique := Keyed.nodup_concat hsound.fills_unique hfree
      fills_checked := ?_
      fills_order := ?_ }
    · intro fill hfill
      rcases List.mem_append.mp hfill with hold | hnew
      · exact hsound.fills_checked fill hold
      · obtain rfl := List.mem_singleton.mp hnew
        exact hchecked
    · intro fill hfill
      rcases List.mem_append.mp hfill with hold | hnew
      · exact hsound.fills_order fill hold
      · obtain rfl := List.mem_singleton.mp hnew
        exact horder
  | upsertCandle row =>
    exact { hsound with
      candles_unique := Keyed.nodup_upsert BarRow.key_rewrite hsound.candles_unique row }
  | insertAudit entry =>
    refine { hsound with audit_rising := ?_, audit_le := ?_ }
    · rw [List.map_append, List.map_singleton, List.pairwise_append]
      refine ⟨hsound.audit_rising, List.pairwise_singleton _ _, fun id hid last hlast => ?_⟩
      obtain ⟨line, hline, rfl⟩ := List.mem_map.mp hid
      obtain rfl := List.mem_singleton.mp hlast
      exact Nat.lt_succ_of_le (hsound.audit_le line hline)
    · intro line hline
      rcases List.mem_append.mp hline with hold | hnew
      · exact Nat.le_succ_of_le (hsound.audit_le line hold)
      · obtain rfl := List.mem_singleton.mp hnew
        exact le_rfl
  | deleteCandles doomed =>
    exact { hsound with
      candles_unique := hsound.candles_unique.sublist (List.filter_sublist.map _) }
  | deleteAudit doomed =>
    exact { hsound with
      audit_rising := hsound.audit_rising.sublist (List.filter_sublist.map _)
      audit_le := fun line hline => hsound.audit_le line (List.mem_filter.mp hline).1 }

end Database

end MoonCore
