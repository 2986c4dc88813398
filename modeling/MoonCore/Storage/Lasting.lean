import MoonCore.Storage.Database
import MoonCore.Storage.Reports

/-!
# What is recorded stays recorded

The statements of `Statement.exec` put through the store. Over every run of producers, writer and
disk, what is durable meets the constraints of the tables, and what was answered Ok is there for
good (`Database.lasting`). On top of it: an execution is recorded once, however often the venue
replays it (`Database.fills_once`); a bar reads as it was last written
(`Database.bar_rewritten`); and no closed deal is missing from the reports
(`Database.reported_once`).
-/

namespace MoonCore

variable {D : Type*}

/-! ### What a statement says -/

/-- The execution a statement reports, unless its side is one no table takes. -/
def Statement.fill : Statement D → Option FillRow
  | .insertFill row => if row.Checked then some row else none
  | _ => none

/-- What a statement leaves under the key of a bar. -/
def Statement.barAfter (key : String × String × String × ℤ × ℤ) (stored : Option BarRow) :
    Statement D → Option BarRow
  | .upsertCandle row =>
    if row.key = key then some ((stored.map (·.rewrite row)).getD row) else stored
  | .deleteCandles doomed => stored.filter fun row => !doomed row
  | _ => stored

/-- What a statement leaves under the id of an order. -/
def Statement.orderAfter [Zero D] (clientId : String) (stored : Option (OrderRow D)) :
    Statement D → Option (OrderRow D)
  | .insertOrder row => if row.clientId = clientId then some row else stored
  | .record (.recordIntent order coreUid nowMs) =>
    if order.clientId = clientId then some (order.row coreUid nowMs) else stored
  | .record (.recordUpdate order nowMs) =>
    if order.clientId = clientId then stored.map (.report order nowMs) else stored
  | .record (.recordNeverPlaced id nowMs) =>
    if id = clientId then
      stored.map fun row => if row.status = "pending" then row.reject nowMs else row
    else stored
  | _ => stored

/-- The entry of the audit a statement adds. -/
def Statement.entry : Statement D → Option AuditEntry
  | .insertAudit entry => some entry
  | _ => none

/-- The last write of a bar over what it found. -/
theorem BarRow.rewrite_getD {found : Option BarRow} {row : BarRow}
    (hfound : ∀ stored ∈ found, stored.key = row.key) :
    (found.map (·.rewrite row)).getD row =
      { row with opened := (found.map BarRow.opened).getD row.opened } := by
  cases found with
  | none => rfl
  | some stored =>
    obtain ⟨exchange, market, symbol, tfMs, openTime⟩ := stored
    simp only [BarRow.key, Option.mem_def, Option.some.injEq, forall_eq', Prod.mk.injEq] at hfound
    obtain ⟨rfl, rfl, rfl, rfl, rfl⟩ := hfound
    rfl

/-- A statement that has nothing to do with a bar. -/
def Statement.Spares (key : String × String × String × ℤ × ℤ) : Statement D → Prop
  | .upsertCandle row => row.key ≠ key
  | .deleteCandles doomed => ∀ row, row.key = key → doomed row = false
  | _ => True

namespace Statement

theorem barAfter_of_spares {statement : Statement D} {row : BarRow}
    (h : statement.Spares row.key) {stored : BarRow}
    (hkey : stored.key = row.key) : statement.barAfter row.key (some stored) = some stored := by
  cases statement with
  | upsertCandle other => exact if_neg h
  | deleteCandles doomed =>
    exact Option.filter_some_pos (p := fun row => !doomed row) (by rw [h stored hkey]; rfl)
  | _ => rfl

theorem foldl_barAfter_of_spares {row stored : BarRow} (hkey : stored.key = row.key)
    {statements : List (Statement D)} (h : ∀ statement ∈ statements, statement.Spares row.key) :
    statements.foldl (barAfter row.key) (some stored) = some stored := by
  induction statements with
  | nil => rfl
  | cons statement statements ih =>
    obtain ⟨hfirst, hrest⟩ := List.forall_mem_cons.mp h
    rw [List.foldl_cons, barAfter_of_spares hfirst hkey, ih hrest]

/-- What is under a key has that key. -/
theorem key_foldl_barAfter {key : String × String × String × ℤ × ℤ} {found : Option BarRow}
    (hfound : ∀ row ∈ found, row.key = key) (statements : List (Statement D)) :
    ∀ row ∈ statements.foldl (barAfter key) found, row.key = key := by
  induction statements generalizing found with
  | nil => exact hfound
  | cons statement statements ih =>
    refine ih fun row hrow => ?_
    cases statement with
    | upsertCandle other =>
      rw [barAfter] at hrow
      split_ifs at hrow with hkey
      · cases found with
        | none => rwa [← Option.some.inj hrow]
        | some stored =>
          rw [← Option.some.inj hrow]
          exact (BarRow.key_rewrite stored other).trans (hfound stored rfl)
      · exact hfound row hrow
    | deleteCandles doomed => exact hfound row (Option.filter_eq_some_iff.mp hrow).1
    | _ => exact hfound row hrow

end Statement

/-! ### Table by table -/

theorem Orders.find_update {set : OrderRow D → OrderRow D}
    (hset : ∀ row, (set row).clientId = row.clientId) (hit : OrderRow D → Prop)
    [DecidablePred hit] (table : Orders D) (clientId : String) :
    Keyed.find OrderRow.clientId (table.update set hit) clientId =
      (Keyed.find OrderRow.clientId table clientId).map fun row =>
        if hit row then set row else row := by
  rw [Keyed.find, Orders.update, List.find?_map, Keyed.find]
  congr 2
  funext row
  by_cases h : hit row <;> simp [h, hset]

/-- An order that is inserted is the one under its id. -/
theorem Orders.find_insert {row : OrderRow D} {table after : Orders D}
    (h : table.insert row = .ok after) (clientId : String) :
    Keyed.find OrderRow.clientId after clientId =
      if row.clientId = clientId then some row
      else Keyed.find OrderRow.clientId table clientId := by
  obtain ⟨hfree, -, rfl⟩ := Orders.insert_ok h
  rw [Keyed.find_append, Keyed.find_singleton]
  split_ifs with hid
  · subst hid
    have hnone : Keyed.find OrderRow.clientId table row.clientId = none := by
      refine Option.not_isSome_iff_eq_none.mp fun htaken => hfree ?_
      obtain ⟨stored, hstored, hkey⟩ := Keyed.find_isSome_iff.mp htaken
      exact List.mem_map.mpr ⟨stored, hstored, hkey⟩
    rw [hnone, Option.none_or]
  · rw [Option.or_none]

variable [Zero D] {db after : Database D} {statement : Statement D}

namespace Statement

theorem find_orders (h : statement.exec db = .ok after) (clientId : String) :
    Keyed.find OrderRow.clientId after.orders clientId =
      statement.orderAfter clientId (Keyed.find OrderRow.clientId db.orders clientId) := by
  -- `orderAfter` asks for the id of the call, `update` for the id of the row that is found.
  have hfound : ∀ stored, Keyed.find OrderRow.clientId db.orders clientId = some stored →
      stored.clientId = clientId := fun stored hstored => (Keyed.mem_of_find hstored).2
  cases statement with
  | insertOrder row =>
    simp only [exec] at h
    split at h
    · cases h
    · next orders hinsert =>
      split_ifs at h with hdeal
      cases h
      exact Orders.find_insert hinsert clientId
  | record call =>
    simp only [exec] at h
    split at h
    · cases h
    · next orders hcall =>
      cases h
      cases call with
      | recordIntent order coreUid nowMs => exact Orders.find_insert hcall clientId
      | recordUpdate order nowMs =>
        cases hcall
        rw [Orders.find_update (OrderRow.report_clientId order nowMs), orderAfter]
        cases hstored : Keyed.find OrderRow.clientId db.orders clientId with
        | none => simp
        | some stored => by_cases hid : order.clientId = clientId <;>
            simp [hfound stored hstored, hid, eq_comm]
      | recordNeverPlaced id nowMs =>
        cases hcall
        rw [Orders.find_update (OrderRow.reject_clientId nowMs), orderAfter]
        cases hstored : Keyed.find OrderRow.clientId db.orders clientId with
        | none => simp
        | some stored => by_cases hid : id = clientId <;>
            simp [hfound stored hstored, hid, eq_comm]
  | insertDeal row =>
    simp only [exec] at h
    split_ifs at h
    cases h
    rfl
  | insertFill row =>
    simp only [exec] at h
    split_ifs at h
    · cases h
      rfl
    · cases h
      rfl
  | upsertCandle row => cases h; rfl
  | insertAudit entry => cases h; rfl
  | deleteCandles doomed => cases h; rfl
  | deleteAudit doomed => cases h; rfl

theorem Effect.fills (h : statement.Effect db after) :
    after.fills = statement.fill.toList.foldl (Keyed.insertIgnore FillRow.key) db.fills := by
  cases h with
  | insertOrder statement row horder =>
    cases statement <;> first | rfl | cases horder
  | ignore row hignored =>
    by_cases hchecked : row.Checked
    · simp [Statement.fill, hchecked, Keyed.insertIgnore,
        hignored.resolve_left (not_not.mpr hchecked)]
    · simp [Statement.fill, hchecked]
  | insertFill row hchecked hfree =>
    simp [Statement.fill, hchecked, Keyed.insertIgnore, hfree]
  | _ => rfl

end Statement

namespace Database

theorem Sound.find_candles (hsound : db.Sound) (h : statement.Effect db after)
    (key : String × String × String × ℤ × ℤ) :
    Keyed.find BarRow.key after.candles key =
      statement.barAfter key (Keyed.find BarRow.key db.candles key) := by
  cases h with
  | insertOrder statement row horder =>
    cases statement <;> first | rfl | cases horder
  | upsertCandle row => exact Keyed.find_upsert BarRow.key_rewrite db.candles row key
  | deleteCandles doomed => exact Keyed.find_filter hsound.candles_unique _ key
  | _ => rfl

/-- Statements none of which is refused. -/
theorem Sound.foldlM (hsound : db.Sound) {statements : List (Statement D)}
    (h : statements.foldlM (fun db statement => statement.exec db) db = .ok after) :
    after.Sound ∧ db.Keeps after := by
  refine foldlM_ok_induction (P := fun _ middle => middle.Sound ∧ db.Keeps middle)
    ⟨hsound, .refl db⟩ ?_ h
  rintro _ statement before after ⟨hbefore, hkept⟩ hexec
  have heffect := Statement.effect hexec
  exact ⟨hbefore.effect heffect, hkept.trans (Keeps.effect heffect)⟩

/-- Each order reads as the statements about it left it. -/
theorem orders_foldlM {statements : List (Statement D)}
    (h : statements.foldlM (fun db statement => statement.exec db) db = .ok after)
    (clientId : String) :
    Keyed.find OrderRow.clientId after.orders clientId =
      statements.foldl (Statement.orderAfter clientId)
        (Keyed.find OrderRow.clientId db.orders clientId) := by
  refine foldlM_ok_induction (P := fun done middle =>
    Keyed.find OrderRow.clientId middle.orders clientId =
      done.foldl (Statement.orderAfter clientId)
        (Keyed.find OrderRow.clientId db.orders clientId)) rfl ?_ h
  intro done statement before after hdone hexec
  rw [Statement.find_orders hexec, hdone, List.foldl_append]
  rfl

/-- The executions stored are those reported, the first under each key. -/
theorem fills_foldlM {statements : List (Statement D)}
    (h : statements.foldlM (fun db statement => statement.exec db) db = .ok after) :
    after.fills =
      (statements.filterMap Statement.fill).foldl (Keyed.insertIgnore FillRow.key) db.fills := by
  refine foldlM_ok_induction (P := fun done middle => middle.fills =
    (done.filterMap Statement.fill).foldl (Keyed.insertIgnore FillRow.key) db.fills) rfl ?_ h
  intro done statement before after hdone hexec
  rw [(Statement.effect hexec).fills, hdone, List.filterMap_append, List.foldl_append]
  rfl

/-- Each bar reads as the statements about it left it. -/
theorem Sound.candles_foldlM (hsound : db.Sound) {statements : List (Statement D)}
    (h : statements.foldlM (fun db statement => statement.exec db) db = .ok after)
    (key : String × String × String × ℤ × ℤ) :
    Keyed.find BarRow.key after.candles key =
      statements.foldl (Statement.barAfter key) (Keyed.find BarRow.key db.candles key) := by
  have hboth : after.Sound ∧ Keyed.find BarRow.key after.candles key =
      statements.foldl (Statement.barAfter key) (Keyed.find BarRow.key db.candles key) := by
    refine foldlM_ok_induction (P := fun done middle => middle.Sound ∧
      Keyed.find BarRow.key middle.candles key =
        done.foldl (Statement.barAfter key) (Keyed.find BarRow.key db.candles key))
      ⟨hsound, rfl⟩ ?_ h
    rintro done statement before after ⟨hbefore, hdone⟩ hexec
    have heffect := Statement.effect hexec
    refine ⟨hbefore.effect heffect, ?_⟩
    rw [hbefore.find_candles heffect, hdone, List.foldl_append]
    rfl
  exact hboth.2

/-- The ids of the audit are counted, and an entry is there until a sweep takes it. -/
theorem audit_foldlM {statements : List (Statement D)}
    (h : statements.foldlM (fun db statement => statement.exec db) db = .ok after) :
    after.lastRecId = db.lastRecId + (statements.filterMap Statement.entry).length ∧
      ∀ line : ℕ × AuditEntry, line.1 ≤ db.lastRecId → (line ∈ after.audit ↔
        line ∈ db.audit ∧ ∀ doomed, Statement.deleteAudit doomed ∈ statements →
          doomed line = false) := by
  refine foldlM_ok_induction (P := fun done middle =>
    middle.lastRecId = db.lastRecId + (done.filterMap Statement.entry).length ∧
      ∀ line : ℕ × AuditEntry, line.1 ≤ db.lastRecId → (line ∈ middle.audit ↔
        line ∈ db.audit ∧ ∀ doomed, Statement.deleteAudit doomed ∈ done →
          doomed line = false)) ⟨rfl, by simp⟩ ?_ h
  rintro done statement before after ⟨hcount, hdone⟩ hexec
  rw [List.filterMap_append, List.length_append, ← Nat.add_assoc, ← hcount]
  have hspared (hsame : after.audit = before.audit)
      (hnot : ∀ doomed, statement ≠ .deleteAudit doomed) (line : ℕ × AuditEntry)
      (hline : line.1 ≤ db.lastRecId) : line ∈ after.audit ↔ line ∈ db.audit ∧
        ∀ doomed, Statement.deleteAudit doomed ∈ done ++ [statement] → doomed line = false := by
    rw [hsame, hdone line hline]
    refine and_congr_right fun _ => forall_congr' fun doomed => ?_
    rw [List.mem_append, List.mem_singleton, or_iff_left (Ne.symm (hnot doomed))]
  cases Statement.effect hexec with
  | insertAudit entry =>
    refine ⟨rfl, fun line hline => ?_⟩
    -- the new line has an id above those there were at first
    have hold : line ∈ before.audit ++ [(before.lastRecId + 1, entry)] ↔ line ∈ before.audit := by
      rw [List.mem_append, List.mem_singleton, or_iff_left]
      rintro rfl
      omega
    rw [hold, hdone line hline]
    refine and_congr_right fun _ => forall_congr' fun doomed => ?_
    rw [List.mem_append, List.mem_singleton, or_iff_left (by simp)]
  | deleteAudit removed =>
    refine ⟨rfl, fun line hline => ?_⟩
    rw [List.mem_filter, hdone line hline, and_assoc]
    refine and_congr_right fun _ => ?_
    simp only [List.mem_append, List.mem_singleton, Statement.deleteAudit.injEq, or_imp,
      forall_and, forall_eq, Bool.not_eq_true']
  | insertOrder _ row horder =>
    refine ⟨?_, hspared rfl ?_⟩
    · cases statement <;> first | rfl | cases horder
    · rintro doomed rfl
      cases horder
  | update call hcall set hset => exact ⟨rfl, hspared rfl (by simp)⟩
  | _ => exact ⟨rfl, hspared rfl (by simp)⟩

end Database

/-! ### What is recorded -/

/-- What is recorded of a statement after `later` ones, where `earlier` ones came before it: an
insert is there, as later updates of it left it; an update is of what it found; of the fills of one
key the first is there; what a sweep removed is gone, unless it is written again. -/
def Statement.Recorded (db : Database D) (earlier later : List (Statement D))
    (after : Database D) (statement : Statement D) : Prop :=
  let order (clientId : String) := Keyed.find OrderRow.clientId after.orders clientId
  let orderBefore (clientId : String) := earlier.foldl (Statement.orderAfter clientId)
    (Keyed.find OrderRow.clientId db.orders clientId)
  let barBefore (key : String × String × String × ℤ × ℤ) := earlier.foldl (Statement.barAfter key)
    (Keyed.find BarRow.key db.candles key)
  let lastRecId := db.lastRecId + (earlier.filterMap Statement.entry).length
  match statement with
  | .insertDeal row => row ∈ after.deals
  | .insertOrder row =>
    order row.clientId = later.foldl (Statement.orderAfter row.clientId) (some row)
  | .record (.recordIntent new coreUid nowMs) =>
    order new.clientId =
      later.foldl (Statement.orderAfter new.clientId) (some (new.row coreUid nowMs))
  | .record (.recordUpdate reported nowMs) =>
    order reported.clientId = later.foldl (Statement.orderAfter reported.clientId)
      ((orderBefore reported.clientId).map (.report reported nowMs))
  | .record (.recordNeverPlaced clientId nowMs) =>
    order clientId = later.foldl (Statement.orderAfter clientId)
      ((orderBefore clientId).map fun row =>
        if row.status = "pending" then row.reject nowMs else row)
  | .insertFill row => row.Checked → after.HasOrder row.clientId ∧
    Keyed.find FillRow.key after.fills row.key =
      (Keyed.find FillRow.key (db.fills ++ earlier.filterMap Statement.fill) row.key).or (some row)
  | .upsertCandle row =>
    Keyed.find BarRow.key after.candles row.key = later.foldl (Statement.barAfter row.key)
      (some { row with opened := ((barBefore row.key).map BarRow.opened).getD row.opened })
  | .insertAudit entry => (lastRecId + 1, entry) ∈ after.audit ↔
    ∀ doomed, Statement.deleteAudit doomed ∈ later → doomed (lastRecId + 1, entry) = false
  | .deleteCandles doomed => ∀ row, barBefore row.key = some row → doomed row →
    Keyed.find BarRow.key after.candles row.key = later.foldl (Statement.barAfter row.key) none
  | .deleteAudit doomed => ∀ line ∈ after.audit, line.1 ≤ lastRecId → doomed line = false

namespace Database

/-- A fill that is not refused has its order. -/
theorem Sound.hasOrder_of_fill (hsound : db.Sound) {row : FillRow} (hchecked : row.Checked)
    (h : (Statement.insertFill row).exec db = .ok after) : after.HasOrder row.clientId := by
  cases Statement.effect h with
  | insertOrder _ _ horder => cases horder
  | ignore row hignored =>
    have htaken := hignored.resolve_left (not_not.mpr hchecked)
    obtain ⟨stored, hstored, hkey⟩ := Keyed.find_isSome_iff.mp htaken
    rw [← (Prod.mk.inj hkey).1]
    exact hsound.fills_order stored hstored
  | insertFill row _ _ horder => exact horder

/-- A statement among others none of which is refused. -/
theorem exists_of_foldlM {earlier later : List (Statement D)}
    (h : (earlier ++ statement :: later).foldlM (fun db statement => statement.exec db) db =
      .ok after) :
    ∃ found left, earlier.foldlM (fun db statement => statement.exec db) db = .ok found ∧
      statement.exec found = .ok left ∧
      later.foldlM (fun db statement => statement.exec db) left = .ok after := by
  obtain ⟨found, hfound, hrest⟩ := foldlM_append_eq_ok.mp h
  obtain ⟨left, hleft, hlater⟩ := foldlM_cons_eq_ok.mp hrest
  exact ⟨found, left, hfound, hleft, hlater⟩

theorem Sound.recorded (hsound : db.Sound) {earlier later : List (Statement D)}
    (h : (earlier ++ statement :: later).foldlM (fun db statement => statement.exec db) db =
      .ok after) : statement.Recorded db earlier later after := by
  obtain ⟨found, left, hfound, hleft, hafter⟩ := exists_of_foldlM h
  have horder := orders_foldlM h
  have hbar := hsound.candles_foldlM h
  have hfoundSound := (hsound.foldlM hfound).1
  -- What comes after the statement keeps what it has left.
  have hkept := ((hfoundSound.effect (Statement.effect hleft)).foldlM hafter).2
  have haudit := audit_foldlM hafter
  have hcount := (audit_foldlM hfound).1
  simp only [List.foldl_append, List.foldl_cons] at horder hbar
  cases statement with
  | insertDeal row =>
    cases Statement.effect hleft with
    | insertDeal row =>
      exact hkept.deals.subset (List.mem_append_right _ (List.mem_singleton_self row))
    | insertOrder _ _ hnone => cases hnone
  | insertOrder row =>
    have hrow := horder row.clientId
    rwa [Statement.orderAfter, if_pos rfl] at hrow
  | record call =>
    cases call with
    | recordIntent order coreUid nowMs =>
      have hrow := horder order.clientId
      rwa [Statement.orderAfter, if_pos rfl] at hrow
    | recordUpdate order nowMs =>
      have hrow := horder order.clientId
      rwa [Statement.orderAfter, if_pos rfl] at hrow
    | recordNeverPlaced clientId nowMs =>
      have hrow := horder clientId
      rwa [Statement.orderAfter, if_pos rfl] at hrow
  | insertFill row =>
    intro hchecked
    refine ⟨hkept.hasOrder (hfoundSound.hasOrder_of_fill hchecked hleft), ?_⟩
    have hfills := fills_foldlM h
    rw [hfills, Keyed.find_foldl_insertIgnore, List.filterMap_append, Keyed.find_append,
      Keyed.find_append, Option.or_assoc]
    have hrow : Statement.fill (.insertFill row : Statement D) = some row := if_pos hchecked
    rw [List.filterMap_cons_some hrow]
    -- the statement itself is the first of its key among those from it on
    congr 2
    exact List.find?_cons_of_pos (decide_eq_true rfl)
  | upsertCandle row =>
    have hrow := hbar row.key
    rwa [Statement.barAfter, if_pos rfl, BarRow.rewrite_getD] at hrow
    exact Statement.key_foldl_barAfter (fun stored hstored => (Keyed.mem_of_find hstored).2) earlier
  | insertAudit entry =>
    cases hleft
    have hline := haudit.2 (found.lastRecId + 1, entry) le_rfl
    simp only [List.mem_append, List.mem_singleton, or_true, true_and] at hline
    rwa [hcount] at hline
  | deleteCandles doomed =>
    intro row hrow hdoomed
    beta_reduce at hrow
    have hgone := hbar row.key
    rw [hrow, Statement.barAfter, Option.filter_some_neg (by simp [hdoomed])] at hgone
    exact hgone
  | deleteAudit doomed =>
    cases hleft
    intro line hline hle
    have hkeptLine := ((haudit.2 line (hcount ▸ hle)).mp hline).1
    simpa using (List.mem_filter.mp hkeptLine).2

/-! ### Over a run of the store -/

variable {calls : List (Call (Statement D) Violation)}

/-- The statements of the jobs answered Ok, or about to be. -/
def confirmed (store : Store (Database D) (Statement D) Violation) : List (Statement D) :=
  (Store.confirmed store.settled).flatMap Job.writes

theorem committed_of_run (db : Database D) (calls : List (Call (Statement D) Violation)) :
    let store := (Store.machine Statement.exec).run (.start db) calls
    (confirmed store).foldlM (fun db statement => statement.exec db) db =
      .ok store.connection.committed :=
  ((Store.SerialLog.start Statement.exec db).run calls).committed

/-- **What is answered Ok is recorded for good.** Over every run of the store on a sound database,
with any producers, batches and failures of SQLite: what is durable meets every constraint of the
tables; deals and fills are only ever added, an order keeps its id and its deal, and no entry of
the audit is replaced; at any later moment the statements of a job answered Ok are confirmed in a
row; and of each confirmed statement there is recorded what it says, after those confirmed before
it and as those confirmed after it left it. -/
theorem lasting (hsound : db.Sound) (calls more : List (Call (Statement D) Violation)) :
    let store := (Store.machine Statement.exec).run (.start db) calls
    let after := (Store.machine Statement.exec).run store more
    store.connection.committed.Sound ∧
      store.connection.committed.Keeps after.connection.committed ∧
      (∀ job, (job, .ok ()) ∈ store.acked → job.writes <:+: confirmed after) ∧
      ∀ earlier statement later, confirmed after = earlier ++ statement :: later →
        statement.Recorded db earlier later after.connection.committed := by
  intro store after
  have hnow := (hsound.foldlM (committed_of_run db calls)).1
  obtain ⟨settled, hsettled⟩ := (Store.grows_run Statement.exec store more).settled
  have hgrown : confirmed after = confirmed store ++
      (Store.confirmed settled).flatMap Job.writes := by
    rw [confirmed, confirmed, ← hsettled, Store.confirmed_append, List.flatMap_append]
  have hafter := committed_of_run db (calls ++ more)
  simp only [Machine.run_append] at hafter
  change (confirmed after).foldlM _ db = Except.ok after.connection.committed at hafter
  refine ⟨hnow, ?_, fun job hjob => ?_, fun earlier statement later hsplit => ?_⟩
  · rw [hgrown] at hafter
    obtain ⟨found, hfound, hmore⟩ := foldlM_append_eq_ok.mp hafter
    obtain rfl := Except.ok.inj ((committed_of_run db calls).symm.trans hfound)
    exact (hnow.foldlM hmore).2
  · have hconfirmed : job ∈ Store.confirmed store.settled :=
      List.mem_map_of_mem
        (List.mem_filter.mpr ⟨(Store.acked_prefix_settled store).subset hjob, rfl⟩)
    obtain ⟨front, back, hsplit⟩ := List.append_of_mem hconfirmed
    refine ⟨front.flatMap Job.writes,
      back.flatMap Job.writes ++ (Store.confirmed settled).flatMap Job.writes, ?_⟩
    rw [hgrown, confirmed, hsplit]
    simp only [List.flatMap_append, List.flatMap_cons, List.append_assoc]
  · rw [hsplit] at hafter
    exact hsound.recorded hafter

/-- What the core notes when the order is placed. -/
def placeEntry : AuditEntry :=
  ⟨0, 1, "device", "203.0.113.7", "trade", 1, "order.place", [], "ok", none⟩

/-- An order is placed and noted, and the venue tells that it is filled. -/
def placedAndFilled : List (Call (Statement ℤ) Violation) :=
  [.write [.record (.recordIntent Orders.limitBuy 0 0), .insertAudit placeEntry],
    .write [.record (.recordUpdate (Orders.reported .filled 1) 5)]] ++
    List.replicate 8 (.writer .calm)

/-- The order reads as filled, and the note of it is there. -/
theorem lasting_placedAndFilled :
    let after :=
      ((Store.machine Statement.exec).run (.start empty) placedAndFilled).connection.committed
    Keyed.find OrderRow.clientId after.orders "c-1" =
        some ((Orders.limitBuy.row 0 0).report (Orders.reported .filled 1) 5) ∧
      (1, placeEntry) ∈ after.audit := by
  have hconfirmed := (lasting Sound.empty placedAndFilled []).2.2.2
  exact ⟨hconfirmed _ (.record (.recordUpdate (Orders.reported .filled 1) 5)) [] rfl,
    (hconfirmed [.record (.recordIntent Orders.limitBuy 0 0)] (.insertAudit placeEntry) _ rfl).mpr
      (by simp)⟩

/-! ### Executions -/

/-- **An execution is recorded once.** Over every run of the store on a sound database: under each
key is the first execution reported in a job answered Ok, unless there was one already; and where
the venue replays executions as they were, those stored are those reported, each once, in whatever
order and however often they came. -/
theorem fills_once (hsound : db.Sound) (calls : List (Call (Statement D) Violation)) :
    let store := (Store.machine Statement.exec).run (.start db) calls
    let stored := store.connection.committed.fills
    let reported := (confirmed store).filterMap Statement.fill
    (∀ key, Keyed.find FillRow.key stored key = Keyed.find FillRow.key (db.fills ++ reported) key) ∧
      ((∀ a ∈ db.fills ++ reported, ∀ b ∈ db.fills ++ reported, a.key = b.key → a = b) →
        stored.Perm (db.fills ++ reported).dedup) := by
  intro store stored reported
  have hstored : stored = reported.foldl (Keyed.insertIgnore FillRow.key) db.fills :=
    fills_foldlM (committed_of_run db calls)
  rw [hstored]
  refine ⟨fun key => ?_, Keyed.perm_foldl_insertIgnore hsound.fills_unique⟩
  rw [Keyed.find_foldl_insertIgnore, Keyed.find_append]

/-- An order of the terminal is filled, and the venue tells of it twice. -/
def replayedFill : FillRow :=
  ⟨"t-1", "c-1", "BTCUSDT", "buy", "63096", "1", "0.01", "USDT", true, 1⟩

/-- The order is recorded, then the fill, then the fill again. -/
def replayed : List (Call (Statement ℤ) Violation) :=
  [.write [.record (.recordIntent Orders.limitBuy 0 0)], .write [.insertFill replayedFill],
    .write [.insertFill replayedFill]] ++ List.replicate 8 (.writer .calm)

/-- The fill told twice is stored once. -/
theorem fills_once_replayed :
    ((Store.machine Statement.exec).run (.start empty) replayed).connection.committed.fills.Perm
      [replayedFill] := by
  have hreported :
      (confirmed ((Store.machine Statement.exec).run (.start empty) replayed)).filterMap
        Statement.fill = [replayedFill, replayedFill] := by decide +kernel
  have h := (fills_once Sound.empty replayed).2
  rw [hreported] at h
  exact h (by decide)

/-! ### Bars -/

/-- **A bar reads as it was last written.** Over every run of the store on a sound database: what
is stored under the key of a bar is what the confirmed statements about it come to, one after the
other; and after the last write of a bar, as long as retention has not removed it, it has the
figures of that write, over the open of the bar it found. -/
theorem bar_rewritten (hsound : db.Sound) (calls : List (Call (Statement D) Violation)) :
    let store := (Store.machine Statement.exec).run (.start db) calls
    let bar (statements : List (Statement D)) (key : String × String × String × ℤ × ℤ) :=
      statements.foldl (Statement.barAfter key) (Keyed.find BarRow.key db.candles key)
    (∀ key, Keyed.find BarRow.key store.connection.committed.candles key =
      bar (confirmed store) key) ∧
      ∀ earlier row later, confirmed store = earlier ++ .upsertCandle row :: later →
        (∀ statement ∈ later, statement.Spares row.key) →
        Keyed.find BarRow.key store.connection.committed.candles row.key =
          some { row with
            opened := ((bar earlier row.key).map BarRow.opened).getD row.opened } := by
  intro store bar
  have hbar (key : String × String × String × ℤ × ℤ) :
      Keyed.find BarRow.key store.connection.committed.candles key = bar (confirmed store) key :=
    hsound.candles_foldlM (committed_of_run db calls) key
  refine ⟨hbar, fun earlier row later hsplit hspares => ?_⟩
  have hfound : ∀ stored ∈ bar earlier row.key, stored.key = row.key :=
    Statement.key_foldl_barAfter (fun stored hstored => (Keyed.mem_of_find hstored).2) earlier
  rw [hbar, hsplit]
  simp only [bar, List.foldl_append, List.foldl_cons]
  rw [Statement.barAfter, if_pos rfl, BarRow.rewrite_getD hfound]
  exact Statement.foldl_barAfter_of_spares (by rfl) hspares

/-- The first bar of the day, and the same bar one trade later. -/
def dayBar (close : String) (trades : ℤ) (opened : String) : BarRow :=
  ⟨"binance", "spot", "BTCUSDT", 60000, 0, opened, "64000", "63000", close, "1", trades⟩

/-- A bar is written twice, the second time with another open. -/
def rewritten : List (Call (Statement ℤ) Violation) :=
  [.write [.upsertCandle (dayBar "63100" 1 "63000")],
    .write [.upsertCandle (dayBar "63200" 2 "63050")]] ++ List.replicate 6 (.writer .calm)

/-- It has the close of the second write, and the open of the first. -/
theorem bar_rewritten_twice :
    Keyed.find BarRow.key
        ((Store.machine Statement.exec).run (.start empty) rewritten).connection.committed.candles
        (dayBar "63200" 2 "63050").key =
      some (dayBar "63200" 2 "63000") :=
  (bar_rewritten Sound.empty rewritten).2 [.upsertCandle (dayBar "63100" 1 "63000")]
    (dayBar "63200" 2 "63050") [] rfl (by simp)

end Database

/-! ### Reports -/

/-- A stored deal, with what its table promises, as a report reads it. -/
def DealRow.deal (row : DealRow) (h : row.Checked) : Deal where
  coreUid := row.coreUid
  phase := row.phase
  realized := row.realized
  closedAt := row.closedAt
  closedAt_check := h.2.1
  realized_check := h.2.2

/-- A closed deal of this core that was closed in this period. -/
def DealRow.closedIn (coreUid fromMs toMs : ℤ) (row : DealRow) : Bool :=
  row.coreUid = coreUid ∧ row.closedAt.any (fun t => fromMs ≤ t ∧ t < toMs) ∧ row.phase = "closed"

/-- What a period selects of the deals in a table, each with its promise. -/
theorem countP_pmap_deal (coreUid fromMs toMs : ℤ) {rows : List DealRow}
    (h : ∀ row ∈ rows, row.Checked) :
    (rows.pmap DealRow.deal h).countP (Deal.selected coreUid fromMs toMs) =
      rows.countP (DealRow.closedIn coreUid fromMs toMs) := by
  induction rows with
  | nil => rfl
  | cons row rows ih =>
    rw [List.pmap, List.countP_cons, List.countP_cons, ih]
    rfl

namespace Database

/-- The table a report is made from. -/
def Sound.table (h : db.Sound) : List Deal := db.deals.pmap DealRow.deal h.deals_checked

/-- **No closed deal is missing from the reports.** Over every run of the store on a sound database:
for every core and period, in whatever order the rows of the query come, there is a report, and it
counts the closed deals of the core with a closing time in the period; every closed deal has a
closing time, and of consecutive periods around that time exactly one counts it. -/
theorem reported_once {E : Type*} {ops : ReportDecimals E} (hops : ops.Exact) (hsound : db.Sound)
    (calls : List (Call (Statement D) Violation)) :
    let stored := ((Store.machine Statement.exec).run (.start db) calls).connection.committed
    ∃ h : stored.Sound,
      (∀ coreUid fromMs toMs (rows : List Deal),
        rows.Perm (h.table.filter (Deal.selected coreUid fromMs toMs)) →
        ∃ summary, summarize ops (rows.map Deal.realized) = some summary ∧
          summary.deals = stored.deals.countP (DealRow.closedIn coreUid fromMs toMs)) ∧
      ∀ row ∈ stored.deals, row.phase = "closed" → ∃ t, row.closedAt = some t ∧
        ∀ fromMs cuts toMs, (fromMs :: cuts).Pairwise (· ≤ ·) →
          (fromMs :: cuts).getLast? = some toMs → fromMs ≤ t → t < toMs →
          (subPeriods fromMs cuts).countP
            (fun part => row.closedIn row.coreUid part.1 part.2) = 1 := by
  intro stored
  have h : stored.Sound := (hsound.foldlM (committed_of_run db calls)).1
  refine ⟨h, fun coreUid fromMs toMs rows hrows => ?_, fun row hrow hphase => ?_⟩
  · have hrealized : ∀ deal ∈ rows, deal.realized ≠ none := fun deal hdeal =>
      Deal.realized_ne_none (List.mem_filter.mp (hrows.subset hdeal)).2
    obtain ⟨summary, hsummary, hfigures⟩ := summarize_spec hops hrealized
    refine ⟨summary, hsummary, ?_⟩
    have hdeals : summary.deals = rows.length := congrArg Prod.fst hfigures
    rw [hdeals, hrows.length_eq, ← List.countP_eq_length_filter, Sound.table, countP_pmap_deal]
  · have hchecked := h.deals_checked row hrow
    obtain ⟨t, ht⟩ := Option.ne_none_iff_exists'.mp
      (hchecked.2.1.resolve_left (not_not.mpr hphase))
    refine ⟨t, ht, fun fromMs cuts toMs hcuts hlast hfrom hto => ?_⟩
    have hclosed : (row.deal hchecked).ClosedIn row.coreUid fromMs toMs :=
      ⟨rfl, hphase, t, ht, hfrom, hto⟩
    have hcount := countP_subPeriods (row.deal hchecked) row.coreUid hcuts hlast
    rwa [if_pos (Deal.selected_iff.mpr hclosed)] at hcount

/-- A deal that is opened and closed. -/
def closedDeal : DealRow :=
  ⟨1, 0, "binance", "linear_perp", "BTCUSDT", "buy", "closed", "0.5", some "63000", some "63100",
    some "50", "0.01", none, 0, some 10⟩

/-- It is recorded. -/
def dealRecorded : List (Call (Statement ℤ) Violation) :=
  .write [.insertDeal closedDeal] :: List.replicate 3 (.writer .calm)

/-- The report of its day counts it. -/
theorem reported_once_closedDeal :
    ∃ h : ((Store.machine Statement.exec).run (.start empty)
        dealRecorded).connection.committed.Sound,
      ∀ rows : List Deal, rows.Perm (h.table.filter (Deal.selected 0 0 20)) →
        ∃ summary, summarize wholeDecimals (rows.map Deal.realized) = some summary ∧
          summary.deals = 1 := by
  obtain ⟨h, hreports, -⟩ := reported_once wholeDecimals_exact Sound.empty dealRecorded
  exact ⟨h, fun rows hrows => hreports 0 0 20 rows hrows⟩

end Database

end MoonCore
