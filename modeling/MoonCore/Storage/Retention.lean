import Mathlib.Data.List.Dedup
import Mathlib.Data.List.Sort
import MoonCore.Domain.Order
import MoonCore.ForMathlib.DeleteFirst
import MoonCore.Machine.Run

/-!
# Throwing away what is no longer worth keeping

`storage::retention`. A run of `machine` is any interleaving of the statements of one `sweep` with
inserts of other producers, each of which commits before the next. The tables are lists in the
order in which a statement visits their rows, and an insert may put its row anywhere, so nothing
depends on which index SQLite walks.

A batch learns how many rows it removed from two counts of the table, one before its `DELETE` and
one after. `Exact` says that the sweep believes what is the case, and a row that comes in between
the two counts is what breaks it (`exact_next_iff`).
-/

namespace MoonCore

namespace Retention

variable {ε : Type*}

/-- Rows removed per transaction. -/
def batch : ℕ := 5000

/-- How long each series is kept. -/
structure Policy where
  minuteDays : ℤ
  fiveMinuteDays : ℤ
  hourlyAndAboveDays : ℤ
  auditDays : ℤ

/-- `Policy::default` -/
instance : Inhabited Policy := ⟨⟨30, 15, 3650, 365⟩⟩

/-- Oldest timestamp to keep for a timeframe, given the current time. -/
def Policy.keepCandlesFrom (policy : Policy) (tfMs nowMs : ℤ) : ℤ :=
  let days :=
    if tfMs ≤ 60000 then policy.minuteDays
    else if tfMs ≤ 3599999 then policy.fiveMinuteDays
    else policy.hourlyAndAboveDays
  wrapI64 (nowMs - wrapI64 (days * 86400000))

/-- Audit rows before this instant are removed. -/
def Policy.keepAuditFrom (policy : Policy) (nowMs : ℤ) : ℤ :=
  wrapI64 (nowMs - wrapI64 (policy.auditDays * 86400000))

/-! ### The tables -/

/-- A row of `candles`, by its primary key. -/
structure CandleRow where
  exchange : String
  market : String
  symbol : String
  tfMs : ℤ
  openTime : ℤ
  deriving DecidableEq

/-- A row of `audit`. -/
structure AuditRow where
  recId : ℕ
  atMs : ℤ
  deriving DecidableEq

/-- What a sweep works on, and the last id the audit table has given out. -/
structure Tables where
  candles : List CandleRow
  audit : List AuditRow
  lastRecId : ℕ

/-- The tables a sweep visits. -/
inductive Table where
  | candles
  | audit
  deriving DecidableEq

/-- `SELECT COUNT(*) FROM …` -/
def Tables.totalRows (tables : Tables) : Table → ℕ
  | .candles => tables.candles.length
  | .audit => tables.audit.length

/-- `SELECT DISTINCT tf_ms FROM candles ORDER BY tf_ms` -/
def Tables.distinctTimeframes (tables : Tables) : List ℤ :=
  (tables.candles.map CandleRow.tfMs).dedup.insertionSort (· ≤ ·)

/-- `UPSERT_CANDLE`: a candle that is there already is rewritten under its key. -/
def Tables.upsertCandle (row : CandleRow) (i : ℕ) (tables : Tables) : Tables :=
  if row ∈ tables.candles then tables
  else { tables with candles := insertAt i row tables.candles }

/-- `INSERT_AUDIT` -/
def Tables.insertAudit (atMs : ℤ) (i : ℕ) (tables : Tables) : Tables :=
  { tables with
    audit := insertAt i ⟨tables.lastRecId + 1, atMs⟩ tables.audit
    lastRecId := tables.lastRecId + 1 }

/-- `WHERE tf_ms = ?1 AND open_time < ?2` -/
def CandleRow.hit (tfMs cutoff : ℤ) (row : CandleRow) : Bool :=
  row.tfMs = tfMs ∧ row.openTime < cutoff

/-- `WHERE at_ms < ?1` -/
def AuditRow.hit (cutoff : ℤ) (row : AuditRow) : Bool := row.atMs < cutoff

/-! ### The sweep -/

/-- What one sweep removed. -/
structure Swept where
  candles : ℤ
  audit : ℤ
  batches : ℤ
  deriving DecidableEq

/-- One more batch of a table. -/
def Swept.add (removed : ℤ) (swept : Swept) : Table → Swept
  | .candles => { swept with candles := swept.candles + removed, batches := swept.batches + 1 }
  | .audit => { swept with audit := swept.audit + removed, batches := swept.batches + 1 }

/-- The loop `sweep` is in: over the candles of one timeframe, with the timeframes still to come,
or over the audit table. -/
inductive Loop where
  | candles (tfMs : ℤ) (rest : List ℤ)
  | audit

/-- The first loop over these timeframes. -/
def Loop.over : List ℤ → Loop
  | [] => .audit
  | tfMs :: rest => .candles tfMs rest

/-- The loop after this one. -/
def Loop.next : Loop → Option Loop
  | .candles _ rest => some (.over rest)
  | .audit => none

/-- The table a loop deletes from. -/
def Loop.table : Loop → Table
  | .candles _ _ => .candles
  | .audit => .audit

/-- What `sweep` does next. -/
inductive Phase (ε : Type*) where
  /-- `distinct_timeframes` -/
  | timeframes
  /-- The first `total_rows` of a batch. -/
  | counting (loop : Loop)
  /-- The `DELETE` of a batch. -/
  | deleting (loop : Loop) (before : ℕ)
  /-- The second `total_rows` of a batch. -/
  | recounting (loop : Loop) (before : ℕ)
  | finished
  | failed (e : ε)

/-- A sweep under way. The last three fields are history: no step reads them. -/
structure Sweep (ε : Type*) where
  tables : Tables
  phase : Phase ε
  swept : Swept
  /-- The candles removed so far. -/
  removedCandles : List CandleRow
  /-- The audit rows removed so far. -/
  removedAudit : List AuditRow
  /-- How many rows the last `DELETE` removed. -/
  hit : ℕ

/-- What can happen next. -/
inductive Op (ε : Type*) where
  /-- Another producer writes a candle. -/
  | upsertCandle (row : CandleRow) (i : ℕ)
  /-- Another producer writes an audit record. -/
  | insertAudit (atMs : ℤ) (i : ℕ)
  /-- The sweep runs its next statement, or the store refuses it. -/
  | sweep (refused : Option ε)

/-- A sweep that is about to start. -/
def start (tables : Tables) : Sweep ε := ⟨tables, .timeframes, ⟨0, 0, 0⟩, [], [], 0⟩

/-- What the sweep returned. -/
def Sweep.answer (s : Sweep ε) : Option (Except ε Swept) :=
  match s.phase with
  | .finished => some (.ok s.swept)
  | .failed e => some (.error e)
  | _ => none

section

variable (policy : Policy) (nowMs : ℤ)

/-- `DELETE FROM … WHERE … LIMIT BATCH` -/
def Sweep.delete (s : Sweep ε) (loop : Loop) (before : ℕ) : Sweep ε :=
  match loop with
  | .candles tfMs _ =>
    let hits := CandleRow.hit tfMs (policy.keepCandlesFrom tfMs nowMs)
    let gone := takeHits hits batch s.tables.candles
    { s with
      tables := { s.tables with candles := deleteFirst hits batch s.tables.candles }
      phase := .recounting loop before
      removedCandles := s.removedCandles ++ gone
      hit := gone.length }
  | .audit =>
    let hits := AuditRow.hit (policy.keepAuditFrom nowMs)
    let gone := takeHits hits batch s.tables.audit
    { s with
      tables := { s.tables with audit := deleteFirst hits batch s.tables.audit }
      phase := .recounting loop before
      removedAudit := s.removedAudit ++ gone
      hit := gone.length }

/-- Where a loop goes on after a batch it believes to have removed so many rows. -/
def Loop.after (loop : Loop) (removed : ℤ) : Phase ε :=
  if removed < batch then
    match loop.next with
    | some next => .counting next
    | none => .finished
  else .counting loop

/-- The end of a batch: `(before - after).max(0)` is what it removed. -/
def Sweep.tally (s : Sweep ε) (loop : Loop) (before : ℕ) : Sweep ε :=
  let removed : ℤ := max ((before : ℤ) - s.tables.totalRows loop.table) 0
  { s with swept := s.swept.add removed loop.table, phase := loop.after removed }

/-- The next statement of `sweep`. -/
def Sweep.statement (s : Sweep ε) : Sweep ε :=
  match s.phase with
  | .timeframes => { s with phase := .counting (.over s.tables.distinctTimeframes) }
  | .counting loop => { s with phase := .deleting loop (s.tables.totalRows loop.table) }
  | .deleting loop before => s.delete policy nowMs loop before
  | .recounting loop before => s.tally loop before
  | .finished => s
  | .failed _ => s

/-- One write of somebody else, or the next statement of the sweep. -/
def step (s : Sweep ε) : Op ε → Sweep ε × Unit
  | .upsertCandle row i => ({ s with tables := s.tables.upsertCandle row i }, ())
  | .insertAudit atMs i => ({ s with tables := s.tables.insertAudit atMs i }, ())
  | .sweep none => (s.statement policy nowMs, ())
  | .sweep (some e) =>
    match s.answer with
    | none => ({ s with phase := .failed e }, ())
    | some _ => (s, ())

/-- A sweep and the other producers, stepping on what happens next. -/
def machine : Machine (Sweep ε) (Op ε) Unit := ⟨step policy nowMs⟩

/-! ### What has expired, and what the sweep believes -/

/-- The row is before the horizon of its timeframe. -/
def CandleRow.Expired (row : CandleRow) : Prop :=
  row.openTime < policy.keepCandlesFrom row.tfMs nowMs

/-- The row is before the horizon of the audit. -/
def AuditRow.Expired (row : AuditRow) : Prop := row.atMs < policy.keepAuditFrom nowMs

instance (row : CandleRow) : Decidable (row.Expired policy nowMs) :=
  inferInstanceAs (Decidable (row.openTime < policy.keepCandlesFrom row.tfMs nowMs))

instance (row : AuditRow) : Decidable (row.Expired policy nowMs) :=
  inferInstanceAs (Decidable (row.atMs < policy.keepAuditFrom nowMs))

/-- Other producers write rows that have not expired. -/
def Op.Fresh : Op ε → Prop
  | .upsertCandle row _ => ¬ row.Expired policy nowMs
  | .insertAudit atMs _ => ¬ atMs < policy.keepAuditFrom nowMs
  | .sweep _ => True

instance : (op : Op ε) → Decidable (op.Fresh policy nowMs)
  | .upsertCandle row _ => inferInstanceAs (Decidable (¬ row.Expired policy nowMs))
  | .insertAudit atMs _ => inferInstanceAs (Decidable (¬ atMs < policy.keepAuditFrom nowMs))
  | .sweep _ => .isTrue trivial

/-- How many rows the `WHERE` of a loop matches. -/
def Tables.due (tables : Tables) : Loop → ℕ
  | .candles tfMs _ =>
    tables.candles.countP (CandleRow.hit tfMs (policy.keepCandlesFrom tfMs nowMs))
  | .audit => tables.audit.countP (AuditRow.hit (policy.keepAuditFrom nowMs))

/-- No batch of the table is between its two counts, except one whose `DELETE` removes nothing. -/
def Sweep.Idle (s : Sweep ε) (table : Table) : Prop :=
  match s.phase with
  | .deleting loop _ => loop.table = table → s.tables.due policy nowMs loop = 0
  | .recounting loop _ => loop.table = table → s.hit = 0
  | _ => True

instance : (s : Sweep ε) → (table : Table) → Decidable (s.Idle policy nowMs table)
  | ⟨tables, .deleting loop _, _, _, _, _⟩, table =>
    inferInstanceAs (Decidable (loop.table = table → tables.due policy nowMs loop = 0))
  | ⟨_, .recounting loop _, _, _, _, hit⟩, table =>
    inferInstanceAs (Decidable (loop.table = table → hit = 0))
  | ⟨_, .timeframes, _, _, _, _⟩, _ => .isTrue trivial
  | ⟨_, .counting _, _, _, _, _⟩, _ => .isTrue trivial
  | ⟨_, .finished, _, _, _, _⟩, _ => .isTrue trivial
  | ⟨_, .failed _, _, _, _, _⟩, _ => .isTrue trivial

/-- No row is added to a table between the two counts of a batch that removes rows from it. -/
def Undisturbed (s : Sweep ε) : Op ε → Prop
  | .upsertCandle row _ => row ∉ s.tables.candles → s.Idle policy nowMs .candles
  | .insertAudit _ _ => s.Idle policy nowMs .audit
  | .sweep _ => True

instance (s : Sweep ε) : (op : Op ε) → Decidable (Undisturbed policy nowMs s op)
  | .upsertCandle row _ =>
    inferInstanceAs (Decidable (row ∉ s.tables.candles → s.Idle policy nowMs .candles))
  | .insertAudit _ _ => inferInstanceAs (Decidable (s.Idle policy nowMs .audit))
  | .sweep _ => .isTrue trivial

end

end Retention

end MoonCore
