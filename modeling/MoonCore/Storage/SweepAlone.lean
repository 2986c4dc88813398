import MoonCore.Storage.RetentionRace

/-!
# A sweep alone

`would_sweep` counts what a sweep would remove, by queries of its own, and a sweep that nobody
interferes with does what it announces: it terminates, what it leaves are the rows at or after
their horizon, and what it says it removed is what was announced (`sweep_alone`). `Alone` is the
invariant of such a run, and `Sweep.left` what still lies ahead of it.
-/

namespace MoonCore

namespace Retention

variable {ε : Type*} {policy : Policy} {nowMs : ℤ}

/-! ### The dry run -/

/-- `swept.candles += …` -/
def Swept.count (swept : Swept) (rows : ℕ) : Swept :=
  { swept with candles := swept.candles + rows }

/-- Rows that would be removed by a sweep. `timeframes` answers `SELECT DISTINCT tf_ms FROM
candles`, which comes in no particular order. -/
def wouldSweep (policy : Policy) (nowMs : ℤ) (timeframes : List ℤ) (tables : Tables) : Swept :=
  let hits (tfMs : ℤ) : ℕ :=
    tables.candles.countP (CandleRow.hit tfMs (policy.keepCandlesFrom tfMs nowMs))
  let swept : Swept := timeframes.foldl (fun swept tfMs => swept.count (hits tfMs)) ⟨0, 0, 0⟩
  { swept with audit := tables.audit.countP (AuditRow.hit (policy.keepAuditFrom nowMs)) }

theorem candles_foldl_count (hits : ℤ → ℕ) (timeframes : List ℤ) (swept : Swept) :
    (timeframes.foldl (fun swept tfMs => swept.count (hits tfMs)) swept).candles =
      swept.candles + (timeframes.map hits).sum := by
  induction timeframes generalizing swept with
  | nil => simp
  | cons tfMs rest ih =>
    rw [List.foldl_cons, ih, List.map_cons, List.sum_cons, Nat.cast_add]
    exact Int.add_assoc _ _ _

/-- The dry run counts every expired candle once. -/
theorem candles_wouldSweep {timeframes : List ℤ} {tables : Tables}
    (h : timeframes.Perm (tables.candles.map CandleRow.tfMs).dedup) :
    (wouldSweep policy nowMs timeframes tables).candles =
      tables.candles.countP fun row => row.Expired policy nowMs := by
  have hnodup : timeframes.Nodup := h.nodup_iff.mpr (List.nodup_dedup _)
  have hmem : ∀ row ∈ tables.candles, decide (row.Expired policy nowMs) →
      row.tfMs ∈ timeframes := fun row hrow _ =>
    h.mem_iff.mpr (List.mem_dedup.mpr (List.mem_map_of_mem hrow))
  have hhit (tfMs : ℤ) : CandleRow.hit tfMs (policy.keepCandlesFrom tfMs nowMs) =
      fun row => decide (row.tfMs = tfMs ∧ decide (row.Expired policy nowMs)) := by
    funext row
    rw [Bool.eq_iff_iff, CandleRow.hit_iff]
    simp
  refine (candles_foldl_count _ timeframes ⟨0, 0, 0⟩).trans ?_
  simp only [hhit, Int.zero_add]
  rw [sum_countP_eq CandleRow.tfMs tables.candles hnodup hmem]

theorem audit_wouldSweep {timeframes : List ℤ} {tables : Tables} :
    (wouldSweep policy nowMs timeframes tables).audit =
      tables.audit.countP fun row => row.Expired policy nowMs := rfl

/-! ### What the sweep keeps -/

variable (policy nowMs) in
/-- The candles at or after the horizon of their timeframe. -/
def Tables.keptCandles (tables : Tables) : List CandleRow :=
  tables.candles.filter fun row => policy.keepCandlesFrom row.tfMs nowMs ≤ row.openTime

variable (policy nowMs) in
/-- The audit rows at or after their horizon. -/
def Tables.keptAudit (tables : Tables) : List AuditRow :=
  tables.audit.filter fun row => policy.keepAuditFrom nowMs ≤ row.atMs

/-- A delete keeps what is at or after its horizon, in order. -/
theorem kept_delete (s : Sweep ε) (loop : Loop) (before : ℕ) :
    (s.delete policy nowMs loop before).tables.keptCandles policy nowMs =
        s.tables.keptCandles policy nowMs ∧
      (s.delete policy nowMs loop before).tables.keptAudit policy nowMs =
        s.tables.keptAudit policy nowMs := by
  cases loop with
  | candles tfMs rest =>
    refine ⟨filter_deleteFirst (fun row hhit => ?_) _ _, rfl⟩
    have hexpired := ((CandleRow.hit_iff policy nowMs).mp hhit).2
    exact decide_eq_false (not_le.mpr hexpired)
  | audit =>
    refine ⟨rfl, filter_deleteFirst (fun row hhit => ?_) _ _⟩
    exact decide_eq_false (not_le.mpr ((AuditRow.hit_iff policy nowMs).mp hhit))

variable (policy nowMs) in
/-- What the statements of a sweep of these tables leave as it was. -/
structure Conserved (tables : Tables) (s : Sweep ε) : Prop where
  running : ∀ e, s.phase ≠ .failed e
  keptCandles : s.tables.keptCandles policy nowMs = tables.keptCandles policy nowMs
  keptAudit : s.tables.keptAudit policy nowMs = tables.keptAudit policy nowMs
  /-- A row is either there or removed. -/
  gone : ∀ table, s.gone table + s.tables.totalRows table = tables.totalRows table

theorem conserved_start (tables : Tables) :
    Conserved policy nowMs tables (start tables : Sweep ε) where
  running := nofun
  keptCandles := rfl
  keptAudit := rfl
  gone := fun table => by cases table <;> exact Nat.zero_add _

/-- A statement that only reads. -/
theorem Conserved.rephase {tables : Tables} {s : Sweep ε} (h : Conserved policy nowMs tables s)
    (phase : Phase ε) (hphase : ∀ e, phase ≠ .failed e) (swept : Swept) :
    Conserved policy nowMs tables { s with phase := phase, swept := swept } where
  running := hphase
  keptCandles := h.keptCandles
  keptAudit := h.keptAudit
  gone := fun table => by
    have hgone := h.gone table
    cases table <;> exact hgone

theorem Conserved.delete {tables : Tables} {s : Sweep ε} (h : Conserved policy nowMs tables s)
    (loop : Loop) (before : ℕ) :
    Conserved policy nowMs tables (s.delete policy nowMs loop before) where
  running := fun e => by rw [phase_delete]; exact nofun
  keptCandles := (kept_delete s loop before).1.trans h.keptCandles
  keptAudit := (kept_delete s loop before).2.trans h.keptAudit
  gone := fun table => by
    have hgone := h.gone table
    have htotal := totalRows_delete policy nowMs s loop before table
    rw [gone_delete]
    omega

theorem after_ne_failed (loop : Loop) (removed : ℤ) (e : ε) :
    (loop.after removed : Phase ε) ≠ .failed e := by
  rw [Loop.after]
  split_ifs
  · cases loop.next <;> exact fun h => by cases h
  · exact fun h => by cases h

theorem Conserved.statement {tables : Tables} {s : Sweep ε} (h : Conserved policy nowMs tables s) :
    Conserved policy nowMs tables (s.statement policy nowMs) := by
  rw [Sweep.statement]
  cases s.phase with
  | timeframes => exact h.rephase (.counting _) (fun _ h => by cases h) s.swept
  | counting loop => exact h.rephase (.deleting loop _) (fun _ h => by cases h) s.swept
  | deleting loop before => exact h.delete loop before
  | recounting loop before => exact h.rephase _ (after_ne_failed loop _) _
  | finished => exact h
  | failed e => exact h

/-- A single statement removes no more rows than a batch has. -/
theorem totalRows_statement_le (s : Sweep ε) (table : Table) :
    s.tables.totalRows table ≤ (s.statement policy nowMs).tables.totalRows table + batch := by
  rw [Sweep.statement]
  cases s.phase with
  | deleting loop before =>
    have htotal := totalRows_delete policy nowMs s loop before table
    have hhit := hit_delete policy nowMs s loop before
    dsimp only
    split_ifs at htotal <;> omega
  | _ => exact Nat.le_add_right _ _

/-! ### Termination -/

/-- How many loops are left, this one included. -/
def Loop.left : Loop → ℕ
  | .candles _ rest => rest.length + 2
  | .audit => 1

/-- The rows of both tables. -/
def Tables.rows (tables : Tables) : ℕ := tables.totalRows .candles + tables.totalRows .audit

/-- A bound on the statements to come: three for each batch, and each batch but the last of a loop
removes a row. -/
def Sweep.left (s : Sweep ε) : ℕ :=
  match s.phase with
  | .timeframes => 3 * (s.tables.rows + s.tables.distinctTimeframes.length + 1) + 3
  | .counting loop => 3 * (s.tables.rows + loop.left) + 2
  | .deleting loop _ => 3 * (s.tables.rows + loop.left) + 1
  | .recounting loop _ => 3 * (s.tables.rows + s.hit + loop.left)
  | .finished => 0
  | .failed _ => 0

theorem left_over (rest : List ℤ) : (Loop.over rest).left = rest.length + 1 := by
  cases rest <;> rfl

theorem left_next (loop : Loop) :
    (∃ next, loop.next = some next ∧ loop.left = next.left + 1) ∨
      loop.next = none ∧ loop.left = 1 := by
  cases loop with
  | candles tfMs rest => exact .inl ⟨_, rfl, congrArg (· + 1) (left_over rest).symm⟩
  | audit => exact .inr ⟨rfl, rfl⟩

variable (policy nowMs) in
theorem rows_delete (s : Sweep ε) (loop : Loop) (before : ℕ) :
    (s.delete policy nowMs loop before).tables.rows + (s.delete policy nowMs loop before).hit =
      s.tables.rows := by
  have hcandles := totalRows_delete policy nowMs s loop before .candles
  have haudit := totalRows_delete policy nowMs s loop before .audit
  rw [Tables.rows, Tables.rows]
  cases loop with
  | candles tfMs rest =>
    simp only [Loop.table, if_true, reduceCtorEq, if_false] at hcandles haudit
    omega
  | audit =>
    simp only [Loop.table, if_true, reduceCtorEq, if_false] at hcandles haudit
    omega

variable (policy nowMs) in
/-- A sweep under way gets closer to its end with every statement. -/
theorem left_statement {s : Sweep ε} (h : Bounded s) (hfinished : s.phase ≠ .finished)
    (hfailed : ∀ e, s.phase ≠ .failed e) : (s.statement policy nowMs).left < s.left := by
  have hbatch := h.batch
  cases hphase : s.phase with
  | timeframes =>
    simp only [Sweep.statement, Sweep.left, hphase, left_over]
    omega
  | counting loop =>
    simp only [Sweep.statement, Sweep.left, hphase]
    omega
  | deleting loop before =>
    have hrows := rows_delete policy nowMs s loop before
    simp only [Sweep.statement, Sweep.left, hphase, phase_delete]
    omega
  | recounting loop before =>
    have hpositive : 1 ≤ loop.left := by cases loop <;> simp [Loop.left]
    simp only [hphase] at hbatch
    simp only [Sweep.statement, Sweep.left, hphase, Sweep.tally, Loop.after]
    split_ifs with hshort
    · obtain ⟨next, hnext, hleft⟩ | ⟨hnext, -⟩ := left_next loop
      · simp only [hnext]
        omega
      · simp only [hnext]
        omega
    · -- a batch that is believed to be full has removed a row
      have hhit : 1 ≤ s.hit := by
        rw [batch] at hshort
        omega
      simp only
      omega
  | finished => exact absurd hphase hfinished
  | failed e => exact absurd hphase (hfailed e)

/-! ### The whole sweep -/

section

variable (policy : Policy) (nowMs : ℤ)

/-- The sweep after so many statements, none of which is refused. -/
def sweepAlone (tables : Tables) (n : ℕ) : Sweep ε :=
  (machine policy nowMs).run (start tables) (List.replicate n (.sweep none))

variable {policy nowMs}

theorem sweepAlone_succ (tables : Tables) (n : ℕ) :
    (sweepAlone policy nowMs tables (n + 1) : Sweep ε) =
      (sweepAlone policy nowMs tables n).statement policy nowMs := by
  rw [sweepAlone, List.replicate_succ', Machine.run_concat]
  rfl

/-- The invariant of a sweep that nobody interferes with. -/
theorem sweepAlone_invariant (tables : Tables) (n : ℕ) :
    Bounded (sweepAlone policy nowMs tables n : Sweep ε) ∧
      Exact policy nowMs (sweepAlone policy nowMs tables n : Sweep ε) ∧
      Ahead policy nowMs (sweepAlone policy nowMs tables n : Sweep ε) ∧
      Conserved policy nowMs tables (sweepAlone policy nowMs tables n : Sweep ε) := by
  induction n with
  | zero =>
    exact ⟨bounded_start tables, exact_start tables, ahead_start tables, conserved_start tables⟩
  | succ n ih =>
    obtain ⟨hbounded, hexact, hahead, hconserved⟩ := ih
    have hquiet (s : Sweep ε) : Op.Fresh policy nowMs (.sweep none : Op ε) ∧
        Accepted s (.sweep none) ∧ Undisturbed policy nowMs s (.sweep none) :=
      ⟨trivial, trivial, trivial⟩
    obtain ⟨hfresh, haccepted, hundisturbed⟩ := hquiet (sweepAlone policy nowMs tables n)
    rw [sweepAlone_succ]
    exact ⟨hbounded.next hfresh haccepted,
      (exact_next_iff hbounded hfresh haccepted).mpr ⟨hexact, hundisturbed⟩,
      hahead.next hbounded hexact hfresh haccepted, hconserved.statement⟩

variable (policy nowMs) in
/-- Left alone, a sweep finishes. -/
theorem sweepAlone_finishes (tables : Tables) :
    ∃ n, (sweepAlone policy nowMs tables n : Sweep ε).phase = .finished := by
  by_contra! hnever
  -- otherwise the measure falls below any bound
  have hfalls (n : ℕ) : (sweepAlone policy nowMs tables n : Sweep ε).left + n ≤
      (start tables : Sweep ε).left := by
    induction n with
    | zero => exact le_rfl
    | succ n ih =>
      obtain ⟨hbounded, -, -, hconserved⟩ := sweepAlone_invariant (ε := ε) tables n
      have hlower := left_statement policy nowMs hbounded (hnever n)
        hconserved.running
      rw [sweepAlone_succ]
      omega
  have hbound := hfalls ((start tables : Sweep ε).left + 1)
  omega

/-- What a finished sweep has left. -/
theorem kept_of_finished {s : Sweep ε} (h : Ahead policy nowMs s) (hphase : s.phase = .finished) :
    s.tables.candles = s.tables.keptCandles policy nowMs ∧
      s.tables.audit = s.tables.keptAudit policy nowMs := by
  constructor
  · refine (List.filter_eq_self.mpr fun row hrow => ?_).symm
    have hcovers := h.candles row hrow
    rw [hphase] at hcovers
    exact decide_eq_true (not_lt.mp hcovers)
  · refine (List.filter_eq_self.mpr fun row hrow => ?_).symm
    exact decide_eq_true (not_lt.mp fun hexpired => h.audit row hrow hexpired hphase)

variable (policy nowMs) in
/-- Every row is either kept or expired. -/
theorem length_kept (tables : Tables) :
    (tables.keptCandles policy nowMs).length +
        tables.candles.countP (fun row => row.Expired policy nowMs) = tables.candles.length ∧
      (tables.keptAudit policy nowMs).length +
        tables.audit.countP (fun row => row.Expired policy nowMs) = tables.audit.length := by
  have hcandles := List.length_eq_countP_add_countP (l := tables.candles)
    fun row => decide (policy.keepCandlesFrom row.tfMs nowMs ≤ row.openTime)
  have haudit := List.length_eq_countP_add_countP (l := tables.audit)
    fun row => decide (policy.keepAuditFrom nowMs ≤ row.atMs)
  simp only [decide_eq_true_eq, not_le] at hcandles haudit
  rw [Tables.keptCandles, Tables.keptAudit, ← List.countP_eq_length_filter,
    ← List.countP_eq_length_filter]
  exact ⟨hcandles.symm, haudit.symm⟩

variable (policy nowMs) in
/-- **A sweep alone removes exactly what has expired.** For all tables, every policy and every
time, and whatever order the dry run reads the timeframes in: the sweep returns after finitely many
statements; it leaves the candles at or after the horizon of their timeframe and the audit rows at
or after theirs, and no others; it says it removed what the dry run announced on the initial
tables; and no statement of it removes more rows than a batch has. -/
theorem sweep_alone (tables : Tables) {timeframes : List ℤ}
    (h : timeframes.Perm (tables.candles.map CandleRow.tfMs).dedup) :
    (∃ n swept,
      (sweepAlone policy nowMs tables n : Sweep ε).answer = some (.ok swept) ∧
        (sweepAlone policy nowMs tables n : Sweep ε).tables.candles = tables.candles.filter
          (fun row => policy.keepCandlesFrom row.tfMs nowMs ≤ row.openTime) ∧
        (sweepAlone policy nowMs tables n : Sweep ε).tables.audit = tables.audit.filter
          (fun row => policy.keepAuditFrom nowMs ≤ row.atMs) ∧
        swept.candles = (wouldSweep policy nowMs timeframes tables).candles ∧
        swept.audit = (wouldSweep policy nowMs timeframes tables).audit) ∧
      ∀ n table, (sweepAlone policy nowMs tables n : Sweep ε).tables.totalRows table ≤
        (sweepAlone policy nowMs tables (n + 1) : Sweep ε).tables.totalRows table + batch := by
  refine ⟨?_, fun n table => by rw [sweepAlone_succ]; exact totalRows_statement_le _ table⟩
  obtain ⟨n, hphase⟩ := sweepAlone_finishes (ε := ε) policy nowMs tables
  obtain ⟨-, hexact, hahead, hconserved⟩ := sweepAlone_invariant (ε := ε) tables n
  have hanswer : (sweepAlone policy nowMs tables n : Sweep ε).answer =
      some (.ok (sweepAlone policy nowMs tables n : Sweep ε).swept) := by rw [Sweep.answer, hphase]
  refine ⟨n, _, hanswer, ?_⟩
  generalize (sweepAlone policy nowMs tables n : Sweep ε) = s at *
  obtain ⟨hcandles, haudit⟩ := kept_of_finished hahead hphase
  rw [hconserved.keptCandles] at hcandles
  rw [hconserved.keptAudit] at haudit
  refine ⟨hcandles, haudit, ?_⟩
  -- what is not kept has been removed, and what has been removed was counted
  obtain ⟨htoldCandles, htoldAudit⟩ := (exact_iff_of_finished hphase).mp hexact
  obtain ⟨hkeptCandles, hkeptAudit⟩ := length_kept policy nowMs tables
  have hgoneCandles : s.removedCandles.length + s.tables.candles.length = tables.candles.length :=
    hconserved.gone .candles
  have hgoneAudit : s.removedAudit.length + s.tables.audit.length = tables.audit.length :=
    hconserved.gone .audit
  rw [hcandles] at hgoneCandles
  rw [haudit] at hgoneAudit
  rw [candles_wouldSweep h, audit_wouldSweep, htoldCandles, htoldAudit, Nat.cast_inj,
    Nat.cast_inj]
  exact ⟨by omega, by omega⟩

/-- The horizons of the default policy, on a table of one old minute. -/
theorem sweep_alone_oldMinute :
    (∃ n swept,
      (sweepAlone default 1700000000000 oldMinute n : Sweep Unit).answer = some (.ok swept) ∧
        (sweepAlone default 1700000000000 oldMinute n : Sweep Unit).tables.candles =
          oldMinute.candles.filter (fun row =>
            (default : Policy).keepCandlesFrom row.tfMs 1700000000000 ≤ row.openTime) ∧
        (sweepAlone default 1700000000000 oldMinute n : Sweep Unit).tables.audit =
          oldMinute.audit.filter
            (fun row => (default : Policy).keepAuditFrom 1700000000000 ≤ row.atMs) ∧
        swept.candles = (wouldSweep default 1700000000000 [60000] oldMinute).candles ∧
        swept.audit = (wouldSweep default 1700000000000 [60000] oldMinute).audit) ∧
      ∀ n table, (sweepAlone default 1700000000000 oldMinute n : Sweep Unit).tables.totalRows
          table ≤
        (sweepAlone default 1700000000000 oldMinute (n + 1) : Sweep Unit).tables.totalRows
          table + batch :=
  sweep_alone default 1700000000000 oldMinute (.refl [60000])

end

end Retention

end MoonCore
