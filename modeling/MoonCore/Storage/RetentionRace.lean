import MoonCore.Storage.Retention

/-!
# A sweep among other producers

What one sweep removes and what it believes to have removed, over every interleaving with inserts
of fresh rows. `Moves` says once what a step can do; `Bounded` that the sweep never believes to have
removed more than it did, and `Exact` that it believes neither less. A step leads to an exact state
exactly from one and when it does not disturb a batch (`exact_next_iff`).
-/

namespace MoonCore

namespace Retention

variable {ε : Type*}

/-- What a sweep says it removed from a table. -/
def Swept.told (swept : Swept) : Table → ℤ
  | .candles => swept.candles
  | .audit => swept.audit

@[simp]
theorem Swept.told_add (swept : Swept) (removed : ℤ) (table other : Table) :
    (swept.add removed table).told other =
      swept.told other + if table = other then removed else 0 := by
  cases table <;> cases other <;> simp [Swept.add, Swept.told]

/-- How many rows of a table are gone. -/
def Sweep.gone (s : Sweep ε) : Table → ℕ
  | .candles => s.removedCandles.length
  | .audit => s.removedAudit.length

section

variable (policy : Policy) (nowMs : ℤ)

theorem CandleRow.hit_iff {tfMs : ℤ} {row : CandleRow} :
    row.hit tfMs (policy.keepCandlesFrom tfMs nowMs) ↔
      row.tfMs = tfMs ∧ row.Expired policy nowMs := by
  rw [CandleRow.hit, decide_eq_true_iff, CandleRow.Expired]
  constructor
  · rintro ⟨rfl, hlt⟩
    exact ⟨rfl, hlt⟩
  · rintro ⟨rfl, hlt⟩
    exact ⟨rfl, hlt⟩

theorem AuditRow.hit_iff {row : AuditRow} :
    row.hit (policy.keepAuditFrom nowMs) ↔ row.Expired policy nowMs :=
  decide_eq_true_iff

/-! ### What the `DELETE` of a batch does -/

section

variable (s : Sweep ε) (loop : Loop) (before : ℕ)

@[simp]
theorem phase_delete : (s.delete policy nowMs loop before).phase = .recounting loop before := by
  cases loop <;> rfl

@[simp]
theorem swept_delete : (s.delete policy nowMs loop before).swept = s.swept := by
  cases loop <;> rfl

theorem hit_delete :
    (s.delete policy nowMs loop before).hit = min batch (s.tables.due policy nowMs loop) := by
  cases loop <;> exact length_takeHits _ _ _

theorem due_delete :
    (s.delete policy nowMs loop before).tables.due policy nowMs loop =
      s.tables.due policy nowMs loop - batch := by
  cases loop <;> exact countP_deleteFirst _ _ _

theorem totalRows_delete (table : Table) :
    (s.delete policy nowMs loop before).tables.totalRows table +
      (if loop.table = table then (s.delete policy nowMs loop before).hit else 0) =
        s.tables.totalRows table := by
  have hcandles (p) := length_deleteFirst p batch s.tables.candles
  have haudit (p) := length_deleteFirst p batch s.tables.audit
  cases loop with
  | candles tfMs rest =>
    cases table with
    | candles => exact (Nat.add_comm _ _).trans (hcandles _)
    | audit => rfl
  | audit =>
    cases table with
    | candles => rfl
    | audit => exact (Nat.add_comm _ _).trans (haudit _)

theorem gone_delete (table : Table) :
    (s.delete policy nowMs loop before).gone table =
      s.gone table + if loop.table = table then (s.delete policy nowMs loop before).hit else 0 := by
  cases loop with
  | candles tfMs rest =>
    cases table with
    | candles => exact List.length_append
    | audit => rfl
  | audit =>
    cases table with
    | candles => rfl
    | audit => exact List.length_append

/-- A delete leaves rows that were there, and removes rows that have expired. -/
theorem mem_delete :
    (∀ row ∈ (s.delete policy nowMs loop before).tables.candles, row ∈ s.tables.candles) ∧
      (∀ row ∈ (s.delete policy nowMs loop before).tables.audit, row ∈ s.tables.audit) ∧
      (∀ row ∈ (s.delete policy nowMs loop before).removedCandles,
        row ∈ s.removedCandles ∨ row.Expired policy nowMs) ∧
      ∀ row ∈ (s.delete policy nowMs loop before).removedAudit,
        row ∈ s.removedAudit ∨ row.Expired policy nowMs := by
  cases loop with
  | candles tfMs rest =>
    refine ⟨fun row => mem_of_mem_deleteFirst, fun row => id, fun row hrow => ?_, fun row => .inl⟩
    refine (List.mem_append.mp hrow).imp_right fun hgone => ?_
    exact ((CandleRow.hit_iff policy nowMs).mp (of_mem_takeHits hgone)).2
  | audit =>
    refine ⟨fun row => id, fun row => mem_of_mem_deleteFirst, fun row => .inl, fun row hrow => ?_⟩
    refine (List.mem_append.mp hrow).imp_right fun hgone => ?_
    exact (AuditRow.hit_iff policy nowMs).mp (of_mem_takeHits hgone)

end

/-! ### What a step can do -/

/-- A fresh row has been added to a table, and nothing else has changed. -/
structure Added (s s' : Sweep ε) (table : Table) : Prop where
  phase : s'.phase = s.phase
  swept : s'.swept = s.swept
  removedCandles : s'.removedCandles = s.removedCandles
  removedAudit : s'.removedAudit = s.removedAudit
  hit : s'.hit = s.hit
  totalRows : ∀ other, s'.tables.totalRows other =
    s.tables.totalRows other + if table = other then 1 else 0
  due : ∀ loop, s'.tables.due policy nowMs loop = s.tables.due policy nowMs loop
  candles : ∀ row ∈ s'.tables.candles, row.Expired policy nowMs → row ∈ s.tables.candles
  audit : ∀ row ∈ s'.tables.audit, row.Expired policy nowMs → row ∈ s.tables.audit

/-- A statement of an unfinished sweep is not refused. -/
def Accepted (s : Sweep ε) : Op ε → Prop
  | .sweep (some _) => s.answer ≠ none
  | _ => True

/-- What a step is, of other producers' fresh rows and of statements that are not refused. -/
inductive Moves (s : Sweep ε) (op : Op ε) : Sweep ε → Prop where
  | rest (h : Undisturbed policy nowMs s op) : Moves s op s
  | added {s' : Sweep ε} {table : Table} (h : Added policy nowMs s s' table)
      (hop : Undisturbed policy nowMs s op ↔ s.Idle policy nowMs table) : Moves s op s'
  | enter (h : Undisturbed policy nowMs s op) (hphase : s.phase = .timeframes) :
      Moves s op { s with phase := .counting (.over s.tables.distinctTimeframes) }
  | count (h : Undisturbed policy nowMs s op) {loop : Loop} (hphase : s.phase = .counting loop) :
      Moves s op { s with phase := .deleting loop (s.tables.totalRows loop.table) }
  | delete (h : Undisturbed policy nowMs s op) {loop : Loop} {before : ℕ}
      (hphase : s.phase = .deleting loop before) : Moves s op (s.delete policy nowMs loop before)
  | tally (h : Undisturbed policy nowMs s op) {loop : Loop} {before : ℕ}
      (hphase : s.phase = .recounting loop before) : Moves s op (s.tally loop before)

theorem added_upsertCandle (s : Sweep ε) {row : CandleRow} (hnew : row ∉ s.tables.candles)
    (hfresh : ¬ row.Expired policy nowMs) (i : ℕ) :
    Added policy nowMs s { s with tables := s.tables.upsertCandle row i } .candles := by
  have htables : s.tables.upsertCandle row i =
      { s.tables with candles := insertAt i row s.tables.candles } := if_neg hnew
  rw [htables]
  constructor
  case totalRows =>
    intro other
    cases other with
    | candles => exact length_insertAt i row _
    | audit => rfl
  case due =>
    intro loop
    cases loop with
    | candles tfMs rest =>
      have hmiss : ¬ row.hit tfMs (policy.keepCandlesFrom tfMs nowMs) := fun hhit =>
        hfresh ((CandleRow.hit_iff policy nowMs).mp hhit).2
      exact (countP_insertAt _ i row _).trans (by rw [if_neg hmiss]; rfl)
    | audit => rfl
  case candles =>
    intro other hother hexpired
    obtain rfl | hold := mem_insertAt.mp hother
    · exact absurd hexpired hfresh
    · exact hold
  case audit => exact fun other hother _ => hother
  all_goals rfl

theorem added_insertAudit (s : Sweep ε) {atMs : ℤ}
    (hfresh : ¬ atMs < policy.keepAuditFrom nowMs) (i : ℕ) :
    Added policy nowMs s { s with tables := s.tables.insertAudit atMs i } .audit := by
  constructor
  case totalRows =>
    intro other
    cases other with
    | candles => rfl
    | audit => exact length_insertAt i _ _
  case due =>
    intro loop
    cases loop with
    | candles tfMs rest => rfl
    | audit =>
      have hmiss : ¬ AuditRow.hit (policy.keepAuditFrom nowMs) ⟨s.tables.lastRecId + 1, atMs⟩ :=
        fun hhit => hfresh ((AuditRow.hit_iff policy nowMs).mp hhit)
      exact (countP_insertAt _ i _ _).trans (by rw [if_neg hmiss]; rfl)
  case candles => exact fun other hother _ => hother
  case audit =>
    intro other hother hexpired
    obtain rfl | hold := mem_insertAt.mp hother
    · exact absurd hexpired hfresh
    · exact hold
  all_goals rfl

theorem moves_next {s : Sweep ε} {op : Op ε} (hfresh : op.Fresh policy nowMs)
    (haccepted : Accepted s op) :
    Moves policy nowMs s op ((machine policy nowMs).next s op) := by
  cases op with
  | upsertCandle row i =>
    by_cases hmem : row ∈ s.tables.candles
    · have hsame : (machine policy nowMs).next s (.upsertCandle row i) = s := by
        change { s with tables := s.tables.upsertCandle row i } = s
        rw [Tables.upsertCandle, if_pos hmem]
      rw [hsame]
      exact .rest fun hnew => absurd hmem hnew
    · exact .added (added_upsertCandle policy nowMs s hmem hfresh i)
        ⟨fun h => h hmem, fun h _ => h⟩
  | insertAudit atMs i => exact .added (added_insertAudit policy nowMs s hfresh i) Iff.rfl
  | sweep refused =>
    cases refused with
    | some e =>
      have hsame : (machine policy nowMs).next s (.sweep (some e)) = s := by
        change (step policy nowMs s (.sweep (some e))).1 = s
        rw [step]
        cases hanswer : s.answer with
        | none => exact absurd hanswer haccepted
        | some answer => rfl
      rw [hsame]
      exact .rest trivial
    | none =>
      have hquiet : Undisturbed policy nowMs s (.sweep none) := trivial
      change Moves policy nowMs s _ (s.statement policy nowMs)
      rw [Sweep.statement]
      cases hphase : s.phase with
      | timeframes => exact .enter hquiet hphase
      | counting loop => exact .count hquiet hphase
      | deleting loop before => exact .delete hquiet hphase
      | recounting loop before => exact .tally hquiet hphase
      | finished => exact .rest hquiet
      | failed e => exact .rest hquiet

/-! ### What the sweep believes -/

/-- What the sweep has said or is about to say about a table, if it counts right. -/
def Sweep.credited (s : Sweep ε) (table : Table) : ℤ :=
  s.swept.told table +
    match s.phase with
    | .recounting loop _ => if loop.table = table then s.hit else 0
    | _ => 0

/-- The sweep believes no more rows gone than are. -/
structure Bounded (s : Sweep ε) : Prop where
  credited : ∀ table, s.credited table ≤ s.gone table
  batch : match s.phase with
    | .deleting loop before => before ≤ s.tables.totalRows loop.table
    | .recounting loop before => before ≤ s.tables.totalRows loop.table + s.hit
    | _ => True

/-- The sweep believes gone what is, and the batch under way will be counted right. -/
structure Exact (s : Sweep ε) : Prop where
  credited : ∀ table, s.credited table = s.gone table
  batch : match s.phase with
    | .deleting loop before =>
      s.tables.due policy nowMs loop = 0 ∨ before = s.tables.totalRows loop.table
    | .recounting loop before => s.hit = 0 ∨ before = s.tables.totalRows loop.table + s.hit
    | _ => True

theorem Added.gone {s s' : Sweep ε} {table : Table} (h : Added policy nowMs s s' table)
    (other : Table) : s'.gone other = s.gone other := by
  cases other with
  | candles => exact congrArg List.length h.removedCandles
  | audit => exact congrArg List.length h.removedAudit

theorem Added.credited {s s' : Sweep ε} {table : Table} (h : Added policy nowMs s s' table)
    (other : Table) : s'.credited other = s.credited other := by
  rw [Sweep.credited, Sweep.credited, h.phase, h.swept, h.hit]

theorem bounded_start (tables : Tables) : Bounded (start tables : Sweep ε) where
  credited := fun table => by cases table <;> exact le_rfl
  batch := trivial

variable {policy nowMs}

/-- After a tally the sweep is between two batches. -/
theorem tally_idle (s : Sweep ε) (loop : Loop) (before : ℕ) :
    (∃ next, (s.tally loop before).phase = .counting next) ∨
      (s.tally loop before).phase = .finished := by
  rw [Sweep.tally, Loop.after]
  split_ifs
  · cases loop.next with
    | none => exact .inr rfl
    | some next => exact .inl ⟨next, rfl⟩
  · exact .inl ⟨loop, rfl⟩

theorem gone_tally (s : Sweep ε) (loop : Loop) (before : ℕ) (table : Table) :
    (s.tally loop before).gone table = s.gone table := by
  cases table <;> rfl

/-- What a batch that has been counted adds to what the sweep believes. -/
theorem credited_tally (s : Sweep ε) (loop : Loop) (before : ℕ) (table : Table) :
    (s.tally loop before).credited table = s.swept.told table +
      if loop.table = table then max ((before : ℤ) - s.tables.totalRows loop.table) 0 else 0 := by
  have htold : (s.tally loop before).swept.told table = s.swept.told table +
      if loop.table = table then max ((before : ℤ) - s.tables.totalRows loop.table) 0 else 0 :=
    s.swept.told_add _ _ _
  rw [Sweep.credited, htold]
  obtain ⟨next, hnext⟩ | hfinished := tally_idle s loop before
  · rw [hnext, add_zero]
  · rw [hfinished, add_zero]

theorem Bounded.added {s s' : Sweep ε} {table : Table} (h : Bounded s)
    (hadded : Added policy nowMs s s' table) : Bounded s' := by
  obtain ⟨hcredited, hbatch⟩ := h
  refine ⟨fun other => ?_, ?_⟩
  · rw [hadded.credited, hadded.gone]
    exact hcredited other
  · rw [hadded.phase, hadded.hit]
    cases hphase : s.phase with
    | deleting loop before =>
      rw [hphase] at hbatch
      simp only [hadded.totalRows]
      omega
    | recounting loop before =>
      rw [hphase] at hbatch
      simp only [hadded.totalRows]
      omega
    | _ => trivial

theorem Bounded.delete {s : Sweep ε} {loop : Loop} {before : ℕ} (h : Bounded s)
    (hphase : s.phase = .deleting loop before) :
    Bounded (s.delete policy nowMs loop before) := by
  obtain ⟨hcredited, hbatch⟩ := h
  rw [hphase] at hbatch
  simp only [Sweep.credited, hphase, add_zero] at hcredited
  refine ⟨fun table => ?_, ?_⟩
  · have hle := hcredited table
    simp only [Sweep.credited, phase_delete, swept_delete, gone_delete]
    split_ifs <;> omega
  · have htotal := totalRows_delete policy nowMs s loop before loop.table
    rw [if_pos rfl] at htotal
    rw [phase_delete]
    simp only at hbatch ⊢
    omega

theorem Bounded.tally {s : Sweep ε} {loop : Loop} {before : ℕ} (h : Bounded s)
    (hphase : s.phase = .recounting loop before) : Bounded (s.tally loop before) := by
  obtain ⟨hcredited, hbatch⟩ := h
  simp only [Sweep.credited, hphase] at hcredited hbatch
  refine ⟨fun table => ?_, ?_⟩
  · have hle := hcredited table
    rw [credited_tally, gone_tally]
    split_ifs at hle ⊢ <;> omega
  · obtain ⟨next, hnext⟩ | hfinished := tally_idle s loop before
    · rw [hnext]; trivial
    · rw [hfinished]; trivial

theorem Bounded.next {s : Sweep ε} {op : Op ε} (h : Bounded s) (hfresh : op.Fresh policy nowMs)
    (haccepted : Accepted s op) : Bounded ((machine policy nowMs).next s op) := by
  have hmoves := moves_next policy nowMs hfresh haccepted
  generalize (machine policy nowMs).next s op = s' at hmoves
  cases hmoves with
  | rest _ => exact h
  | added hadded _ => exact h.added hadded
  | enter _ hphase =>
    have hcredited := h.credited
    simp only [Sweep.credited, hphase] at hcredited
    exact ⟨hcredited, trivial⟩
  | count _ hphase =>
    have hcredited := h.credited
    simp only [Sweep.credited, hphase] at hcredited
    exact ⟨hcredited, le_rfl⟩
  | delete _ hphase => exact h.delete hphase
  | tally _ hphase => exact h.tally hphase

theorem exact_start (tables : Tables) : Exact policy nowMs (start tables : Sweep ε) where
  credited := fun table => by cases table <;> rfl
  batch := trivial

/-- A row that is added leaves the sweep exact unless it comes between the two counts of a batch
that removes rows. -/
theorem Added.exact_iff {s s' : Sweep ε} {table : Table} (hadded : Added policy nowMs s s' table)
    (h : Bounded s) :
    Exact policy nowMs s' ↔ Exact policy nowMs s ∧ s.Idle policy nowMs table := by
  have hcredited : (∀ other, s'.credited other = s'.gone other) ↔
      ∀ other, s.credited other = s.gone other := by
    simp only [hadded.credited, hadded.gone]
  have hbatch := h.batch
  constructor
  · rintro ⟨hexact, hexactBatch⟩
    rw [hadded.phase] at hexactBatch
    rw [Sweep.Idle]
    cases hphase : s.phase with
    | deleting loop before =>
      simp only [hphase, hadded.totalRows, hadded.due] at hexactBatch hbatch
      refine ⟨⟨hcredited.mp hexact, ?_⟩, fun htable => ?_⟩
      · rw [hphase]
        split_ifs at hexactBatch <;> omega
      · rw [if_pos htable.symm] at hexactBatch
        omega
    | recounting loop before =>
      simp only [hphase, hadded.totalRows, hadded.hit] at hexactBatch hbatch
      refine ⟨⟨hcredited.mp hexact, ?_⟩, fun htable => ?_⟩
      · rw [hphase]
        split_ifs at hexactBatch <;> omega
      · rw [if_pos htable.symm] at hexactBatch
        omega
    | _ => exact ⟨⟨hcredited.mp hexact, by rw [hphase]; trivial⟩, trivial⟩
  · rintro ⟨⟨hexact, hexactBatch⟩, hidle⟩
    refine ⟨hcredited.mpr hexact, ?_⟩
    rw [hadded.phase]
    rw [Sweep.Idle] at hidle
    cases hphase : s.phase with
    | deleting loop before =>
      simp only [hphase, hadded.totalRows, hadded.due] at hexactBatch hidle ⊢
      split_ifs with htable
      · exact .inl (hidle htable.symm)
      · exact hexactBatch
    | recounting loop before =>
      simp only [hphase, hadded.totalRows, hadded.hit] at hexactBatch hidle ⊢
      split_ifs with htable
      · exact .inl (hidle htable.symm)
      · exact hexactBatch
    | _ => trivial

/-- The two counts of a batch surround its `DELETE`. -/
theorem exact_delete_iff {s : Sweep ε} {loop : Loop} {before : ℕ}
    (hphase : s.phase = .deleting loop before) :
    Exact policy nowMs (s.delete policy nowMs loop before) ↔ Exact policy nowMs s := by
  have hcredited (table : Table) :
      (s.delete policy nowMs loop before).credited table =
          (s.delete policy nowMs loop before).gone table ↔
        s.credited table = s.gone table := by
    simp only [Sweep.credited, phase_delete, swept_delete, gone_delete, hphase]
    split_ifs <;> omega
  have htotal := totalRows_delete policy nowMs s loop before loop.table
  have hhit := hit_delete policy nowMs s loop before
  rw [if_pos rfl] at htotal
  rw [batch] at hhit
  constructor
  · rintro ⟨hexact, hbatch⟩
    refine ⟨fun table => (hcredited table).mp (hexact table), ?_⟩
    rw [phase_delete] at hbatch
    rw [hphase]
    simp only at hbatch ⊢
    omega
  · rintro ⟨hexact, hbatch⟩
    refine ⟨fun table => (hcredited table).mpr (hexact table), ?_⟩
    rw [hphase] at hbatch
    rw [phase_delete]
    simp only at hbatch ⊢
    omega

/-- A batch that was counted right is tallied right, and no other is. -/
theorem exact_tally_iff {s : Sweep ε} {loop : Loop} {before : ℕ} (h : Bounded s)
    (hphase : s.phase = .recounting loop before) :
    Exact policy nowMs (s.tally loop before) ↔ Exact policy nowMs s := by
  obtain ⟨hle, hbound⟩ := h
  simp only [Sweep.credited, hphase] at hle hbound
  constructor
  · rintro ⟨hexact, -⟩
    have hself := hexact loop.table
    have hselfLe := hle loop.table
    rw [credited_tally, gone_tally, if_pos rfl] at hself
    rw [if_pos rfl] at hselfLe
    refine ⟨fun table => ?_, ?_⟩
    · have hother := hexact table
      rw [credited_tally, gone_tally] at hother
      simp only [Sweep.credited, hphase]
      split_ifs at hother ⊢ with htable
      · subst htable
        omega
      · exact hother
    · rw [hphase]
      simp only
      omega
  · rintro ⟨hexact, hbatch⟩
    simp only [Sweep.credited, hphase] at hexact hbatch
    refine ⟨fun table => ?_, ?_⟩
    · have hother := hexact table
      rw [credited_tally, gone_tally]
      split_ifs at hother ⊢ <;> omega
    · obtain ⟨next, hnext⟩ | hfinished := tally_idle s loop before
      · rw [hnext]; trivial
      · rw [hfinished]; trivial

/-- **What keeps a sweep exact.** A step leads to an exact state exactly from one, and when it
adds no row to a table between the two counts of a batch that removes rows from it. -/
theorem exact_next_iff {s : Sweep ε} {op : Op ε} (h : Bounded s) (hfresh : op.Fresh policy nowMs)
    (haccepted : Accepted s op) :
    Exact policy nowMs ((machine policy nowMs).next s op) ↔
      Exact policy nowMs s ∧ Undisturbed policy nowMs s op := by
  have hmoves := moves_next policy nowMs hfresh haccepted
  generalize (machine policy nowMs).next s op = s' at hmoves
  cases hmoves with
  | rest hquiet => exact (and_iff_left hquiet).symm
  | added hadded hop => rw [hop]; exact hadded.exact_iff h
  | enter hquiet hphase =>
    rw [and_iff_left hquiet]
    constructor
    · rintro ⟨hexact, -⟩
      refine ⟨fun table => ?_, by rw [hphase]; trivial⟩
      rw [Sweep.credited, hphase]
      exact hexact table
    · rintro ⟨hexact, -⟩
      simp only [Sweep.credited, hphase] at hexact
      exact ⟨hexact, trivial⟩
  | count hquiet hphase =>
    rw [and_iff_left hquiet]
    constructor
    · rintro ⟨hexact, -⟩
      refine ⟨fun table => ?_, by rw [hphase]; trivial⟩
      rw [Sweep.credited, hphase]
      exact hexact table
    · rintro ⟨hexact, -⟩
      simp only [Sweep.credited, hphase] at hexact
      exact ⟨hexact, .inr rfl⟩
  | delete hquiet hphase => rw [and_iff_left hquiet]; exact exact_delete_iff hphase
  | tally hquiet hphase => rw [and_iff_left hquiet]; exact exact_tally_iff h hphase

/-! ### What is left to remove -/

/-- The timeframes whose candles a loop and the loops after it sweep. -/
def Loop.timeframes : Loop → List ℤ
  | .candles tfMs rest => tfMs :: rest
  | .audit => []

/-- The sweep has still to get to the candles of a timeframe. -/
def Phase.Covers : Phase ε → ℤ → Prop
  | .timeframes, _ => True
  | .counting loop, tfMs => tfMs ∈ loop.timeframes
  | .deleting loop _, tfMs => tfMs ∈ loop.timeframes
  | .recounting loop _, tfMs => tfMs ∈ loop.timeframes
  | .finished, _ => False
  | .failed _, _ => True

variable (policy nowMs) in
/-- Whatever has expired is still ahead of the sweep. -/
structure Ahead (s : Sweep ε) : Prop where
  candles : ∀ row ∈ s.tables.candles, row.Expired policy nowMs → s.phase.Covers row.tfMs
  audit : ∀ row ∈ s.tables.audit, row.Expired policy nowMs → s.phase ≠ .finished
  drained : ∀ loop before, s.phase = .recounting loop before → s.hit < batch →
    s.tables.due policy nowMs loop = 0

/-- A sweep that is neither finished nor about to recount has only its candles to cover. -/
theorem ahead_of_candles {s : Sweep ε} (hfinished : s.phase ≠ .finished)
    (hrecounting : ∀ loop before, s.phase ≠ .recounting loop before)
    (h : ∀ row ∈ s.tables.candles, row.Expired policy nowMs → s.phase.Covers row.tfMs) :
    Ahead policy nowMs s where
  candles := h
  audit := fun _ _ _ => hfinished
  drained := fun loop before hphase => absurd hphase (hrecounting loop before)

theorem ahead_start (tables : Tables) : Ahead policy nowMs (start tables : Sweep ε) :=
  ahead_of_candles nofun nofun fun _ _ _ => trivial

theorem timeframes_over (rest : List ℤ) : (Loop.over rest).timeframes = rest := by
  cases rest <;> rfl

theorem mem_distinctTimeframes {tables : Tables} {row : CandleRow} (h : row ∈ tables.candles) :
    row.tfMs ∈ tables.distinctTimeframes := by
  rw [Tables.distinctTimeframes, List.mem_insertionSort, List.mem_dedup]
  exact List.mem_map_of_mem h

/-- A loop that leaves none of its rows is left behind, and its rows with it. -/
theorem Ahead.after {s : Sweep ε} {loop : Loop} {before : ℕ} (h : Ahead policy nowMs s)
    (hphase : s.phase = .recounting loop before) (hdue : s.tables.due policy nowMs loop = 0) :
    (∀ row ∈ s.tables.candles, row.Expired policy nowMs →
        ∃ next, loop.next = some next ∧ row.tfMs ∈ next.timeframes) ∧
      ∀ row ∈ s.tables.audit, row.Expired policy nowMs → ∃ next, loop.next = some next := by
  have hcandles := h.candles
  rw [hphase] at hcandles
  cases loop with
  | candles tfMs rest =>
    refine ⟨fun row hrow hexpired => ⟨.over rest, rfl, ?_⟩, fun _ _ _ => ⟨.over rest, rfl⟩⟩
    rw [timeframes_over]
    obtain heq | hrest := List.mem_cons.mp (hcandles row hrow hexpired)
    · have hmiss := List.countP_eq_zero.mp hdue row hrow
      exact absurd ((CandleRow.hit_iff policy nowMs).mpr ⟨heq, hexpired⟩) hmiss
    · exact hrest
  | audit =>
    refine ⟨fun row hrow hexpired => absurd (hcandles row hrow hexpired) List.not_mem_nil, ?_⟩
    intro row hrow hexpired
    have hmiss := List.countP_eq_zero.mp hdue row hrow
    exact absurd ((AuditRow.hit_iff policy nowMs).mpr hexpired) hmiss

theorem Ahead.added {s s' : Sweep ε} {table : Table} (h : Ahead policy nowMs s)
    (hadded : Added policy nowMs s s' table) : Ahead policy nowMs s' := by
  constructor
  · intro row hrow hexpired
    rw [hadded.phase]
    exact h.candles row (hadded.candles row hrow hexpired) hexpired
  · intro row hrow hexpired
    rw [hadded.phase]
    exact h.audit row (hadded.audit row hrow hexpired) hexpired
  · rw [hadded.phase, hadded.hit]
    intro loop before hphase hshort
    rw [hadded.due]
    exact h.drained loop before hphase hshort

theorem Ahead.delete {s : Sweep ε} {loop : Loop} {before : ℕ} (h : Ahead policy nowMs s)
    (hphase : s.phase = .deleting loop before) :
    Ahead policy nowMs (s.delete policy nowMs loop before) := by
  have hcandles := h.candles
  rw [hphase] at hcandles
  obtain ⟨hmem, -⟩ := mem_delete policy nowMs s loop before
  constructor
  · intro row hrow hexpired
    rw [phase_delete]
    exact hcandles row (hmem row hrow) hexpired
  · intro row _ _
    rw [phase_delete]
    exact nofun
  · intro other count hother hshort
    rw [phase_delete] at hother
    obtain ⟨rfl, -⟩ := Phase.recounting.inj hother
    rw [due_delete]
    rw [hit_delete] at hshort
    omega

/-- An exact batch believes what it removed, so a short one has left nothing behind. -/
theorem Ahead.tally {s : Sweep ε} {loop : Loop} {before : ℕ} (h : Ahead policy nowMs s)
    (hbounded : Bounded s) (hexact : Exact policy nowMs s)
    (hphase : s.phase = .recounting loop before) : Ahead policy nowMs (s.tally loop before) := by
  obtain ⟨-, hbound⟩ := hbounded
  obtain ⟨-, hbatch⟩ := hexact
  simp only [hphase] at hbound hbatch
  have hcandles := h.candles
  rw [hphase] at hcandles
  rw [Sweep.tally, Loop.after]
  split_ifs with hshort
  · have hdue : s.tables.due policy nowMs loop = 0 := by
      refine h.drained loop before hphase ?_
      omega
    obtain ⟨hcandlesNext, hauditNext⟩ := h.after hphase hdue
    cases hnext : loop.next with
    | none =>
      rw [hnext] at hcandlesNext hauditNext
      constructor
      · intro row hrow hexpired
        obtain ⟨next, hsome, -⟩ := hcandlesNext row hrow hexpired
        cases hsome
      · intro row hrow hexpired
        obtain ⟨next, hsome⟩ := hauditNext row hrow hexpired
        cases hsome
      · exact nofun
    | some next =>
      rw [hnext] at hcandlesNext
      refine ahead_of_candles nofun nofun fun row hrow hexpired => ?_
      obtain ⟨other, hsome, hmem⟩ := hcandlesNext row hrow hexpired
      obtain rfl := Option.some.inj hsome
      exact hmem
  · exact ahead_of_candles nofun nofun hcandles

theorem Ahead.next {s : Sweep ε} {op : Op ε} (h : Ahead policy nowMs s) (hbounded : Bounded s)
    (hexact : Exact policy nowMs s) (hfresh : op.Fresh policy nowMs) (haccepted : Accepted s op) :
    Ahead policy nowMs ((machine policy nowMs).next s op) := by
  have hmoves := moves_next policy nowMs hfresh haccepted
  generalize (machine policy nowMs).next s op = s' at hmoves
  cases hmoves with
  | rest _ => exact h
  | added hadded _ => exact h.added hadded
  | enter _ hphase =>
    refine ahead_of_candles nofun nofun fun row hrow _ => ?_
    change row.tfMs ∈ (Loop.over s.tables.distinctTimeframes).timeframes
    rw [timeframes_over]
    exact mem_distinctTimeframes hrow
  | count _ hphase =>
    have hcandles := h.candles
    rw [hphase] at hcandles
    exact ahead_of_candles nofun nofun hcandles
  | delete _ hphase => exact h.delete hphase
  | tally _ hphase => exact h.tally hbounded hexact hphase

/-! ### The whole sweep -/

/-- A statement that is refused ends the sweep, so none is in a run that ends well. -/
theorem along_accepted {s : Sweep ε} {ops : List (Op ε)} {swept : Swept}
    (h : ((machine policy nowMs).run s ops).answer = some (.ok swept)) :
    (machine policy nowMs).Along Accepted s ops := by
  have hstays (e : ε) (s : Sweep ε) (op : Op ε) (hs : s.phase = .failed e) :
      ((machine policy nowMs).next s op).phase = .failed e := by
    have hanswer : s.answer = some (.error e) := by rw [Sweep.answer, hs]
    change (step policy nowMs s op).1.phase = _
    fun_cases step policy nowMs s op with
    | case1 => exact hs
    | case2 => exact hs
    | case3 => rw [Sweep.statement, hs]; exact hs
    | case4 _ hnone => rw [hanswer] at hnone; cases hnone
    | case5 => exact hs
  induction ops generalizing s with
  | nil => trivial
  | cons op ops ih =>
    refine ⟨?_, ih h⟩
    cases op with
    | sweep refused =>
      cases refused with
      | none => trivial
      | some e =>
        intro hnone
        have hfailed : ((machine policy nowMs).next s (.sweep (some e))).phase = .failed e := by
          change (step policy nowMs s (.sweep (some e))).1.phase = _
          rw [step, hnone]
        have hend := Machine.run_invariant (hstays e) hfailed ops
        rw [Machine.run_cons, Sweep.answer, hend] at h
        cases h
    | _ => trivial

/-- The rows removed so far had expired. -/
theorem removed_next {s : Sweep ε} {op : Op ε} (hfresh : op.Fresh policy nowMs)
    (haccepted : Accepted s op)
    (h : (∀ row ∈ s.removedCandles, row.Expired policy nowMs) ∧
      ∀ row ∈ s.removedAudit, row.Expired policy nowMs) :
    (∀ row ∈ ((machine policy nowMs).next s op).removedCandles, row.Expired policy nowMs) ∧
      ∀ row ∈ ((machine policy nowMs).next s op).removedAudit, row.Expired policy nowMs := by
  have hmoves := moves_next policy nowMs hfresh haccepted
  generalize (machine policy nowMs).next s op = s' at hmoves
  cases hmoves with
  | added hadded _ => rwa [hadded.removedCandles, hadded.removedAudit]
  | @delete _ loop before _ =>
    obtain ⟨-, -, hcandles, haudit⟩ := mem_delete policy nowMs s loop before
    exact ⟨fun row hrow => (hcandles row hrow).elim (h.1 row) id,
      fun row hrow => (haudit row hrow).elim (h.2 row) id⟩
  | _ => exact h

variable (policy nowMs) in
/-- What a sweep that began on these tables is to have done when it returns. -/
structure SweptExactly (tables : Tables) (s : Sweep ε) (swept : Swept) : Prop where
  /-- Every row that had expired at the start is gone. -/
  goneCandles : ∀ row ∈ tables.candles, row.Expired policy nowMs → row ∉ s.tables.candles
  goneAudit : ∀ row ∈ tables.audit, row.Expired policy nowMs → row ∉ s.tables.audit
  /-- No fresh row was removed. -/
  removedCandles : ∀ row ∈ s.removedCandles, row.Expired policy nowMs
  removedAudit : ∀ row ∈ s.removedAudit, row.Expired policy nowMs
  /-- What it says it removed is what it removed. -/
  candles : swept.candles = s.removedCandles.length
  audit : swept.audit = s.removedAudit.length

/-- A sweep that has returned Ok. -/
theorem of_answer_ok {s : Sweep ε} {swept : Swept} (h : s.answer = some (.ok swept)) :
    s.phase = .finished ∧ s.swept = swept := by
  rw [Sweep.answer] at h
  split at h
  · next hphase => exact ⟨hphase, Except.ok.inj (Option.some.inj h)⟩
  · cases h
  · cases h

/-- A finished sweep is exact when what it says it removed is what it removed. -/
theorem exact_iff_of_finished {s : Sweep ε} (hphase : s.phase = .finished) :
    Exact policy nowMs s ↔
      s.swept.candles = s.removedCandles.length ∧ s.swept.audit = s.removedAudit.length := by
  constructor
  · rintro ⟨hcredited, -⟩
    simp only [Sweep.credited, hphase, add_zero] at hcredited
    exact ⟨hcredited .candles, hcredited .audit⟩
  · rintro ⟨hcandles, haudit⟩
    refine ⟨fun table => ?_, ?_⟩
    · rw [Sweep.credited, hphase, add_zero]
      cases table with
      | candles => exact hcandles
      | audit => exact haudit
    · rw [hphase]
      trivial

variable (policy nowMs) in
/-- **When a sweep among other producers is right.** For all tables and every interleaving of a
sweep that returns Ok with inserts of fresh rows: everything that had expired at the start is gone,
nothing fresh was removed and the counts are the numbers of rows removed, if and only if no row was
added to a table between the two counts of a batch that removed rows from it. -/
theorem swept_exactly_iff (tables : Tables) (ops : List (Op ε)) {swept : Swept}
    (hfresh : ∀ op ∈ ops, op.Fresh policy nowMs)
    (hdone : ((machine policy nowMs).run (start tables) ops).answer = some (.ok swept)) :
    SweptExactly policy nowMs tables ((machine policy nowMs).run (start tables) ops) swept ↔
      (machine policy nowMs).Along (Undisturbed policy nowMs) (start tables) ops := by
  have hguard : (machine policy nowMs).Along
      (fun s op => op.Fresh policy nowMs ∧ Accepted s op) (start tables) ops :=
    Machine.along_and.mpr ⟨Machine.along_of_forall_mem hfresh _, along_accepted hdone⟩
  have hiff := Machine.Along.run_iff (Exact policy nowMs)
    (fun _ _ hop h => Bounded.next h hop.1 hop.2)
    (fun _ _ hop h => exact_next_iff h hop.1 hop.2) hguard (bounded_start tables)
  obtain ⟨hphase, rfl⟩ := of_answer_ok hdone
  rw [and_iff_right (exact_start tables), exact_iff_of_finished hphase] at hiff
  constructor
  · -- the counts alone say that nothing was missed
    exact fun h => hiff.mp ⟨h.candles, h.audit⟩
  · intro h
    obtain ⟨hcandles, haudit⟩ := hiff.mpr h
    obtain ⟨-, -, hahead⟩ := Machine.Along.run_invariant
      (P := fun s op => (op.Fresh policy nowMs ∧ Accepted s op) ∧ Undisturbed policy nowMs s op)
      (I := fun s => Bounded s ∧ Exact policy nowMs s ∧ Ahead policy nowMs s)
      (fun s op hop hs =>
        ⟨hs.1.next hop.1.1 hop.1.2, (exact_next_iff hs.1 hop.1.1 hop.1.2).mpr ⟨hs.2.1, hop.2⟩,
          hs.2.2.next hs.1 hs.2.1 hop.1.1 hop.1.2⟩)
      (Machine.along_and.mpr ⟨hguard, h⟩)
      ⟨bounded_start tables, exact_start tables, ahead_start tables⟩
    obtain ⟨hremovedCandles, hremovedAudit⟩ := Machine.Along.run_invariant
      (fun _ _ hop => removed_next hop.1 hop.2) hguard
      ⟨fun _ hrow => absurd hrow List.not_mem_nil, fun _ hrow => absurd hrow List.not_mem_nil⟩
    refine ⟨fun row _ hexpired hmem => ?_, fun row _ hexpired hmem => ?_, hremovedCandles,
      hremovedAudit, hcandles, haudit⟩
    · have hcovers := hahead.candles row hmem hexpired
      rw [hphase] at hcovers
      exact hcovers
    · exact hahead.audit row hmem hexpired hphase

/-! ### A candle that closes during a sweep -/

/-- One minute of the year 1970, long expired. -/
def oldMinute : Tables := ⟨[⟨"binance", "linear_perp", "BTCUSDT", 60000, 0⟩], [], 0⟩

/-- A minute that is not. -/
def newMinute : Op Unit :=
  .upsertCandle ⟨"binance", "linear_perp", "BTCUSDT", 60000, 1700000000000⟩ 0

/-- The new minute is written before the sweep counts. -/
def quietSweep : List (Op Unit) := newMinute :: List.replicate 7 (.sweep none)

/-- It is written after the `DELETE` and before the second count. -/
def racedSweep : List (Op Unit) :=
  List.replicate 3 (.sweep none) ++ newMinute :: List.replicate 4 (.sweep none)

theorem swept_exactly_quiet :
    SweptExactly default 1700000000000 oldMinute
      ((machine default 1700000000000).run (start oldMinute) quietSweep) ⟨1, 0, 2⟩ :=
  (swept_exactly_iff default 1700000000000 oldMinute quietSweep (by decide) (by decide)).mpr
    (by decide)

/-- The row is removed, and the sweep says that none was. -/
theorem not_swept_exactly_raced :
    (∀ op ∈ racedSweep, op.Fresh default 1700000000000) ∧
      ((machine default 1700000000000).run (start oldMinute) racedSweep).answer =
        some (.ok ⟨0, 0, 2⟩) ∧
      ¬ SweptExactly default 1700000000000 oldMinute
        ((machine default 1700000000000).run (start oldMinute) racedSweep) ⟨0, 0, 2⟩ := by
  refine ⟨by decide, by decide, fun h => absurd h.candles (by decide)⟩

end

end Retention

end MoonCore
