import Mathlib.Data.List.Perm.Basic
import MoonCore.Storage.Orders

/-!
# What reconciliation starts from

`storage::read::unresolved_orders`, read on whatever the store has made durable.

`Ledger` is what the recording calls say about each order: the status last recorded for it and
when it was created. `Matches` ties the `orders` table to it row by row, every call keeps the tie
(`Matches.next`), and the query answers from the ledger (`Matches.unresolvedOrders`). The names on
disk enter once, in `statusOf_unresolved_iff`.
-/

namespace MoonCore

variable {D : Type*}

namespace Orders

/-- The statuses the query leaves out, by name. -/
def resolved : List String := ["filled", "canceled", "rejected", "expired"]

/-- `SELECT client_id FROM orders WHERE status NOT IN (…) ORDER BY created_at`. SQLite fixes
neither the order of its scan nor that of rows created at the same time: `scan` is the table in
any order, and the sort is stable. -/
def unresolvedOrders (scan : Orders D) : List String :=
  ((scan.filter fun row => row.status ∉ resolved).mergeSort fun row other =>
    row.createdAt ≤ other.createdAt).map OrderRow.clientId

/-- The query keeps the names of the open statuses. -/
theorem statusOf_unresolved_iff (s : OrderStatus) : statusOf s ∉ resolved ↔ s.isOpen := by
  have hterminal : statusOf s ∈ resolved ↔ s.isTerminal := by
    cases s <;> decide
  rw [hterminal, s.isOpen_eq_not_isTerminal, Bool.not_eq_true', Bool.not_eq_true]

end Orders

/-- The order a call is about. -/
def OrderCall.clientId : OrderCall D → String
  | .recordIntent order _ _ => order.clientId
  | .recordUpdate order _ => order.clientId
  | .recordNeverPlaced clientId _ => clientId

/-! ### What the calls say about each order -/

/-- What is known of an order. -/
structure Known where
  status : OrderStatus
  createdAt : ℤ

/-- What is known of every order, by client id. -/
abbrev Ledger := String → Option Known

namespace Ledger

/-- What is known after a call: an intent starts an order unless it is known already, a report
replaces the status of a known one, and a resolution rejects a pending one. -/
def after (ledger : Ledger) : OrderCall D → Ledger
  | .recordIntent order _ nowMs => fun clientId =>
    (ledger clientId).or (if order.clientId = clientId then some ⟨.pending, nowMs⟩ else none)
  | .recordUpdate order _ => fun clientId => (ledger clientId).map fun known =>
    if clientId = order.clientId then { known with status := order.status } else known
  | .recordNeverPlaced other _ => fun clientId => (ledger clientId).map fun known =>
    if clientId = other ∧ known.status = .pending then { known with status := .rejected }
    else known

/-- What is known after a history of calls. -/
def history (calls : List (OrderCall D)) : Ledger :=
  calls.foldl after fun _ => none

/-- A call about another order changes nothing. -/
theorem after_of_ne (ledger : Ledger) {call : OrderCall D} {clientId : String}
    (h : call.clientId ≠ clientId) : ledger.after call clientId = ledger clientId := by
  cases call with
  | recordIntent order coreUid nowMs =>
    have hne : ¬ order.clientId = clientId := h
    simp only [after, if_neg hne, Option.or_none]
  | recordUpdate order nowMs =>
    have hne : ¬ clientId = order.clientId := fun heq => h heq.symm
    simp only [after, if_neg hne, Option.map_id_fun', id]
  | recordNeverPlaced other nowMs =>
    have hne : ¬ clientId = other := fun heq => h heq.symm
    simp only [after, hne, false_and, if_false, Option.map_id_fun', id]

/-- An intent for a known order is refused. -/
theorem after_recordIntent_of_known {ledger : Ledger} {clientId : String} {known : Known}
    (h : ledger clientId = some known) (order : NewOrder D) (coreUid nowMs : ℤ) :
    ledger.after (.recordIntent order coreUid nowMs) clientId = some known := by
  simp only [after, h, Option.some_or]

/-- An intent makes its order known as pending, unless it was known already. -/
theorem after_recordIntent_self (ledger : Ledger) (order : NewOrder D) (coreUid nowMs : ℤ) :
    ledger.after (.recordIntent order coreUid nowMs) order.clientId =
      (ledger order.clientId).or (some ⟨.pending, nowMs⟩) := by
  simp only [after, if_true]

/-- Calls that name an order in no other way than its intent leave it pending from the intent
on. -/
theorem foldl_after_of_intent {order : NewOrder D} {coreUid nowMs : ℤ}
    {calls : List (OrderCall D)} {ledger : Ledger}
    (honly : ∀ call ∈ calls, call.clientId = order.clientId →
      call = .recordIntent order coreUid nowMs)
    (h : ledger order.clientId = some ⟨.pending, nowMs⟩ ∨
      ledger order.clientId = none ∧ .recordIntent order coreUid nowMs ∈ calls) :
    calls.foldl after ledger order.clientId = some ⟨.pending, nowMs⟩ := by
  induction calls generalizing ledger with
  | nil => exact h.resolve_right fun hnone => List.not_mem_nil hnone.2
  | cons call calls ih =>
    refine ih (fun other hother => honly other (List.mem_cons_of_mem _ hother)) ?_
    by_cases hid : call.clientId = order.clientId
    · rw [honly call List.mem_cons_self hid, after_recordIntent_self]
      obtain hknown | ⟨hnone, -⟩ := h
      · exact .inl (by rw [hknown, Option.some_or])
      · exact .inl (by rw [hnone, Option.none_or])
    · rw [after_of_ne ledger hid]
      refine h.imp_right fun ⟨hnone, hmem⟩ => ⟨hnone, ?_⟩
      obtain heq | hrest := List.mem_cons.mp hmem
      · exact absurd (congrArg OrderCall.clientId heq).symm hid
      · exact hrest

end Ledger

namespace Orders

/-- The table holds one row for each known order, with its status and its time of creation. -/
structure Matches (table : Orders D) (ledger : Ledger) : Prop where
  keys : (table.map OrderRow.clientId).Nodup
  rows : ∀ row ∈ table, ∃ known, ledger row.clientId = some known ∧
    row.status = statusOf known.status ∧ row.createdAt = known.createdAt
  stored : ∀ clientId known, ledger clientId = some known →
    ∃ row ∈ table, row.clientId = clientId

namespace Matches

variable {table : Orders D} {ledger : Ledger}

theorem nil : Matches ([] : Orders D) fun _ => none where
  keys := List.nodup_nil
  rows := fun _ hrow => absurd hrow List.not_mem_nil
  stored := fun _ _ h => by cases h

/-- An update of the rows, and the same update of what is known. -/
theorem update (h : Matches table ledger) {set : OrderRow D → OrderRow D}
    {hit : OrderRow D → Prop} [DecidablePred hit] {change : String → Known → Known}
    (hkey : ∀ row, (set row).clientId = row.clientId)
    (hchange : ∀ row known, row.status = statusOf known.status →
      row.createdAt = known.createdAt →
        (if hit row then set row else row).status =
            statusOf (change row.clientId known).status ∧
          (if hit row then set row else row).createdAt =
            (change row.clientId known).createdAt) :
    Matches (table.update set hit) fun clientId => (ledger clientId).map (change clientId) := by
  have hsame (row : OrderRow D) : (if hit row then set row else row).clientId = row.clientId := by
    split_ifs
    · exact hkey row
    · rfl
  constructor
  · rw [Orders.update, List.map_map]
    have hcomp : OrderRow.clientId ∘ (fun row => if hit row then set row else row) =
        OrderRow.clientId := funext hsame
    rw [hcomp]
    exact h.keys
  · intro row hrow
    obtain ⟨old, hold, rfl⟩ := List.mem_map.mp hrow
    obtain ⟨known, hknown, hstatus, hcreated⟩ := h.rows old hold
    refine ⟨change old.clientId known, ?_, hchange old known hstatus hcreated⟩
    rw [hsame, hknown, Option.map_some]
  · intro clientId known hknown
    obtain ⟨old, hold, -⟩ := Option.map_eq_some_iff.mp hknown
    obtain ⟨row, hrow, hid⟩ := h.stored clientId old hold
    exact ⟨_, List.mem_map_of_mem hrow, (hsame row).trans hid⟩

variable [Zero D]

/-- The row of an order that is not known yet. -/
theorem push (h : Matches table ledger) {order : NewOrder D} (coreUid nowMs : ℤ)
    (hfresh : ∀ row ∈ table, row.clientId ≠ order.clientId) :
    Matches (table ++ [order.row coreUid nowMs])
      (ledger.after (.recordIntent order coreUid nowMs)) := by
  have hunknown : ledger order.clientId = none := by
    rw [Option.eq_none_iff_forall_ne_some]
    intro known hknown
    obtain ⟨row, hrow, hid⟩ := h.stored _ _ hknown
    exact hfresh row hrow hid
  constructor
  · rw [List.map_append, List.nodup_append]
    refine ⟨h.keys, List.nodup_singleton _, ?_⟩
    intro clientId hmem other hother
    obtain ⟨row, hrow, rfl⟩ := List.mem_map.mp hmem
    rw [List.map_singleton, List.mem_singleton] at hother
    rw [hother]
    exact hfresh row hrow
  · intro row hrow
    obtain hold | hnew := List.mem_append.mp hrow
    · obtain ⟨known, hknown, hrest⟩ := h.rows row hold
      exact ⟨known, Ledger.after_recordIntent_of_known hknown order coreUid nowMs, hrest⟩
    · rw [List.mem_singleton] at hnew
      subst hnew
      refine ⟨⟨.pending, nowMs⟩, ?_, rfl, rfl⟩
      exact (ledger.after_recordIntent_self order coreUid nowMs).trans (by rw [hunknown]; rfl)
  · intro clientId known hknown
    by_cases hid : order.clientId = clientId
    · exact ⟨_, List.mem_append_right _ (List.mem_singleton_self _), hid⟩
    · have hne : (OrderCall.recordIntent order coreUid nowMs).clientId ≠ clientId := hid
      rw [ledger.after_of_ne hne] at hknown
      obtain ⟨row, hrow, hrowId⟩ := h.stored clientId known hknown
      exact ⟨row, List.mem_append_left _ hrow, hrowId⟩

/-- An accepted intent is a new row, and a refused one was known already. -/
theorem recordIntent (h : Matches table ledger) (order : NewOrder D) (coreUid nowMs : ℤ) :
    Matches (machine.next table (.recordIntent order coreUid nowMs))
      (ledger.after (.recordIntent order coreUid nowMs)) := by
  rw [next_recordIntent]
  split_ifs with htaken
  · obtain ⟨row, hrow, hid⟩ := List.any_eq_true.mp htaken
    obtain ⟨known, hknown, -⟩ := h.rows row hrow
    have hsame : ledger.after (.recordIntent order coreUid nowMs) = ledger := by
      funext clientId
      by_cases hne : order.clientId = clientId
      · have hrowId : row.clientId = clientId := (of_decide_eq_true hid).trans hne
        rw [hrowId] at hknown
        rw [hknown, Ledger.after_recordIntent_of_known hknown]
      · exact ledger.after_of_ne hne
    rw [hsame]
    exact h
  · exact h.push coreUid nowMs fun row hrow hid =>
      htaken (List.any_eq_true.mpr ⟨row, hrow, decide_eq_true hid⟩)

/-- Every call keeps the table and what is known together. -/
theorem next (h : Matches table ledger) (call : OrderCall D) :
    Matches (machine.next table call) (ledger.after call) := by
  cases call with
  | recordIntent order coreUid nowMs => exact h.recordIntent order coreUid nowMs
  | recordUpdate order nowMs =>
    refine h.update (OrderRow.report_clientId order nowMs) fun row known hstatus hcreated => ?_
    by_cases hid : row.clientId = order.clientId
    · simp only [if_pos hid]
      exact ⟨rfl, hcreated⟩
    · simp only [if_neg hid]
      exact ⟨hstatus, hcreated⟩
  | recordNeverPlaced other nowMs =>
    refine h.update (OrderRow.reject_clientId nowMs) fun row known hstatus hcreated => ?_
    have hpending : row.status = "pending" ↔ known.status = .pending := by
      rw [hstatus]
      exact statusOf_injective.eq_iff (b := .pending)
    by_cases hhit : row.clientId = other ∧ known.status = .pending
    · have hrow : row.clientId = other ∧ row.status = "pending" := ⟨hhit.1, hpending.mpr hhit.2⟩
      simp only [if_pos hhit, if_pos hrow]
      exact ⟨rfl, hcreated⟩
    · have hrow : ¬ (row.clientId = other ∧ row.status = "pending") := fun hrow =>
        hhit ⟨hrow.1, hpending.mp hrow.2⟩
      simp only [if_neg hhit, if_neg hrow]
      exact ⟨hstatus, hcreated⟩

theorem run (h : Matches table ledger) (calls : List (OrderCall D)) :
    Matches (machine.run table calls) (calls.foldl Ledger.after ledger) := by
  induction calls generalizing table ledger with
  | nil => exact h
  | cons call calls ih => exact ih (h.next call)

end Matches

/-- What the query answers: the orders known to be open, each once, oldest first. -/
structure Reconciles (ledger : Ledger) (found : List String) : Prop where
  nodup : found.Nodup
  mem_iff : ∀ clientId, clientId ∈ found ↔
    ∃ known, ledger clientId = some known ∧ known.status.isOpen
  order : found.Pairwise fun clientId other => ∀ known later,
    ledger clientId = some known → ledger other = some later → known.createdAt ≤ later.createdAt

/-- The scan may visit the rows in any order. -/
theorem Matches.perm {table scan : Orders D} {ledger : Ledger} (h : Matches table ledger)
    (hscan : scan.Perm table) : Matches scan ledger where
  keys := (hscan.map OrderRow.clientId).nodup_iff.mpr h.keys
  rows := fun row hrow => h.rows row (hscan.mem_iff.mp hrow)
  stored := fun clientId known hknown => by
    obtain ⟨row, hrow, hid⟩ := h.stored clientId known hknown
    exact ⟨row, hscan.mem_iff.mpr hrow, hid⟩

/-- The query answers from what is known. -/
theorem Matches.unresolvedOrders {scan : Orders D} {ledger : Ledger} (h : Matches scan ledger) :
    Reconciles ledger (unresolvedOrders scan) := by
  have hmem (row : OrderRow D) :
      row ∈ ((scan.filter fun row => row.status ∉ resolved).mergeSort fun row other =>
        row.createdAt ≤ other.createdAt) ↔ row ∈ scan ∧ row.status ∉ resolved := by
    rw [List.mem_mergeSort, List.mem_filter, decide_eq_true_iff]
  constructor
  · have hperm := List.mergeSort_perm (scan.filter fun row => row.status ∉ resolved)
      fun row other => row.createdAt ≤ other.createdAt
    rw [Orders.unresolvedOrders, (hperm.map OrderRow.clientId).nodup_iff]
    exact h.keys.sublist (List.filter_sublist.map _)
  · intro clientId
    rw [Orders.unresolvedOrders, List.mem_map]
    constructor
    · rintro ⟨row, hrow, rfl⟩
      obtain ⟨hscan, hopen⟩ := (hmem row).mp hrow
      obtain ⟨known, hknown, hstatus, -⟩ := h.rows row hscan
      rw [hstatus, statusOf_unresolved_iff] at hopen
      exact ⟨known, hknown, hopen⟩
    · rintro ⟨known, hknown, hopen⟩
      obtain ⟨row, hscan, rfl⟩ := h.stored clientId known hknown
      obtain ⟨same, hsame, hstatus, -⟩ := h.rows row hscan
      obtain rfl : known = same := Option.some.inj (hknown.symm.trans hsame)
      refine ⟨row, (hmem row).mpr ⟨hscan, ?_⟩, rfl⟩
      rw [hstatus, statusOf_unresolved_iff]
      exact hopen
  · have hsorted := @List.pairwise_mergeSort (OrderRow D)
      (fun row other => decide (row.createdAt ≤ other.createdAt))
      (fun a b c hab hbc => decide_eq_true
        ((of_decide_eq_true hab).trans (of_decide_eq_true hbc)))
      (fun a b => by simpa using Int.le_total a.createdAt b.createdAt)
      (scan.filter fun row => row.status ∉ resolved)
    rw [Orders.unresolvedOrders, List.pairwise_map]
    refine hsorted.imp_of_mem fun {row other} hrow hother hle known later hknown hlater => ?_
    obtain ⟨first, hfirst, -, hcreated⟩ := h.rows row ((hmem row).mp hrow).1
    obtain ⟨second, hsecond, -, hafter⟩ := h.rows other ((hmem other).mp hother).1
    obtain rfl : known = first := Option.some.inj (hknown.symm.trans hfirst)
    obtain rfl : later = second := Option.some.inj (hlater.symm.trans hsecond)
    rw [← hcreated, ← hafter]
    exact of_decide_eq_true hle

end Orders

/-! ### At every crash point -/

/-- **Reconciliation finds every open order.** For every run of the store, on a database that
earlier lives of the program left behind: whenever the process dies, the query finds on what is
durable exactly the orders whose last committed status is open, each once and oldest first,
however the table is scanned. An order whose intent was answered Ok is among them as long as
nothing else about it has committed. -/
theorem Store.reconciliation [Zero D] (earlier : List (OrderCall D))
    (calls : List (Call (OrderCall D) Constraint)) (scan : Orders D) :
    let store := (machine OrderCall.exec).run (start (Orders.machine.run [] earlier)) calls
    let history := earlier ++ (confirmed store.settled).flatMap Job.writes
    scan.Perm store.connection.committed →
      Orders.Reconciles (Ledger.history history) (Orders.unresolvedOrders scan) ∧
        ∀ job order coreUid nowMs, (job, .ok ()) ∈ store.acked →
          .recordIntent order coreUid nowMs ∈ job.writes →
          (∀ call ∈ history, call.clientId = order.clientId →
            call = .recordIntent order coreUid nowMs) →
          order.clientId ∈ Orders.unresolvedOrders scan := by
  intro store history hscan
  have hrun : store.connection.committed = Orders.machine.run [] history := by
    rw [Machine.run_append]
    exact Store.committed_eq_run (Orders.machine.run [] earlier) calls
  have hmatches : Orders.Matches scan (Ledger.history history) := by
    rw [hrun] at hscan
    exact (Orders.Matches.nil.run history).perm hscan
  refine ⟨hmatches.unresolvedOrders, ?_⟩
  intro job order coreUid nowMs hacked hintent honly
  have hjob : job ∈ confirmed store.settled :=
    List.mem_map_of_mem (List.mem_filter.mpr ⟨(acked_prefix_settled store).subset hacked, rfl⟩)
  have hmem : .recordIntent order coreUid nowMs ∈ history :=
    List.mem_append_right _ (List.mem_flatMap.mpr ⟨job, hjob, hintent⟩)
  exact (hmatches.unresolvedOrders.mem_iff order.clientId).mpr
    ⟨_, Ledger.foldl_after_of_intent honly (.inr ⟨rfl, hmem⟩), rfl⟩

namespace Store

/-- An order is recorded, and the process dies before anything reaches the venue. -/
def killedBeforeSend : List (Call (OrderCall ℤ) Constraint) :=
  [.write [.recordIntent Orders.limitBuy 0 0], .writer .calm, .writer .calm, .writer .calm]

/-- The next start finds it. -/
theorem reconciliation_killedBeforeSend :
    "c-1" ∈ Orders.unresolvedOrders
      ((machine OrderCall.exec).run (start []) killedBeforeSend).connection.committed :=
  (Store.reconciliation [] killedBeforeSend _ (List.Perm.refl _)).2
    ⟨0, [.recordIntent Orders.limitBuy 0 0]⟩ Orders.limitBuy 0 0 (List.mem_singleton_self _)
    (List.mem_singleton_self _) fun _ hcall _ => List.mem_singleton.mp hcall

end Store

end MoonCore
