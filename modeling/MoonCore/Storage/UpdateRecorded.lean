import MoonCore.Storage.Orders

/-!
# What an acknowledged update has recorded

`record_update` waits for the commit of one UPDATE and passes on its answer. The UPDATE says how
many rows it matched, the commit drops the count, and an update of an order that has no row is
answered like any other. `Orders.recordUpdate_iff` says for which orders an Ok can be relied on.
-/

namespace MoonCore

variable {D : Type*}

namespace Orders

/-- The table has a row for the client id. -/
def Holds (clientId : String) (table : Orders D) : Prop :=
  ∃ row ∈ table, row.clientId = clientId

/-- A report is on record: a row of the order says exactly what was reported, at the revision after
the one it had. -/
def Recorded (order : Order D) (before after : Orders D) : Prop :=
  ∃ old ∈ before, ∃ row ∈ after,
    old.clientId = order.clientId ∧ row.clientId = order.clientId ∧
      row.status = statusOf order.status ∧ row.venueId = order.venueId ∧
        row.filledQty = order.filledQty ∧ row.avgPrice = order.avgPrice ∧ row.rev = old.rev + 1

/-- An update puts the report on record if it matches a row, and only then. -/
theorem recorded_update_iff (table : Orders D) (order : Order D) (nowMs : ℤ) :
    Recorded order table
        (table.update (.report order nowMs) fun row => row.clientId = order.clientId) ↔
      Holds order.clientId table := by
  constructor
  · rintro ⟨old, hold, -, -, hid, -⟩
    exact ⟨old, hold, hid⟩
  · rintro ⟨old, hold, hid⟩
    have hrow : old.report order nowMs ∈
        table.update (.report order nowMs) fun row => row.clientId = order.clientId :=
      List.mem_map.mpr ⟨old, hold, if_pos hid⟩
    exact ⟨old, hold, _, hrow, hid, hid, rfl, rfl, rfl, rfl, rfl⟩

/-! ### No call takes a row away -/

theorem holds_update {clientId : String} {table : Orders D} {set : OrderRow D → OrderRow D}
    (hset : ∀ row, (set row).clientId = row.clientId) (hit : OrderRow D → Prop) [DecidablePred hit]
    (h : Holds clientId table) : Holds clientId (table.update set hit) := by
  obtain ⟨row, hrow, hid⟩ := h
  refine ⟨if hit row then set row else row, List.mem_map_of_mem hrow, ?_⟩
  split_ifs
  · rw [hset, hid]
  · exact hid

variable [Zero D]

theorem holds_next {clientId : String} (table : Orders D) (call : OrderCall D)
    (h : Holds clientId table) : Holds clientId (machine.next table call) := by
  cases call with
  | recordIntent order coreUid nowMs =>
    rw [next_recordIntent]
    split_ifs
    · exact h
    · obtain ⟨row, hrow, hid⟩ := h
      exact ⟨row, List.mem_append_left _ hrow, hid⟩
  | recordUpdate order nowMs => exact holds_update (OrderRow.report_clientId order nowMs) _ h
  | recordNeverPlaced other nowMs => exact holds_update (OrderRow.reject_clientId nowMs) _ h

theorem holds_serially {clientId : String} {jobs : List (Job (OrderCall D))}
    {table after : Orders D} (hjobs : serially OrderCall.exec jobs table = .ok after)
    (h : Holds clientId table) : Holds clientId after := by
  rw [run_of_foldlM hjobs]
  exact Machine.run_invariant holds_next h _

/-- The job `record_update` queues. -/
def updateJob (ack : ℕ) (order : Order D) (nowMs : ℤ) : Job (OrderCall D) :=
  ⟨ack, [.recordUpdate order nowMs]⟩

/-- What the statement of an update leaves. -/
theorem serially_updateJob {ack : ℕ} {order : Order D} {nowMs : ℤ} {table after : Orders D}
    (h : serially OrderCall.exec [updateJob ack order nowMs] table = .ok after) :
    after = table.update (.report order nowMs) fun row => row.clientId = order.clientId :=
  (Except.ok.inj h).symm

/-- **An acknowledged update is on record exactly when the order has a row.** For every table and
every order: whatever batch the update is committed in, and whatever that commit runs into, an Ok
means that the report was on record when the statement had run, for the later jobs of the batch to
go on from, if and only if the table has a row for the client id. -/
theorem recordUpdate_iff (table : Orders D) (order : Order D) (nowMs : ℤ) :
    (∀ (answers : Answers Constraint) (ack : ℕ) (earlier later : List (Job (OrderCall D)))
        (after : Connection (Orders D)),
      (⟨table, none⟩ : Connection (Orders D)).commit OrderCall.exec answers
          (earlier ++ updateJob ack order nowMs :: later) = (.ok (), after) →
        ∃ found left, serially OrderCall.exec earlier table = .ok found ∧
          Recorded order found left ∧ serially OrderCall.exec later left = .ok after.committed) ↔
      Holds order.clientId table := by
  constructor
  · intro h
    -- alone in its batch, on a day when nothing fails
    obtain ⟨found, left, hfound, hrecorded, -⟩ := h .calm 0 [] [] ⟨_, none⟩ rfl
    obtain ⟨old, hold, -, -, hid, -⟩ := hrecorded
    rw [serially_nil] at hfound
    obtain rfl := Except.ok.inj hfound
    exact ⟨old, hold, hid⟩
  · intro h answers ack earlier later after hok
    obtain ⟨db, hcommit, hserial⟩ | ⟨e, failed, hcommit, -⟩ :=
      Connection.commit_cases OrderCall.exec answers
        (earlier ++ updateJob ack order nowMs :: later) ⟨table, none⟩
    · rw [hok] at hcommit
      obtain rfl : after = ⟨db, none⟩ := congrArg Prod.snd hcommit
      obtain ⟨found, left, hfound, hleft, hlater⟩ := serially_cut hserial
      refine ⟨found, left, hfound, ?_, hlater⟩
      rw [serially_updateJob hleft, recorded_update_iff]
      exact holds_serially hfound h
    · rw [hok] at hcommit
      exact absurd (congrArg Prod.fst hcommit) (by simp)

/-- A fill of an order nobody has recorded is acknowledged, and nothing is on record. -/
theorem not_recordUpdate_unknown :
    ∃ after, (⟨[], none⟩ : Connection (Orders ℤ)).commit OrderCall.exec .calm
        [updateJob 0 (reported .filled 1) 1] = (.ok (), after) ∧
      after.committed = [] ∧ ¬ Recorded (reported .filled 1) [] after.committed := by
  refine ⟨⟨[], none⟩, rfl, rfl, ?_⟩
  rintro ⟨old, hold, -⟩
  exact absurd hold List.not_mem_nil

end Orders

end MoonCore
