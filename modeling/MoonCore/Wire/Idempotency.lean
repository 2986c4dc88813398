import Mathlib.Data.List.Nodup
import Mathlib.Logic.Function.Iterate
import MoonCore.Machine.Run
import MoonCore.Wire.Event

/-!
# Making a retry safe: the request ring

`wire::idempotency`. A `ReqRing` remembers the last `seenReqCapacity` request ids in the order
they were admitted. An id it remembers is not executed again, and an id below the eviction
floor is refused; everything else is fresh.

The floor is the id after the one evicted last. Eviction follows the order of arrival, so with
ids out of order the floor can go *down*, and an evicted id above it is fresh a second time.
`at_most_once_iff` says that this is the only way: a run executes no request twice, whatever is
asked next at any of its points, exactly when the floor never goes down (`FloorRises`).
-/

namespace MoonCore

/-- How many requests a session remembers. -/
def seenReqCapacity : ℕ := 4096

/-- What to do with an arriving command. -/
inductive Admission (β : Type*) where
  /-- Not seen before. Execute it. -/
  | fresh
  /-- Seen, and finished. Send this acknowledgement again. -/
  | replay (ack : ServerEvent β)
  /-- Seen, and still running. -/
  | inFlight
  /-- Older than anything remembered. -/
  | tooOld (oldestRemembered : ReqId)
  deriving DecidableEq

/-- What the ring holds of a request. -/
inductive Record (β : Type*) where
  | inFlight
  | answered (ack : ServerEvent β)

/-- One session's memory of what it has been asked. -/
structure ReqRing (β : Type*) where
  /-- Insertion order, for eviction. -/
  order : List ReqId
  records : ReqId → Option (Record β)
  /-- Highest id ever admitted. -/
  highWater : Option ReqId
  evictedBelow : Option ReqId

namespace ReqRing

variable {β : Type*}

/-- A fresh session remembers nothing. -/
def new : ReqRing β := ⟨[], fun _ => none, none, none⟩

/-- Drop the id that was admitted first; the floor becomes the id after it. -/
def evictOldest (self : ReqRing β) : ReqRing β :=
  match self.order with
  | [] => self
  | oldest :: rest =>
    { self with
      order := rest
      records := Function.update self.records oldest none
      evictedBelow := some (oldest + 1) }

/-- Drop ids from the front, one for each past the capacity. -/
def evictIfFull (self : ReqRing β) : ReqRing β :=
  evictOldest^[self.order.length - seenReqCapacity] self

/-- Record a new id as running. -/
def remember (self : ReqRing β) (req : ReqId) : ReqRing β :=
  { self with
    records := Function.update self.records req (some .inFlight)
    order := self.order ++ [req]
    highWater := some (self.highWater.elim req fun h => max h req) }

/-- Decide what to do with an arriving id, recording it if it is new. -/
def admitReq (self : ReqRing β) (req : ReqId) : ReqRing β × Admission β :=
  match self.records req with
  | some .inFlight => (self, .inFlight)
  | some (.answered ack) => (self, .replay ack)
  | none =>
    -- below the eviction floor the answer, if there ever was one, is gone
    match self.evictedBelow.filter fun floor => decide (req < floor) with
    | some floor => (self, .tooOld floor)
    | none => ((self.remember req).evictIfFull, .fresh)

/-- Record the final acknowledgement for a request. -/
def complete (self : ReqRing β) (req : ReqId) (ack : ServerEvent β) : ReqRing β :=
  let running :=
    match ack with
    | .commandAck _ status _ => !status.isFinal
    | .other .. => false
  if running then self
  else
    -- only for a request being tracked
    match self.records req with
    | none => self
    | some _ => { self with records := Function.update self.records req (some (.answered ack)) }

/-! ### What the calls do -/

/-- A full ring after it has taken in a new id and dropped the oldest. -/
def rotate (self : ReqRing β) (req oldest : ReqId) (rest : List ReqId) : ReqRing β :=
  { self.remember req with
    order := rest ++ [req]
    records := Function.update (self.remember req).records oldest none
    evictedBelow := some (oldest + 1) }

theorem evictOldest_remember {self : ReqRing β} {oldest : ReqId} {rest : List ReqId}
    (h : self.order = oldest :: rest) (req : ReqId) :
    (self.remember req).evictOldest = self.rotate req oldest rest := by
  have horder : (self.remember req).order = oldest :: (rest ++ [req]) := by
    rw [remember, h, List.cons_append]
  rw [evictOldest, horder]
  rfl

/-- Everything `admitReq` can do to a ring within its capacity: recognise an id, refuse one below
the floor, take a new one in, or take it in and drop the oldest. -/
inductive Admits (self : ReqRing β) (req : ReqId) : ReqRing β × Admission β → Prop
  | known {answer : Admission β} (known : self.records req ≠ none) (answered : answer ≠ .fresh) :
      Admits self req (self, answer)
  | below {floor : ReqId} (floor_eq : self.evictedBelow = some floor) (lt : req < floor) :
      Admits self req (self, .tooOld floor)
  | room (unknown : self.records req = none)
      (above : ∀ floor, self.evictedBelow = some floor → floor ≤ req)
      (room : self.order.length < seenReqCapacity) : Admits self req (self.remember req, .fresh)
  | full {oldest : ReqId} {rest : List ReqId} (unknown : self.records req = none)
      (above : ∀ floor, self.evictedBelow = some floor → floor ≤ req)
      (order_eq : self.order = oldest :: rest) (full : self.order.length = seenReqCapacity) :
      Admits self req (self.rotate req oldest rest, .fresh)

theorem admits {self : ReqRing β} (hlength : self.order.length ≤ seenReqCapacity) (req : ReqId) :
    Admits self req (self.admitReq req) := by
  rw [admitReq]
  rcases hrec : self.records req with _ | _ | ack
  · dsimp only
    rcases hfloor : self.evictedBelow.filter (fun floor => decide (req < floor)) with _ | floor
    · have habove : ∀ floor, self.evictedBelow = some floor → floor ≤ req := by
        intro floor hf
        rw [hf, Option.filter_some] at hfloor
        simpa using hfloor
      have hpushed : (self.remember req).order.length = self.order.length + 1 :=
        List.length_append
      dsimp only [evictIfFull]
      rcases Nat.lt_or_eq_of_le hlength with hroom | hfull
      · rw [hpushed, Nat.sub_eq_zero_of_le hroom]
        exact .room hrec habove hroom
      · obtain ⟨oldest, rest, horder⟩ := List.exists_cons_of_ne_nil
          (List.ne_nil_of_length_pos (hfull ▸ (by decide : 0 < seenReqCapacity)))
        rw [hpushed, hfull, Nat.add_sub_cancel_left, Function.iterate_one,
          evictOldest_remember horder]
        exact .full hrec habove horder hfull
    · obtain ⟨hf, hlt⟩ := Option.filter_eq_some_iff.mp hfloor
      exact .below hf (by simpa using hlt)
  · exact .known (by simp [hrec]) (by simp)
  · exact .known (by simp [hrec]) (by simp)

/-- The bookkeeping of a ring: it remembers the ids in its order, each once, and no more than
its capacity. -/
structure Tracked (ring : ReqRing β) : Prop where
  records_iff : ∀ id, ring.records id ≠ none ↔ id ∈ ring.order
  nodup : ring.order.Nodup
  length_le : ring.order.length ≤ seenReqCapacity

theorem Tracked.new : Tracked (ReqRing.new : ReqRing β) :=
  ⟨fun _ => by simp [ReqRing.new], .nil, Nat.zero_le _⟩

variable {self : ReqRing β}

/-- A new id, remembered. -/
private theorem remember_records_iff (h : Tracked self) (req id : ReqId) :
    (self.remember req).records id ≠ none ↔ id ∈ self.order ++ [req] := by
  change Function.update self.records req (some .inFlight) id ≠ none ↔ _
  rw [Function.update_apply, List.mem_append, List.mem_singleton, ← h.records_iff]
  split_ifs with hid <;> simp [hid]

private theorem remember_nodup (h : Tracked self) {req : ReqId} (hreq : self.records req = none) :
    (self.order ++ [req]).Nodup := by
  have hnot : req ∉ self.order := fun hmem => (h.records_iff req).mpr hmem hreq
  exact List.nodup_append.mpr ⟨h.nodup, List.nodup_singleton req,
    fun a ha b hb => by rintro rfl; exact hnot (List.mem_singleton.mp hb ▸ ha)⟩

/-- A full ring after a new id: the rest of the old ids and the new one. -/
private theorem rotate_records_iff (h : Tracked self) {req oldest : ReqId} {rest : List ReqId}
    (hreq : self.records req = none) (horder : self.order = oldest :: rest) (id : ReqId) :
    (self.rotate req oldest rest).records id ≠ none ↔ id ∈ rest ++ [req] := by
  have hnodup := remember_nodup h hreq
  rw [horder, List.cons_append, List.nodup_cons] at hnodup
  change Function.update (self.remember req).records oldest none id ≠ none ↔ id ∈ rest ++ [req]
  rw [Function.update_apply]
  split_ifs with hid
  · simpa [hid] using hnodup.1
  · rw [remember_records_iff h req id, horder, List.cons_append, List.mem_cons]
    simp only [hid, false_or]

/-- The bookkeeping survives every admission. -/
theorem Tracked.admitReq (h : Tracked self) (req : ReqId) : Tracked (self.admitReq req).1 := by
  have hadmits := admits h.length_le req
  generalize self.admitReq req = result at hadmits
  cases hadmits with
  | known => exact h
  | below => exact h
  | room unknown above room =>
    refine ⟨remember_records_iff h req, remember_nodup h unknown, ?_⟩
    change (self.order ++ [req]).length ≤ _
    rw [List.length_append]
    exact room
  | @full oldest rest unknown above order_eq full =>
    have hnodup := remember_nodup h unknown
    rw [order_eq, List.cons_append, List.nodup_cons] at hnodup
    refine ⟨rotate_records_iff h unknown order_eq, hnodup.2, ?_⟩
    · change (rest ++ [req]).length ≤ _
      rw [← full, order_eq, List.length_append]
      rfl

/-- `complete` changes answers only: the ids remembered, their order and the floor stay. -/
theorem complete_frame (self : ReqRing β) (req : ReqId) (ack : ServerEvent β) :
    (self.complete req ack).order = self.order ∧
      (self.complete req ack).evictedBelow = self.evictedBelow ∧
      ∀ id, (self.complete req ack).records id ≠ none ↔ self.records id ≠ none := by
  unfold complete
  dsimp only
  split_ifs
  · exact ⟨rfl, rfl, fun _ => Iff.rfl⟩
  · rcases hrec : self.records req with _ | record
    · exact ⟨rfl, rfl, fun _ => Iff.rfl⟩
    · refine ⟨rfl, rfl, fun id => ?_⟩
      change Function.update self.records req _ id ≠ none ↔ _
      rw [Function.update_apply]
      split_ifs with hid <;> simp [hid, hrec]

theorem Tracked.complete (h : Tracked self) (req : ReqId) (ack : ServerEvent β) :
    Tracked (self.complete req ack) := by
  obtain ⟨horder, -, hrecords⟩ := complete_frame self req ack
  exact ⟨fun id => by rw [hrecords, h.records_iff, horder], horder ▸ h.nodup, horder ▸ h.length_le⟩

/-! ### Runs -/

end ReqRing

/-- What is executed after an admission. -/
def Admission.executes {β : Type*} (req : ReqId) : Admission β → List ReqId
  | .fresh => [req]
  | _ => []

theorem Admission.executes_of_ne {β : Type*} {req : ReqId} {answer : Admission β}
    (h : answer ≠ .fresh) : answer.executes req = [] := by
  cases answer with
  | fresh => exact absurd rfl h
  | _ => rfl

/-- One call on a ring. -/
inductive ReqOp (β : Type*) where
  | admitReq (req : ReqId)
  | complete (req : ReqId) (ack : ServerEvent β)

namespace ReqRing

variable {β : Type*}

/-- One call, answered with the ids to execute: a fresh id is executed, no other is. -/
def step (self : ReqRing β) : ReqOp β → ReqRing β × List ReqId
  | .admitReq req => ((self.admitReq req).1, (self.admitReq req).2.executes req)
  | .complete req ack => (self.complete req ack, [])

/-- Any sequence of calls. -/
def machine : Machine (ReqRing β) (ReqOp β) (List ReqId) := ⟨step⟩

/-- The ids a run executes, in order. -/
def executed (self : ReqRing β) (ops : List (ReqOp β)) : List ReqId :=
  (machine.outputs self ops).flatten

theorem executed_concat (self : ReqRing β) (ops : List (ReqOp β)) (op : ReqOp β) :
    self.executed (ops ++ [op]) = self.executed ops ++ machine.out (machine.run self ops) op := by
  rw [executed, Machine.outputs_append, List.flatten_append, executed]
  simp

/-- The bookkeeping holds after every run. -/
theorem tracked_run (ops : List (ReqOp β)) : Tracked (machine.run (new : ReqRing β) ops) := by
  refine Machine.run_invariant (fun ring op h => ?_) Tracked.new ops
  cases op with
  | admitReq req => exact h.admitReq req
  | complete req ack => exact h.complete req ack

/-- The floor does not go down: where a new id drops the oldest one from a full ring, the id
after the oldest exists and is not below the present floor. -/
def FloorRises (self : ReqRing β) : ReqOp β → Prop
  | .admitReq req =>
    self.records req = none → (∀ floor, self.evictedBelow = some floor → floor ≤ req) →
    self.order.length = seenReqCapacity → ∀ oldest, self.order.head? = some oldest →
      oldest.toNat + 1 < 2 ^ 64 ∧
        ∀ floor, self.evictedBelow = some floor → floor.toNat ≤ oldest.toNat + 1
  | .complete _ _ => True

/-- The ring and the ids executed so far. -/
def session : Machine (ReqRing β × List ReqId) (ReqOp β) (List ReqId) :=
  machine.pipe fun seen id => seen ++ [id]

/-- Every id executed so far would be recognised or refused. -/
def Guarded (s : ReqRing β × List ReqId) : Prop :=
  s.2.Nodup ∧
    ∀ id ∈ s.2, s.1.records id ≠ none ∨ ∃ floor, s.1.evictedBelow = some floor ∧ id < floor

/-- What holds of the ring and the ids executed so far as long as the floor has not gone down:
the ring remembers executed ids only, and the id under the floor was executed and dropped. -/
structure Accounted (s : ReqRing β × List ReqId) : Prop where
  tracked : Tracked s.1
  remembered : ∀ id ∈ s.1.order, id ∈ s.2
  floor : ∀ floor, s.1.evictedBelow = some floor → ∃ id, id.toNat + 1 = floor.toNat ∧ id ∈ s.2 ∧
    id ∉ s.1.order

theorem succ_toNat {id : ReqId} (h : id.toNat + 1 < 2 ^ 64) : (id + 1).toNat = id.toNat + 1 := by
  rw [UInt64.toNat_add, UInt64.toNat_one, Nat.mod_eq_of_lt h]

/-- A ring within its capacity executes an id exactly when it neither remembers it nor has a
floor above it. -/
theorem fresh_iff {self : ReqRing β} (hlength : self.order.length ≤ seenReqCapacity) {req : ReqId} :
    (self.admitReq req).2 = .fresh ↔
      self.records req = none ∧ ∀ floor, self.evictedBelow = some floor → floor ≤ req := by
  have hadmits := admits hlength req
  generalize self.admitReq req = result at hadmits
  cases hadmits with
  | known known answered => exact iff_of_false answered fun h => known h.1
  | below floor_eq lt =>
    exact iff_of_false (by simp) fun h => absurd (h.2 _ floor_eq) (UInt64.not_le.mpr lt)
  | room unknown above => exact iff_of_true rfl ⟨unknown, above⟩
  | full unknown above => exact iff_of_true rfl ⟨unknown, above⟩

/-- The executed ids are guarded exactly when asking for any id once more executes none of them
again. -/
theorem guarded_iff {s : ReqRing β × List ReqId} (hlength : s.1.order.length ≤ seenReqCapacity) :
    Guarded s ↔ ∀ req, (s.2 ++ machine.out s.1 (.admitReq req)).Nodup := by
  have hguard : ∀ id,
      (s.1.records id ≠ none ∨ ∃ floor, s.1.evictedBelow = some floor ∧ id < floor) ↔
        (s.1.admitReq id).2 ≠ .fresh := by
    intro id
    rw [ne_eq (s.1.admitReq id).2, fresh_iff hlength, not_and_or]
    simp only [not_forall, UInt64.not_le, exists_prop]
  constructor
  · rintro ⟨hnodup, hold⟩ req
    change (s.2 ++ (s.1.admitReq req).2.executes req).Nodup
    by_cases hfresh : (s.1.admitReq req).2 = .fresh
    · rw [hfresh, Admission.executes]
      refine List.nodup_append.mpr ⟨hnodup, List.nodup_singleton req, fun a ha b hb => ?_⟩
      rintro rfl
      obtain rfl := List.mem_singleton.mp hb
      exact (hguard a).mp (hold a ha) hfresh
    · rwa [Admission.executes_of_ne hfresh, List.append_nil]
  · intro h
    refine ⟨(h 0).of_append_left, fun id hid => (hguard id).mpr fun hfresh => ?_⟩
    have hnodup : (s.2 ++ (s.1.admitReq id).2.executes id).Nodup := h id
    rw [hfresh] at hnodup
    exact (List.nodup_append.mp hnodup).2.2 id hid id (List.mem_singleton_self id) rfl

/-- A session after an admission. -/
theorem session_next_admitReq (s : ReqRing β × List ReqId) (req : ReqId) :
    session.next s (.admitReq req) =
      ((s.1.admitReq req).1, s.2 ++ (s.1.admitReq req).2.executes req) := by
  change ((s.1.admitReq req).1, List.foldl _ s.2 ((s.1.admitReq req).2.executes req)) = _
  rcases (s.1.admitReq req).2 with _ | ack | _ | floor <;> simp [Admission.executes]

theorem session_next_complete (s : ReqRing β × List ReqId) (req : ReqId) (ack : ServerEvent β) :
    session.next s (.complete req ack) = (s.1.complete req ack, s.2) := rfl

/-- A guarded session that executes a new id has not executed it before. -/
private theorem not_mem_executed {s : ReqRing β × List ReqId} (hs : Guarded s) {req : ReqId}
    (unknown : s.1.records req = none)
    (above : ∀ floor, s.1.evictedBelow = some floor → floor ≤ req) : req ∉ s.2 := by
  intro hmem
  rcases hs.2 req hmem with hknown | ⟨floor, hfloor, hlt⟩
  · exact hknown unknown
  · exact absurd (above floor hfloor) (UInt64.not_le.mpr hlt)

/-- A guarded session stays one without repeats when it executes a new id. -/
private theorem nodup_executed {s : ReqRing β × List ReqId} (hs : Guarded s) {req : ReqId}
    (unknown : s.1.records req = none)
    (above : ∀ floor, s.1.evictedBelow = some floor → floor ≤ req) : (s.2 ++ [req]).Nodup := by
  refine List.nodup_append.mpr ⟨hs.1, List.nodup_singleton req, ?_⟩
  rintro a ha b hb rfl
  exact not_mem_executed hs unknown above (List.mem_singleton.mp hb ▸ ha)

private theorem toNat_add_one (id : ReqId) : (id + 1).toNat = (id.toNat + 1) % 2 ^ 64 := by
  rw [UInt64.toNat_add, UInt64.toNat_one]

/-- Where the floor goes down, the id under the old floor, or the one just dropped, is fresh
again. -/
private theorem rises_of_guarded_rotate {s : ReqRing β × List ReqId} (h : Accounted s)
    {req oldest : ReqId} {rest : List ReqId} (unknown : s.1.records req = none)
    (above : ∀ floor, s.1.evictedBelow = some floor → floor ≤ req)
    (horder : s.1.order = oldest :: rest)
    (hguarded : Guarded (s.1.rotate req oldest rest, s.2 ++ [req])) :
    oldest.toNat + 1 < 2 ^ 64 ∧
      ∀ floor, s.1.evictedBelow = some floor → floor.toNat ≤ oldest.toNat + 1 := by
  obtain ⟨-, hold⟩ := hguarded
  have hrecords := rotate_records_iff h.tracked unknown horder
  have hnodup := h.tracked.nodup
  rw [horder, List.nodup_cons] at hnodup
  have hnew : req ≠ oldest := by
    rintro rfl
    exact (h.tracked.records_iff req).mpr (horder ▸ List.mem_cons_self) unknown
  have hdropped : oldest < oldest + 1 := by
    have hmem : oldest ∈ s.2 ++ [req] :=
      List.mem_append_left _ (h.remembered oldest (horder ▸ List.mem_cons_self))
    obtain hknown | ⟨floor, hfloor, hlt⟩ := hold oldest hmem
    · have hrest := (hrecords oldest).mp hknown
      simp only [List.mem_append, List.mem_singleton, hnodup.1, hnew.symm, or_self] at hrest
    · exact Option.some.inj hfloor ▸ hlt
  rw [UInt64.lt_iff_toNat_lt, toNat_add_one] at hdropped
  have hbound : oldest.toNat + 1 < 2 ^ 64 := by
    have := oldest.toNat_lt
    by_contra hge
    have heq : oldest.toNat + 1 = 2 ^ 64 := by omega
    rw [heq, Nat.mod_self] at hdropped
    exact absurd hdropped (Nat.not_lt_zero _)
  refine ⟨hbound, fun floor hfloor => ?_⟩
  obtain ⟨id, hid, hmem, hnot⟩ := h.floor floor hfloor
  obtain hknown | ⟨floor', hfloor', hlt⟩ := hold id (List.mem_append_left _ hmem)
  · obtain hrest | hreq := List.mem_append.mp ((hrecords id).mp hknown)
    · exact absurd (horder ▸ List.mem_cons_of_mem oldest hrest) hnot
    · obtain rfl := List.mem_singleton.mp hreq
      have hle := UInt64.le_iff_toNat_le.mp (above floor hfloor)
      omega
  · obtain rfl : oldest + 1 = floor' := Option.some.inj hfloor'
    rw [UInt64.lt_iff_toNat_lt, toNat_add_one, Nat.mod_eq_of_lt hbound] at hlt
    omega

/-- Where the floor does not go down, the ids dropped are below it. -/
private theorem guarded_rotate_of_rises {s : ReqRing β × List ReqId} (h : Accounted s)
    (hs : Guarded s) {req oldest : ReqId} {rest : List ReqId} (unknown : s.1.records req = none)
    (above : ∀ floor, s.1.evictedBelow = some floor → floor ≤ req)
    (horder : s.1.order = oldest :: rest) (hbound : oldest.toNat + 1 < 2 ^ 64)
    (hfloor : ∀ floor, s.1.evictedBelow = some floor → floor.toNat ≤ oldest.toNat + 1) :
    Guarded (s.1.rotate req oldest rest, s.2 ++ [req]) := by
  have hsucc := toNat_add_one oldest
  rw [Nat.mod_eq_of_lt hbound] at hsucc
  refine ⟨nodup_executed hs unknown above, fun id hid => ?_⟩
  rw [rotate_records_iff h.tracked unknown horder]
  have hbelow : id.toNat ≤ oldest.toNat →
      ∃ floor, (s.1.rotate req oldest rest).evictedBelow = some floor ∧ id < floor := by
    intro hle
    exact ⟨oldest + 1, rfl, by rw [UInt64.lt_iff_toNat_lt]; omega⟩
  obtain hid | hid := List.mem_append.mp hid
  · obtain hknown | ⟨floor, hf, hlt⟩ := hs.2 id hid
    · have hmem := (h.tracked.records_iff id).mp hknown
      rw [horder, List.mem_cons] at hmem
      obtain rfl | hrest := hmem
      · exact .inr (hbelow le_rfl)
      · exact .inl (List.mem_append_left _ hrest)
    · have hlt' := UInt64.lt_iff_toNat_lt.mp hlt
      have hle := hfloor floor hf
      exact .inr (hbelow (by omega))
  · exact .inl (List.mem_append_right _ hid)

/-- Taking a new id into a full ring keeps the session guarded exactly when the floor does not
go down. -/
theorem guarded_rotate {s : ReqRing β × List ReqId} (h : Accounted s) (hs : Guarded s)
    {req oldest : ReqId} {rest : List ReqId} (unknown : s.1.records req = none)
    (above : ∀ floor, s.1.evictedBelow = some floor → floor ≤ req)
    (horder : s.1.order = oldest :: rest) :
    Guarded (s.1.rotate req oldest rest, s.2 ++ [req]) ↔
      oldest.toNat + 1 < 2 ^ 64 ∧
        ∀ floor, s.1.evictedBelow = some floor → floor.toNat ≤ oldest.toNat + 1 :=
  ⟨rises_of_guarded_rotate h unknown above horder,
    fun hrises => guarded_rotate_of_rises h hs unknown above horder hrises.1 hrises.2⟩

/-- **One call.** From a guarded session, the next is guarded exactly when the floor does not go
down. -/
theorem guarded_step {s : ReqRing β × List ReqId} (h : Accounted s) (hs : Guarded s)
    (op : ReqOp β) : Guarded (session.next s op) ↔ s.1.FloorRises op := by
  cases op with
  | complete req ack =>
    obtain ⟨-, hfloor, hrecords⟩ := complete_frame s.1 req ack
    rw [session_next_complete]
    refine iff_of_true ⟨hs.1, fun id hid => ?_⟩ trivial
    rw [hrecords, hfloor]
    exact hs.2 id hid
  | admitReq req =>
    have hadmits := admits h.tracked.length_le req
    rw [session_next_admitReq]
    generalize s.1.admitReq req = result at hadmits
    cases hadmits with
    | known known answered =>
      rw [Admission.executes_of_ne answered, List.append_nil]
      exact iff_of_true hs fun unknown => absurd unknown known
    | @below floor floor_eq lt =>
      rw [Admission.executes_of_ne (by simp), List.append_nil]
      exact iff_of_true hs fun _ above => absurd (above floor floor_eq) (UInt64.not_le.mpr lt)
    | room unknown above room =>
      refine iff_of_true ?_ fun _ _ hfull => absurd hfull room.ne
      refine ⟨nodup_executed hs unknown above, fun id hid => ?_⟩
      rw [remember_records_iff h.tracked]
      rcases List.mem_append.mp hid with hid | hid
      · exact (hs.2 id hid).imp
          (fun hknown => List.mem_append_left _ ((h.tracked.records_iff id).mp hknown)) fun hf => hf
      · exact .inl (List.mem_append_right _ hid)
    | @full oldest rest unknown above order_eq full =>
      refine (guarded_rotate h hs unknown above order_eq).trans ?_
      simp only [FloorRises, unknown, order_eq, List.head?_cons, Option.some.injEq, forall_eq',
        true_implies]
      rw [← order_eq]
      exact ⟨fun hfloor _ _ => hfloor, fun hfloor => hfloor above full⟩

/-- One call keeps the account as long as the floor does not go down. -/
theorem accounted_step {s : ReqRing β × List ReqId} (h : Accounted s) {op : ReqOp β}
    (hop : s.1.FloorRises op) : Accounted (session.next s op) := by
  cases op with
  | complete req ack =>
    obtain ⟨horder, hfloor, -⟩ := complete_frame s.1 req ack
    rw [session_next_complete]
    exact ⟨h.tracked.complete req ack, horder ▸ h.remembered, by rw [hfloor, horder]; exact h.floor⟩
  | admitReq req =>
    have htracked := h.tracked.admitReq req
    have hadmits := admits h.tracked.length_le req
    rw [session_next_admitReq]
    generalize s.1.admitReq req = result at hadmits htracked
    cases hadmits with
    | known known answered =>
      rw [Admission.executes_of_ne answered, List.append_nil]
      exact h
    | below =>
      rw [Admission.executes_of_ne (by simp), List.append_nil]
      exact h
    | room unknown above room =>
      refine ⟨htracked, fun id hid => ?_, fun floor hfloor => ?_⟩
      · exact (List.mem_append.mp hid).elim
          (fun hid => List.mem_append_left _ (h.remembered id hid)) (List.mem_append_right _)
      · obtain ⟨id, hid, hmem, hnot⟩ := h.floor floor hfloor
        refine ⟨id, hid, List.mem_append_left _ hmem, fun hin => ?_⟩
        rcases List.mem_append.mp hin with hin | hin
        · exact hnot hin
        · obtain rfl := List.mem_singleton.mp hin
          have hle := UInt64.le_iff_toNat_le.mp (above floor hfloor)
          omega
    | @full oldest rest unknown above order_eq full =>
      have hrises := hop unknown above full oldest (by rw [order_eq, List.head?_cons])
      have hoff := h.tracked.nodup
      rw [order_eq, List.nodup_cons] at hoff
      refine ⟨htracked, fun id hid => ?_, fun floor hfloor => ?_⟩
      · refine (List.mem_append.mp hid).elim (fun hid => ?_) (List.mem_append_right _)
        exact List.mem_append_left _ (h.remembered id (order_eq ▸ List.mem_cons_of_mem oldest hid))
      · obtain rfl : oldest + 1 = floor := Option.some.inj hfloor
        have holdest : oldest ∈ s.1.order := order_eq ▸ List.mem_cons_self
        refine ⟨oldest, (succ_toNat hrises.1).symm,
          List.mem_append_left _ (h.remembered oldest holdest), fun hin => ?_⟩
        rcases List.mem_append.mp hin with hin | hin
        · exact hoff.1 hin
        · obtain rfl := List.mem_singleton.mp hin
          exact (h.tracked.records_iff oldest).mpr holdest unknown

/-- A session's record of a run. -/
theorem session_run (ops : List (ReqOp β)) :
    session.run (new, []) ops = (machine.run new ops, executed new ops) := by
  have hfold : ∀ seen ids : List ReqId,
      ids.foldl (fun seen id => seen ++ [id]) seen = seen ++ ids := by
    intro seen ids
    induction ids generalizing seen with
    | nil => simp
    | cons id ids ih => rw [List.foldl_cons, ih, List.append_assoc, List.singleton_append]
  refine Prod.ext (Machine.pipe_run_fst _ _ _ _) ?_
  rw [session, Machine.pipe_run_snd, hfold, List.nil_append, executed]

/-- **At most once.** Whatever id is asked for next at any point of a run, no request has been
executed twice, exactly when the eviction floor never goes down in the run. -/
theorem at_most_once_iff (ops : List (ReqOp β)) :
    (∀ k req, (executed new (ops.take k ++ [.admitReq req])).Nodup) ↔
      machine.Along FloorRises (new : ReqRing β) ops := by
  have hstart : Accounted ((new, []) : ReqRing β × List ReqId) :=
    ⟨Tracked.new, by simp [new], by simp [new]⟩
  have hexact : (∀ k, Guarded (session.run (new, []) (ops.take k))) ↔
      session.Along (fun s op => s.1.FloorRises op) (new, []) ops :=
    Machine.forall_take_iff_along Guarded Accounted (fun s op h _ hop => accounted_step h hop)
      (fun s op h hs => guarded_step h hs op) hstart ⟨.nil, by simp⟩ ops
  refine Iff.trans (forall_congr' fun k => ?_) (hexact.trans (Machine.along_pipe_fst _ _ _ _))
  rw [session_run, guarded_iff (tracked_run _).length_le]
  exact forall_congr' fun req => by rw [executed_concat]

/-! ### A run that executes a request twice -/

/-- A new id taken into a ring with room. -/
private theorem admit_of_room (h : Tracked self) {req : ReqId} (hnew : req ∉ self.order)
    (above : ∀ floor, self.evictedBelow = some floor → floor ≤ req)
    (hroom : self.order.length < seenReqCapacity) :
    self.admitReq req = (self.remember req, .fresh) := by
  have hadmits := admits h.length_le req
  have hunknown := mt (h.records_iff req).mp hnew
  generalize self.admitReq req = result at hadmits
  cases hadmits with
  | known known => exact absurd known hunknown
  | below floor_eq lt => exact absurd (above _ floor_eq) (UInt64.not_le.mpr lt)
  | room => rfl
  | full _ _ _ full => exact absurd full hroom.ne

/-- A new id taken into a full ring. -/
private theorem admit_of_full (h : Tracked self) {req oldest : ReqId} {rest : List ReqId}
    (hnew : req ∉ self.order) (above : ∀ floor, self.evictedBelow = some floor → floor ≤ req)
    (horder : self.order = oldest :: rest) (hfull : self.order.length = seenReqCapacity) :
    self.admitReq req = (self.rotate req oldest rest, .fresh) := by
  have hadmits := admits h.length_le req
  have hunknown := mt (h.records_iff req).mp hnew
  generalize self.admitReq req = result at hadmits
  cases hadmits with
  | known known => exact absurd known hunknown
  | below floor_eq lt => exact absurd (above _ floor_eq) (UInt64.not_le.mpr lt)
  | room _ _ room => exact absurd hfull room.ne
  | full _ _ order_eq _ =>
    obtain ⟨rfl, rfl⟩ := List.cons.inj (order_eq.symm.trans horder)
    rfl

/-- A request for a new id at a full ring is executed and turns the ring on. -/
private theorem step_of_full (h : Tracked self) {req oldest : ReqId} {rest : List ReqId}
    (hnew : req ∉ self.order) (above : ∀ floor, self.evictedBelow = some floor → floor ≤ req)
    (horder : self.order = oldest :: rest) (hfull : self.order.length = seenReqCapacity) :
    machine.next self (.admitReq req) = self.rotate req oldest rest ∧
      machine.out self (.admitReq req) = [req] ∧ Tracked (self.rotate req oldest rest) := by
  have hadmit := admit_of_full h hnew above horder hfull
  have hnext : machine.next self (.admitReq req) = self.rotate req oldest rest :=
    congrArg Prod.fst hadmit
  refine ⟨hnext, congrArg (·.2.executes req) hadmit, ?_⟩
  rw [← hnext]
  exact h.admitReq req

/-- Distinct ids fill a ring in the order they are asked for. -/
private theorem fill (ids : List ReqId) {ring : ReqRing β} (h : Tracked ring)
    (hfloor : ring.evictedBelow = none) (hnodup : (ring.order ++ ids).Nodup)
    (hlength : (ring.order ++ ids).length ≤ seenReqCapacity) :
    (machine.run ring (ids.map .admitReq)).order = ring.order ++ ids ∧
      (machine.run ring (ids.map .admitReq)).evictedBelow = none ∧
      ring.executed (ids.map .admitReq) = ids := by
  induction ids generalizing ring with
  | nil => exact ⟨(List.append_nil _).symm, hfloor, rfl⟩
  | cons id ids ih =>
    have hnew : id ∉ ring.order := fun hmem =>
      (List.nodup_append.mp hnodup).2.2 id hmem id List.mem_cons_self rfl
    have hroom : ring.order.length < seenReqCapacity := by
      rw [List.length_append, List.length_cons] at hlength
      omega
    have hanswer := admit_of_room h hnew (by simp [hfloor]) hroom
    have hnext : machine.next ring (.admitReq id) = ring.remember id := congrArg Prod.fst hanswer
    have hout : machine.out ring (.admitReq id) = [id] := by
      change (ring.admitReq id).2.executes id = [id]
      rw [hanswer]
      rfl
    have horder : (ring.remember id).order ++ ids = ring.order ++ id :: ids := by
      rw [remember, List.append_assoc, List.singleton_append]
    have hrest := @ih (ring.remember id) (by rw [← hnext]; exact h.admitReq id) hfloor
      (horder ▸ hnodup) (horder ▸ hlength)
    rw [List.map_cons, Machine.run_cons, executed, Machine.outputs_cons, List.flatten_cons, hnext,
      hout]
    exact ⟨hrest.1.trans horder, hrest.2.1, congrArg (id :: ·) hrest.2.2⟩

/-- The ids 1 and 0 swapped on the way and the ids 2 to 4095 fill a ring; two more drop 1 and
then 0, the floor goes from 2 down to 1, and request 1 is executed a second time. -/
private theorem executed_swapped {later : List ReqId}
    (hmem : ∀ id, id ∈ later ↔ 2 ≤ id.toNat ∧ id.toNat < 4096) (hnd : later.Nodup)
    (hlen : later.length = 4094) :
    ¬ (executed (new : ReqRing Unit)
      ((1 :: 0 :: later).map .admitReq ++
        [.admitReq 4096, .admitReq 4097, .admitReq 1])).Nodup := by
  have hnodup : (1 :: 0 :: later : List ReqId).Nodup := by
    simp [hmem, hnd]
  have hlength : (1 :: 0 :: later : List ReqId).length = seenReqCapacity := by
    rw [List.length_cons, List.length_cons, hlen]
    rfl
  have htracked : Tracked (machine.run (new : ReqRing Unit) ((1 :: 0 :: later).map .admitReq)) :=
    tracked_run _
  obtain ⟨horder, hfloor, hexecuted⟩ :=
    fill (1 :: 0 :: later) (Tracked.new : Tracked (new : ReqRing Unit)) rfl hnodup hlength.le
  rw [executed, Machine.outputs_append, List.flatten_append]
  rw [executed] at hexecuted
  generalize machine.run (new : ReqRing Unit) ((1 :: 0 :: later).map .admitReq) = ring at *
  -- 4096 drops 1, and the floor is 2
  have hfirst : machine.next ring (.admitReq 4096) = ring.rotate 4096 1 (0 :: later) ∧
      machine.out ring (.admitReq 4096) = [4096] ∧ Tracked (ring.rotate 4096 1 (0 :: later)) :=
    step_of_full htracked (by simp [horder, new, hmem]) (by simp [hfloor]) horder
      (horder ▸ hlength)
  obtain ⟨hnext₁, hout₁, htracked₁⟩ := hfirst
  have horder₁ : (ring.rotate 4096 1 (0 :: later)).order = 0 :: (later ++ [4096]) := rfl
  have hfloor₁ : (ring.rotate 4096 1 (0 :: later)).evictedBelow = some 2 := rfl
  generalize ring.rotate 4096 1 (0 :: later) = ring₁ at *
  -- 4097 drops 0, and the floor is 1
  have hsecond : machine.next ring₁ (.admitReq 4097) = ring₁.rotate 4097 0 (later ++ [4096]) ∧
      machine.out ring₁ (.admitReq 4097) = [4097] ∧
        Tracked (ring₁.rotate 4097 0 (later ++ [4096])) := by
    refine step_of_full htracked₁ ?_ ?_ horder₁ ?_
    · simp [horder₁, hmem]
    · rw [hfloor₁]
      rintro floor hf
      exact Option.some.inj hf ▸ by decide
    · rw [horder₁, List.length_cons, List.length_append, hlen]
      rfl
  obtain ⟨hnext₂, hout₂, htracked₂⟩ := hsecond
  have horder₂ : (ring₁.rotate 4097 0 (later ++ [4096])).order = later ++ [4096] ++ [4097] :=
    rfl
  have hfloor₂ : (ring₁.rotate 4097 0 (later ++ [4096])).evictedBelow = some 1 := rfl
  generalize ring₁.rotate 4097 0 (later ++ [4096]) = ring₂ at *
  -- 1 is neither remembered nor below the floor
  have hthird : (ring₂.admitReq 1).2 = .fresh := by
    refine (fresh_iff htracked₂.length_le).mpr ⟨?_, ?_⟩
    · by_contra hknown
      have hin := (htracked₂.records_iff 1).mp hknown
      rw [horder₂] at hin
      simp [hmem] at hin
    · rw [hfloor₂]
      rintro floor hf
      exact Option.some.inj hf ▸ by decide
  have hout₃ : machine.out ring₂ (.admitReq 1) = [1] := congrArg (Admission.executes 1) hthird
  rw [hexecuted, Machine.outputs_cons, Machine.outputs_cons, Machine.outputs_cons, hnext₁, hnext₂,
    hout₁, hout₂, hout₃]
  intro hrepeat
  exact (List.nodup_append.mp hrepeat).2.2 1 List.mem_cons_self 1 (by simp) rfl

/-- The ids 2 to 4095. -/
private def laterIds : List ReqId := (List.range' 2 4094).map UInt64.ofNat

private theorem toNat_ofNat_small {n : ℕ} (h : n < 4096) : (UInt64.ofNat n).toNat = n :=
  UInt64.toNat_ofNat_of_lt' (Nat.lt_trans h (by decide))

private theorem mem_laterIds {id : ReqId} : id ∈ laterIds ↔ 2 ≤ id.toNat ∧ id.toNat < 4096 := by
  simp only [laterIds, List.mem_map, List.mem_range'_1]
  constructor
  · rintro ⟨n, hn, rfl⟩
    rw [toNat_ofNat_small hn.2]
    exact hn
  · exact fun h => ⟨id.toNat, h, UInt64.ofNat_toNat⟩

private theorem laterIds_nodup : laterIds.Nodup := by
  refine List.Nodup.map_on (fun m hm n hn heq => ?_) List.nodup_range'
  rw [List.mem_range'_1] at hm hn
  have htoNat := congrArg UInt64.toNat heq
  rwa [toNat_ofNat_small hm.2, toNat_ofNat_small hn.2] at htoNat

private theorem laterIds_length : laterIds.length = 4094 := by
  rw [laterIds, List.length_map, List.length_range']

/-- Request 1 is executed twice after the ids 1 and 0 arrived in this order. -/
theorem not_at_most_once_swapped :
    ¬ (executed (new : ReqRing Unit)
      ((1 :: 0 :: laterIds).map .admitReq ++
        [.admitReq 4096, .admitReq 4097, .admitReq 1])).Nodup :=
  executed_swapped (fun _ => mem_laterIds) laterIds_nodup laterIds_length

end ReqRing

end MoonCore
