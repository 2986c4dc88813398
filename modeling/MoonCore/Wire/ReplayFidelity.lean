import MoonCore.Wire.Idempotency

/-!
# What a replay carries

A `ReqRing` next to what it ought to replay: for each id, the first final acknowledgement of that
id completed for it since it was admitted. `complete` takes any event for any remembered id, so
the two agree exactly as long as no call passes one that is not the request's own
acknowledgement, and none a second answer (`replay_faithful_iff`).
-/

namespace MoonCore

/-- Whether an event is the final acknowledgement of a request. -/
def ServerEvent.isFinalFor {β : Type*} (req : ReqId) : ServerEvent β → Bool
  | .commandAck id status _ => decide (id = req) && status.isFinal
  | .other .. => false

/-- Whether an event says that a command is still running. -/
def ServerEvent.isRunning {β : Type*} : ServerEvent β → Bool
  | .commandAck _ status _ => !status.isFinal
  | .other .. => false

/-- A ring, and for each id the first final acknowledgement completed for it since it was last
taken in. The second field is history: no call reads it. -/
structure Watched (β : Type*) where
  ring : ReqRing β
  first : ReqId → Option (ServerEvent β)

namespace Watched

variable {β : Type*}

/-- The history after one call. -/
def note (self : Watched β) : ReqOp β → ReqId → Option (ServerEvent β)
  | .admitReq req =>
    match (self.ring.admitReq req).2 with
    | .fresh => Function.update self.first req none
    | _ => self.first
  | .complete req ack =>
    if self.ring.records req ≠ none ∧ self.first req = none ∧ ack.isFinalFor req then
      Function.update self.first req (some ack)
    else self.first

/-- One call on the ring, watched. -/
def machine : Machine (Watched β) (ReqOp β) Unit :=
  ⟨fun self op => (⟨(self.ring.step op).1, self.note op⟩, ())⟩

/-- A ring into which nothing was admitted. -/
def new : Watched β := ⟨.new, fun _ => none⟩

/-- A call completes a remembered request with what may be its own answer: a running
acknowledgement, its final one where it has none yet, or the one it has. -/
def Proper (self : Watched β) : ReqOp β → Prop
  | .admitReq _ => True
  | .complete req ack =>
    match self.ring.records req with
    | none => True
    | some .inFlight => ack.isRunning ∨ ack.isFinalFor req
    | some (.answered cached) => ack.isRunning ∨ ack = cached

end Watched

/-! ### What the calls do to the records -/

namespace ReqRing

variable {β : Type*} {self : ReqRing β}

/-- A replay repeats what is recorded. -/
theorem replay_iff {req : ReqId} {ack : ServerEvent β} :
    (self.admitReq req).2 = .replay ack ↔ self.records req = some (.answered ack) := by
  rw [admitReq]
  cases hrecord : self.records req with
  | none =>
    dsimp only
    cases self.evictedBelow.filter fun floor => decide (req < floor) with
    | none => simp
    | some floor => simp
  | some record =>
    cases record with
    | inFlight => simp
    | answered cached => simp

/-- What is recorded after an admission was recorded before it, of another id if it was fresh, or
is the admitted id running. -/
theorem records_admitReq (h : Tracked self) {req id : ReqId} {record : Record β}
    (hrecord : (self.admitReq req).1.records id = some record) :
    (self.records id = some record ∧ ((self.admitReq req).2 = .fresh → id ≠ req)) ∨
      (id = req ∧ record = .inFlight ∧ (self.admitReq req).2 = .fresh) := by
  have hadmits := admits h.length_le req
  generalize self.admitReq req = result at hadmits hrecord
  cases hadmits with
  | known known answered => exact .inl ⟨hrecord, fun hfresh => absurd hfresh answered⟩
  | below => exact .inl ⟨hrecord, fun hfresh => by cases hfresh⟩
  | room =>
    change Function.update self.records req (some .inFlight) id = some record at hrecord
    by_cases hid : id = req
    · rw [hid, Function.update_self] at hrecord
      exact .inr ⟨hid, (Option.some.inj hrecord).symm, rfl⟩
    · rw [Function.update_of_ne hid] at hrecord
      exact .inl ⟨hrecord, fun _ => hid⟩
  | @full oldest =>
    change Function.update (Function.update self.records req (some .inFlight)) oldest none id =
      some record at hrecord
    by_cases hold : id = oldest
    · rw [hold, Function.update_self] at hrecord
      cases hrecord
    · rw [Function.update_of_ne hold] at hrecord
      by_cases hid : id = req
      · rw [hid, Function.update_self] at hrecord
        exact .inr ⟨hid, (Option.some.inj hrecord).symm, rfl⟩
      · rw [Function.update_of_ne hid] at hrecord
        exact .inl ⟨hrecord, fun _ => hid⟩

/-- A completion, by whether the event says that the command is still running. -/
theorem complete_eq (self : ReqRing β) (req : ReqId) (ack : ServerEvent β) :
    self.complete req ack =
      if ack.isRunning then self
      else
        match self.records req with
        | none => self
        | some _ =>
          { self with records := Function.update self.records req (some (.answered ack)) } := by
  cases ack <;> rfl

/-- It changes nothing where the id is not remembered, or the command is running. -/
theorem complete_of_ignored {req : ReqId} {ack : ServerEvent β}
    (h : self.records req = none ∨ ack.isRunning = true) : self.complete req ack = self := by
  rw [complete_eq]
  split_ifs with hack
  · rfl
  · rw [h.resolve_right hack]

/-- It records the event otherwise. -/
theorem records_complete {req : ReqId} {ack : ServerEvent β} (hknown : self.records req ≠ none)
    (hack : ack.isRunning = false) :
    (self.complete req ack).records =
      Function.update self.records req (some (.answered ack)) := by
  obtain ⟨record, hrecord⟩ := Option.ne_none_iff_exists'.mp hknown
  simp only [complete_eq, hack, hrecord, Bool.false_eq_true, if_false]

end ReqRing

/-- A final acknowledgement is not a running one. -/
theorem ServerEvent.isRunning_of_isFinalFor {β : Type*} {req : ReqId} {ack : ServerEvent β}
    (h : ack.isFinalFor req = true) : ack.isRunning = false := by
  cases ack with
  | commandAck id status detail =>
    rw [isFinalFor, Bool.and_eq_true] at h
    rw [isRunning, h.2]
    rfl
  | other channel body => rfl

namespace Watched

variable {β : Type*} {self : Watched β}

/-- What holds of the history whatever is completed: it has final acknowledgements only, and none
for a request that is still running. -/
structure Honest (watched : Watched β) : Prop where
  tracked : watched.ring.Tracked
  final : ∀ req ack, watched.first req = some ack → ack.isFinalFor req = true
  running : ∀ req, watched.ring.records req = some .inFlight → watched.first req = none

/-- Every replay carries the first final acknowledgement. -/
def Faithful (self : Watched β) : Prop :=
  ∀ req ack, self.ring.records req = some (.answered ack) → self.first req = some ack

theorem next_admitReq (self : Watched β) (req : ReqId) :
    machine.next self (.admitReq req) =
      ⟨(self.ring.admitReq req).1, self.note (.admitReq req)⟩ := rfl

theorem next_complete (self : Watched β) (req : ReqId) (ack : ServerEvent β) :
    machine.next self (.complete req ack) =
      ⟨self.ring.complete req ack, self.note (.complete req ack)⟩ := rfl

/-- An admission forgets the history of the id it takes in, and of no other. -/
theorem note_admitReq (self : Watched β) (req id : ReqId) :
    ((self.ring.admitReq req).2 = .fresh ∧ self.note (.admitReq req) id =
        if id = req then none else self.first id) ∨
      ((self.ring.admitReq req).2 ≠ .fresh ∧ self.note (.admitReq req) id = self.first id) := by
  rw [note]
  cases (self.ring.admitReq req).2 with
  | fresh => exact .inl ⟨rfl, Function.update_apply ..⟩
  | _ => exact .inr ⟨by simp, rfl⟩

/-- What an admission leaves recorded keeps its history. -/
theorem note_of_records (h : self.ring.Tracked) {req id : ReqId} {record : Record β}
    (hrecord : (self.ring.admitReq req).1.records id = some record) :
    (self.ring.records id = some record ∧ self.note (.admitReq req) id = self.first id) ∨
      (record = .inFlight ∧ self.note (.admitReq req) id = none) := by
  obtain ⟨hsame, hne⟩ | ⟨rfl, hrunning, hfresh⟩ := ReqRing.records_admitReq h hrecord
  · obtain ⟨hfresh, hnote⟩ | ⟨-, hnote⟩ := note_admitReq self req id
    · rw [if_neg (hne hfresh)] at hnote
      exact .inl ⟨hsame, hnote⟩
    · exact .inl ⟨hsame, hnote⟩
  · obtain ⟨-, hnote⟩ | ⟨hnot, -⟩ := note_admitReq self id id
    · rw [if_pos rfl] at hnote
      exact .inr ⟨hrunning, hnote⟩
    · exact absurd hfresh hnot

/-- A completion notes the event where it is the first final acknowledgement. -/
theorem note_complete (self : Watched β) (req id : ReqId) (ack : ServerEvent β) :
    (self.note (.complete req ack) id = some ack ∧ id = req ∧ self.ring.records req ≠ none ∧
        self.first req = none ∧ ack.isFinalFor req = true) ∨
      (self.note (.complete req ack) id = self.first id ∧
        (id = req → self.ring.records req ≠ none → self.first req = none →
          ack.isFinalFor req = false)) := by
  rw [note]
  split_ifs with hnote
  · obtain ⟨hknown, hfirst, hfinal⟩ := hnote
    by_cases hid : id = req
    · rw [hid, Function.update_self]
      exact .inl ⟨rfl, rfl, hknown, hfirst, hfinal⟩
    · rw [Function.update_of_ne hid]
      exact .inr ⟨rfl, fun h => absurd h hid⟩
  · refine .inr ⟨rfl, fun _ hknown hfirst => ?_⟩
    by_contra hfinal
    exact hnote ⟨hknown, hfirst, by simpa using hfinal⟩

theorem Honest.next (h : Honest self) (op : ReqOp β) : Honest (machine.next self op) := by
  obtain ⟨htracked, hfinal, hrunning⟩ := h
  cases op with
  | admitReq req =>
    rw [next_admitReq]
    refine ⟨htracked.admitReq req, fun id ack hack => ?_, fun id hrecord => ?_⟩
    · obtain ⟨-, hnote⟩ | ⟨-, hnote⟩ := note_admitReq self req id
      · dsimp only at hack
        rw [hnote] at hack
        split_ifs at hack
        exact hfinal id ack hack
      · exact hfinal id ack (hnote.symm.trans hack)
    · obtain ⟨hsame, hnote⟩ | ⟨-, hnote⟩ := note_of_records htracked hrecord
      · exact hnote.trans (hrunning id hsame)
      · exact hnote
  | complete req ack =>
    rw [next_complete]
    refine ⟨htracked.complete req ack, fun id cached hcached => ?_, fun id hrecord => ?_⟩
    · obtain ⟨hnote, rfl, -, -, hack⟩ | ⟨hnote, -⟩ := note_complete self req id ack
      · rw [← Option.some.inj (hnote.symm.trans hcached)]
        exact hack
      · exact hfinal id cached (hnote.symm.trans hcached)
    · by_cases hignored : self.ring.records req = none ∨ ack.isRunning = true
      · dsimp only at hrecord
        rw [ReqRing.complete_of_ignored hignored] at hrecord
        obtain ⟨-, -, hknown, -, hack⟩ | ⟨hnote, -⟩ := note_complete self req id ack
        · have hrunning := hignored.resolve_left hknown
          rw [ServerEvent.isRunning_of_isFinalFor hack] at hrunning
          cases hrunning
        · exact hnote.trans (hrunning id hrecord)
      · obtain ⟨hknown, hack⟩ := not_or.mp hignored
        dsimp only at hrecord
        rw [ReqRing.records_complete hknown (Bool.eq_false_iff.mpr hack)] at hrecord
        have hne : id ≠ req := by
          rintro rfl
          rw [Function.update_self] at hrecord
          cases hrecord
        rw [Function.update_of_ne hne] at hrecord
        obtain ⟨-, hid, -⟩ | ⟨hnote, -⟩ := note_complete self req id ack
        · exact absurd hid hne
        · exact hnote.trans (hrunning id hrecord)

/-- An admission replays faithfully what was replayed faithfully. -/
theorem Faithful.admitReq (h : Faithful self) (htracked : self.ring.Tracked) (req : ReqId) :
    Faithful (machine.next self (.admitReq req)) := by
  intro id ack hrecord
  obtain ⟨hsame, hnote⟩ | ⟨hrunning, -⟩ := note_of_records htracked hrecord
  · exact hnote.trans (h id ack hsame)
  · cases hrunning

/-- The history of an id a completion is not about, or ignores, stays what it was. -/
theorem note_complete_of {req id : ReqId} {ack : ServerEvent β}
    (h : id ≠ req ∨ self.ring.records req = none ∨ ack.isRunning = true) :
    self.note (.complete req ack) id = self.first id := by
  obtain ⟨-, hid, hknown, -, hack⟩ | ⟨hnote, -⟩ := note_complete self req id ack
  · have hrunning := (h.resolve_left (not_not_intro hid)).resolve_left hknown
    rw [ServerEvent.isRunning_of_isFinalFor hack] at hrunning
    cases hrunning
  · exact hnote

/-- A completion of a remembered request by an event that does not say it is running replays
faithfully what was replayed faithfully, exactly if the event is in the history of that request. -/
theorem Faithful.complete_iff_note (h : Faithful self) {req : ReqId} {ack : ServerEvent β}
    (hknown : self.ring.records req ≠ none) (hack : ack.isRunning = false) :
    Faithful (machine.next self (.complete req ack)) ↔
      self.note (.complete req ack) req = some ack := by
  have hrecords := ReqRing.records_complete hknown hack
  constructor
  · intro hnext
    refine hnext req ack ?_
    rw [next_complete]
    dsimp only
    rw [hrecords, Function.update_self]
  · intro hnote id cached hcached
    rw [next_complete] at hcached ⊢
    dsimp only at hcached ⊢
    rw [hrecords] at hcached
    by_cases hid : id = req
    · rw [hid, Function.update_self] at hcached
      obtain rfl : ack = cached := by simpa using hcached
      rw [hid, hnote]
    · rw [Function.update_of_ne hid] at hcached
      rw [note_complete_of (.inl hid)]
      exact h id cached hcached

/-- A completion replays faithfully what was replayed faithfully, exactly if it is proper. -/
theorem Faithful.complete_iff (h : Faithful self) (hhonest : Honest self) (req : ReqId)
    (ack : ServerEvent β) :
    Faithful (machine.next self (.complete req ack)) ↔ self.Proper (.complete req ack) := by
  by_cases hignored : self.ring.records req = none ∨ ack.isRunning = true
  · refine iff_of_true (fun id cached hcached => ?_) ?_
    · rw [next_complete] at hcached ⊢
      dsimp only at hcached ⊢
      rw [ReqRing.complete_of_ignored hignored] at hcached
      rw [note_complete_of (.inr hignored)]
      exact h id cached hcached
    · rw [Proper]
      obtain hnone | hrunning := hignored
      · rw [hnone]
        trivial
      · split
        · trivial
        · exact .inl hrunning
        · exact .inl hrunning
  · obtain ⟨hknown, hack⟩ := not_or.mp hignored
    rw [Bool.not_eq_true] at hack
    rw [h.complete_iff_note hknown hack, Proper]
    have hnote := note_complete self req req ack
    cases hrecord : self.ring.records req with
    | none => exact absurd hrecord hknown
    | some record =>
      cases record with
      | inFlight =>
        have hfirst := hhonest.running req hrecord
        simp only [hack, Bool.false_eq_true, false_or]
        obtain ⟨hnote, -, -, -, hfinal⟩ | ⟨hnote, hfinal⟩ := hnote
        · exact iff_of_true hnote hfinal
        · rw [hnote, hfirst, hfinal rfl hknown hfirst]
          simp
      | answered cached =>
        have hfirst := h req cached hrecord
        simp only [hack, Bool.false_eq_true, false_or]
        obtain ⟨-, -, -, hnone, -⟩ | ⟨hnote, -⟩ := hnote
        · cases hfirst.symm.trans hnone
        · rw [hnote, hfirst, Option.some.injEq, eq_comm]

/-- One call replays faithfully what was replayed faithfully, exactly if it is proper. -/
theorem Faithful.next_iff (h : Faithful self) (hhonest : Honest self) (op : ReqOp β) :
    Faithful (machine.next self op) ↔ self.Proper op := by
  cases op with
  | admitReq req => exact iff_of_true (h.admitReq hhonest.tracked req) trivial
  | complete req ack => exact h.complete_iff hhonest req ack

theorem honest_new : Honest (new : Watched β) where
  tracked := ReqRing.Tracked.new
  final := fun _ _ h => by cases h
  running := fun _ h => by cases h

/-! ### Runs -/

/-- Replays are faithful at every point of a run exactly if all its calls are proper. -/
theorem faithful_iff_along (ops : List (ReqOp β)) :
    (∀ k, Faithful (machine.run new (ops.take k))) ↔ machine.Along Proper (new : Watched β) ops :=
  Machine.forall_take_iff_along Faithful Honest (fun _ op h _ _ => h.next op)
    (fun _ op hhonest h => h.next_iff hhonest op) honest_new (fun _ _ h => by cases h) ops

theorem honest_run (ops : List (ReqOp β)) : Honest (machine.run (new : Watched β) ops) :=
  Machine.run_invariant (fun _ op h => h.next op) honest_new ops

/-- A call on a ring that remembers an id keeps the answer in its history. -/
theorem Honest.first_next (h : Honest self) {req : ReqId} {ack : ServerEvent β}
    (hfirst : self.first req = some ack) (hknown : self.ring.records req ≠ none) (op : ReqOp β) :
    (machine.next self op).first req = some ack := by
  cases op with
  | admitReq id =>
    obtain ⟨hfresh, hnote⟩ | ⟨-, hnote⟩ := note_admitReq self id req
    · have hne : req ≠ id := by
        rintro rfl
        exact hknown ((ReqRing.fresh_iff h.tracked.length_le).mp hfresh).1
      rw [if_neg hne] at hnote
      exact hnote.trans hfirst
    · exact hnote.trans hfirst
  | complete id event =>
    obtain ⟨-, rfl, -, hnone, -⟩ | ⟨hnote, -⟩ := note_complete self id req event
    · cases hfirst.symm.trans hnone
    · exact hnote.trans hfirst

/-- As long as an id is remembered, the answer in its history stays. -/
theorem Honest.first_run (h : Honest self) {req : ReqId} {ack : ServerEvent β}
    (hfirst : self.first req = some ack) {ops : List (ReqOp β)}
    (hkept : ∀ k < ops.length, (machine.run self (ops.take k)).ring.records req ≠ none) :
    (machine.run self ops).first req = some ack := by
  induction ops generalizing self with
  | nil => exact hfirst
  | cons op ops ih =>
    have hknown : self.ring.records req ≠ none := hkept 0 (Nat.succ_pos _)
    exact ih (h.next op) (h.first_next hfirst hknown op) fun k hk =>
      hkept (k + 1) (Nat.succ_lt_succ hk)

/-- A proper completion by an event that is not the request's final acknowledgement changes
nothing. -/
theorem Proper.complete_eq {req : ReqId} {ack : ServerEvent β} (h : Faithful self)
    (hhonest : Honest self) (hproper : self.Proper (.complete req ack))
    (hack : ack.isFinalFor req = false) : self.ring.complete req ack = self.ring := by
  rw [Proper] at hproper
  cases hrecord : self.ring.records req with
  | none => exact ReqRing.complete_of_ignored (.inl hrecord)
  | some record =>
    rw [hrecord] at hproper
    refine ReqRing.complete_of_ignored (.inr ?_)
    cases record with
    | inFlight => exact hproper.resolve_right (by simp [hack])
    | answered cached =>
      refine hproper.resolve_right ?_
      rintro rfl
      rw [hhonest.final req ack (h req ack hrecord)] at hack
      cases hack

/-- **Replay fidelity.** Whatever is asked next at any point of a run, a replay carries the first
final acknowledgement completed for its request, exactly if every call of the run is proper.
Then all replays of a request are the same as long as it is remembered, and an event that is not
its final acknowledgement changes nothing. -/
theorem replay_faithful_iff (ops : List (ReqOp β)) :
    ((∀ k req ack, ((machine.run new (ops.take k)).ring.admitReq req).2 = .replay ack →
        (machine.run new (ops.take k)).first req = some ack ∧ ack.isFinalFor req = true) ↔
      machine.Along Proper (new : Watched β) ops) ∧
    (machine.Along Proper (new : Watched β) ops →
      (∀ pre mid post req ack again, ops = pre ++ mid ++ post →
        ((machine.run new pre).ring.admitReq req).2 = .replay ack →
        (∀ k < mid.length, (machine.run new (pre ++ mid.take k)).ring.records req ≠ none) →
        ((machine.run new (pre ++ mid)).ring.admitReq req).2 = .replay again → again = ack) ∧
      ∀ pre req ack post, ops = pre ++ .complete req ack :: post → ack.isFinalFor req = false →
        (machine.run new (pre ++ [.complete req ack])).ring = (machine.run new pre).ring) := by
  refine ⟨?_, fun halong => ?_⟩
  · rw [← faithful_iff_along]
    constructor
    · intro h k req ack hrecord
      exact (h k req ack (ReqRing.replay_iff.mpr hrecord)).1
    · intro h k req ack hreplay
      have hfirst := h k req ack (ReqRing.replay_iff.mp hreplay)
      exact ⟨hfirst, (honest_run _).final req ack hfirst⟩
  · -- a prefix of a run of proper calls is one
    have hfaithful : ∀ pre post, ops = pre ++ post → Faithful (machine.run new pre) := by
      rintro pre post rfl
      have hpre := (Machine.along_append.mp halong).1
      have htaken := (faithful_iff_along pre).mpr hpre pre.length
      rwa [List.take_length] at htaken
    constructor
    · rintro pre mid post req ack again rfl hreplay hkept hagain
      have hfirst := hfaithful pre (mid ++ post) (List.append_assoc ..) req ack
        (ReqRing.replay_iff.mp hreplay)
      have hlater := hfaithful (pre ++ mid) post rfl req again (ReqRing.replay_iff.mp hagain)
      simp only [Machine.run_append] at hkept hlater
      have hstays := (honest_run pre).first_run hfirst hkept
      exact Option.some.inj (hlater.symm.trans hstays)
    · rintro pre req ack post hsplit hack
      have hproper := Machine.along_iff_forall_split.mp halong pre _ post hsplit
      rw [Machine.run_concat, next_complete]
      exact hproper.complete_eq (hfaithful pre _ hsplit) (honest_run pre) hack

/-- A progress event passed to `complete` while the command runs. -/
private def progressed : List (ReqOp Unit) :=
  [.admitReq 7, .complete 7 (.other .report ()), .complete 7 (.commandAck 7 .done ())]

/-- A retry gets the progress event, which is no acknowledgement, and gets it until the request is
done. -/
theorem not_replay_faithful_progressed :
    ((machine.run new (progressed.take 2)).ring.admitReq 7).2 = .replay (.other .report ()) ∧
      (machine.run new (progressed.take 2)).first 7 = none ∧
      ((machine.run new progressed).ring.admitReq 7).2 = .replay (.commandAck 7 .done ()) := by
  decide +kernel

end Watched

end MoonCore
