import Mathlib.Data.List.Nodup
import Mathlib.Data.List.Perm.Basic
import MoonCore.Machine.Run
import MoonCore.Storage.Connection

/-!
# One writer and a bounded queue

`storage::store`. Producers call `Store::write`, which queues a job or blocks while the queue
is full; one writer gathers what is waiting into a batch, commits it and answers each job of
the batch. A run of `Store.machine` is any interleaving of producers' calls with the writer's
steps, and every step of the writer says how SQLite answers it.

`Store.SerialLog` is the invariant, and `Store.acknowledged_writes_serial` the result: what is
durable is what the jobs answered Ok do one after the other, and every accepted job is answered
once.
-/

namespace MoonCore

variable {σ ω ε : Type*}

/-- Writes that may be waiting at once. -/
def queueDepth : ℕ := 16384

/-- Writes gathered into one transaction. -/
def maxBatch : ℕ := 512

/-- What a caller of the store is told. -/
inductive StoreError (ε : Type*) where
  | sqlite (e : SqliteError ε)
  /-- "the store has shut down" -/
  | closed
  deriving DecidableEq

/-- Where the writer is in `writer_loop`. -/
inductive Phase (ω ε : Type*) where
  /-- Blocked in `recv`, or about to be. -/
  | receiving
  /-- Between two `try_recv`s, with what it has so far. -/
  | gathering (batch : List (Job ω))
  /-- The commit has returned; these jobs have not been answered yet. -/
  | acking (answer : Except (StoreError ε) Unit) (left : List (Job ω))
  /-- The queue is closed and empty: the thread has returned. -/
  | stopped

/-- The store, its producers and its writer. The last two fields are history: no step reads
them. -/
structure Store (σ ω ε : Type*) where
  /-- How many answer channels have been made. -/
  made : ℕ
  /-- Jobs whose producer is blocked on a full queue. -/
  waiting : List (Job ω)
  queue : List (Job ω)
  closed : Bool
  phase : Phase ω ε
  connection : Connection σ
  /-- Every job the queue took, oldest first. -/
  accepted : List (Job ω)
  /-- Every answer sent, oldest first. -/
  acked : List (Job ω × Except (StoreError ε) Unit)

/-- What can happen next. -/
inductive Call (ω ε : Type*) where
  | write (writes : List ω)
  /-- The `i`-th blocked producer looks at the queue again. -/
  | retry (i : ℕ)
  | drop
  /-- The writer takes its next step. -/
  | writer (answers : Answers ε)

/-- A step of the writer, as a label. -/
def Call.isWriter : Call ω ε → Bool
  | .writer _ => true
  | _ => false

namespace Store

/-- A store just opened on a database. -/
def start (db : σ) : Store σ ω ε :=
  ⟨0, [], [], false, .receiving, ⟨db, none⟩, [], []⟩

/-- The queue takes a job. -/
def enqueue (store : Store σ ω ε) (job : Job ω) : Store σ ω ε :=
  { store with queue := store.queue ++ [job], accepted := store.accepted ++ [job] }

/-- `Store::write`, up to the point where it returns or blocks. -/
def write (store : Store σ ω ε) (writes : List ω) :
    Store σ ω ε × Option (Except (StoreError ε) ℕ) :=
  -- the store is gone, so nobody can call this any more
  if store.closed then (store, some (.error .closed))
  else
    let job : Job ω := ⟨store.made, writes⟩
    let made : Store σ ω ε := { store with made := store.made + 1 }
    if store.queue.length < queueDepth then (made.enqueue job, some (.ok job.ack))
    else ({ made with waiting := store.waiting ++ [job] }, none)

/-- A producer that was blocked finds room, or goes on waiting. -/
def retry (store : Store σ ω ε) (i : ℕ) : Store σ ω ε × Option (Except (StoreError ε) ℕ) :=
  match store.waiting[i]? with
  | none => (store, none)
  | some job =>
    if store.queue.length < queueDepth then
      ({ store with waiting := store.waiting.eraseIdx i }.enqueue job, some (.ok job.ack))
    else (store, none)

/-- `Store::drop` closes the queue. It owns the store, so no call of `write` is under way. -/
def drop (store : Store σ ω ε) : Store σ ω ε :=
  if store.waiting = [] then { store with closed := true } else store

/-- The commit of a gathered batch. -/
def settle (exec : ω → σ → Except ε σ) (answers : Answers ε) (batch : List (Job ω))
    (store : Store σ ω ε) : Store σ ω ε :=
  let (outcome, connection) := store.connection.commit exec answers batch
  { store with connection := connection, phase := .acking (outcome.mapError .sqlite) batch }

/-- One step of `writer_loop`. -/
def writerStep (exec : ω → σ → Except ε σ) (answers : Answers ε) (store : Store σ ω ε) :
    Store σ ω ε :=
  match store.phase with
  | .receiving =>
    match store.queue with
    | job :: queue => { store with queue := queue, phase := .gathering [job] }
    | [] => if store.closed then { store with phase := .stopped } else store
  | .gathering batch =>
    if batch.length < maxBatch then
      match store.queue with
      | job :: queue => { store with queue := queue, phase := .gathering (batch ++ [job]) }
      | [] => store.settle exec answers batch
    else store.settle exec answers batch
  | .acking answer (job :: left) =>
    { store with acked := store.acked ++ [(job, answer)], phase := .acking answer left }
  -- counters and a checkpoint, which moves pages and changes no row
  | .acking _ [] => { store with phase := .receiving }
  | .stopped => store

/-- One step; a completed call of `write` answers with the channel to wait on, or an error. -/
def step (exec : ω → σ → Except ε σ) (store : Store σ ω ε) :
    Call ω ε → Store σ ω ε × Option (Except (StoreError ε) ℕ)
  | .write writes => store.write writes
  | .retry i => store.retry i
  | .drop => (store.drop, none)
  | .writer answers => (store.writerStep exec answers, none)

/-- The store, stepping on the calls made to it. -/
def machine (exec : ω → σ → Except ε σ) :
    Machine (Store σ ω ε) (Call ω ε) (Option (Except (StoreError ε) ℕ)) :=
  ⟨step exec⟩

/-! ### Where a job is -/

/-- The jobs of the batch whose commit is under way. -/
def gathered (store : Store σ ω ε) : List (Job ω) :=
  match store.phase with
  | .gathering batch => batch
  | _ => []

/-- Jobs whose outcome is known, with it: those answered, and those about to be. -/
def settled (store : Store σ ω ε) : List (Job ω × Except (StoreError ε) Unit) :=
  match store.phase with
  | .acking answer left => store.acked ++ left.map fun job => (job, answer)
  | _ => store.acked

/-- The jobs whose outcome is Ok. -/
def confirmed (settled : List (Job ω × Except (StoreError ε) Unit)) : List (Job ω) :=
  (settled.filter fun answered => answered.2.isOk).map Prod.fst

theorem confirmed_append (settled later : List (Job ω × Except (StoreError ε) Unit)) :
    confirmed (settled ++ later) = confirmed settled ++ confirmed later := by
  rw [confirmed, List.filter_append, List.map_append]
  rfl

/-- A batch that committed is confirmed as a whole. -/
theorem confirmed_map_ok (batch : List (Job ω)) :
    confirmed (batch.map fun job => (job, (.ok () : Except (StoreError ε) Unit))) = batch := by
  induction batch with
  | nil => rfl
  | cons job batch ih => simpa [confirmed, Except.isOk, Except.toBool] using ih

/-- A batch that failed confirms nothing. -/
theorem confirmed_map_error (batch : List (Job ω)) (e : StoreError ε) :
    confirmed (batch.map fun job => (job, (.error e : Except (StoreError ε) Unit))) = [] := by
  induction batch with
  | nil => rfl
  | cons job batch ih => simp [confirmed, Except.isOk, Except.toBool]

/-- The invariant of the store on a database that was `db` when it was opened. -/
structure SerialLog (exec : ω → σ → Except ε σ) (db : σ) (store : Store σ ω ε) : Prop where
  /-- Every accepted job is in one place, and the places follow the order of the queue. -/
  order : store.settled.map Prod.fst ++ store.gathered ++ store.queue = store.accepted
  /-- What is durable is what the confirmed jobs do, one after the other. -/
  committed : serially exec (confirmed store.settled) db = .ok store.connection.committed
  /-- Every job has an answer channel of its own. -/
  nodup : ((store.accepted ++ store.waiting).map Job.ack).Nodup
  made : ∀ job ∈ store.accepted ++ store.waiting, job.ack < store.made
  batch : ∀ batch, store.phase = .gathering batch → batch ≠ [] ∧ batch.length ≤ maxBatch
  stopped : store.phase = .stopped → store.closed = true ∧ store.queue = []
  alone : store.closed = true → store.waiting = []

variable {exec : ω → σ → Except ε σ} {db : σ} {store : Store σ ω ε}

theorem SerialLog.start (exec : ω → σ → Except ε σ) (db : σ) :
    SerialLog exec db (start db : Store σ ω ε) where
  order := rfl
  committed := rfl
  nodup := List.nodup_nil
  made := by simp [Store.start]
  batch := fun batch h => by cases h
  stopped := fun h => by cases h
  alone := fun _ => rfl

/-! ### What the producers do -/

/-- A job made now has a channel of its own, wherever it is put. -/
theorem SerialLog.fresh (h : SerialLog exec db store) (writes : List ω) (jobs : List (Job ω))
    (hperm : jobs.Perm (⟨store.made, writes⟩ :: (store.accepted ++ store.waiting))) :
    (jobs.map Job.ack).Nodup ∧ ∀ job ∈ jobs, job.ack < store.made + 1 := by
  constructor
  · rw [(hperm.map Job.ack).nodup_iff, List.map_cons, List.nodup_cons]
    refine ⟨fun hmem => ?_, h.nodup⟩
    obtain ⟨job, hjob, hack⟩ := List.mem_map.mp hmem
    have hlt := h.made job hjob
    rw [hack] at hlt
    exact lt_irrefl _ hlt
  · intro job hjob
    rcases List.mem_cons.mp (hperm.mem_iff.mp hjob) with rfl | hold
    · exact Nat.lt_succ_self _
    · exact Nat.lt_succ_of_lt (h.made job hold)

theorem SerialLog.order_enqueue (h : SerialLog exec db store) (job : Job ω) :
    store.settled.map Prod.fst ++ store.gathered ++ (store.queue ++ [job]) =
      store.accepted ++ [job] := by
  rw [← List.append_assoc, h.order]

theorem SerialLog.write (h : SerialLog exec db store) (writes : List ω) :
    SerialLog exec db (store.write writes).1 := by
  rw [Store.write]
  split_ifs with hclosed hroom
  · exact h
  · obtain ⟨hnodup, hmade⟩ := h.fresh writes
      (store.accepted ++ [⟨store.made, writes⟩] ++ store.waiting) (by
        rw [List.append_assoc, List.singleton_append]
        exact List.perm_middle)
    exact
      { order := h.order_enqueue ⟨store.made, writes⟩
        committed := h.committed
        nodup := hnodup
        made := hmade
        batch := h.batch
        stopped := fun hstop => absurd (h.stopped hstop).1 hclosed
        alone := fun hdropped => absurd hdropped hclosed }
  · obtain ⟨hnodup, hmade⟩ := h.fresh writes
      (store.accepted ++ (store.waiting ++ [⟨store.made, writes⟩])) (by
        rw [← List.append_assoc]
        exact List.perm_append_singleton _ _)
    exact
      { order := h.order
        committed := h.committed
        nodup := hnodup
        made := hmade
        batch := h.batch
        stopped := h.stopped
        alone := fun hdropped => absurd hdropped hclosed }

theorem SerialLog.retry (h : SerialLog exec db store) (i : ℕ) :
    SerialLog exec db (store.retry i).1 := by
  rw [Store.retry]
  cases hi : store.waiting[i]? with
  | none => exact h
  | some job =>
    dsimp only
    split_ifs with hroom
    · obtain ⟨hlt, hjob⟩ := List.getElem?_eq_some_iff.mp hi
      have hperm : (store.accepted ++ [job] ++ store.waiting.eraseIdx i).Perm
          (store.accepted ++ store.waiting) := by
        rw [List.append_assoc, List.singleton_append, ← hjob]
        exact (List.getElem_cons_eraseIdx_perm hlt).append_left _
      have hopen : store.closed ≠ true := fun hclosed => by
        rw [h.alone hclosed] at hlt
        exact Nat.not_lt_zero _ hlt
      exact
        { order := h.order_enqueue job
          committed := h.committed
          nodup := (hperm.map Job.ack).nodup_iff.mpr h.nodup
          made := fun other hother => h.made other (hperm.mem_iff.mp hother)
          batch := h.batch
          stopped := fun hstop => absurd (h.stopped hstop).1 hopen
          alone := fun hclosed => absurd hclosed hopen }
    · exact h

theorem SerialLog.drop (h : SerialLog exec db store) : SerialLog exec db store.drop := by
  rw [Store.drop]
  split_ifs with hwaiting
  · exact
      { order := h.order
        committed := h.committed
        nodup := h.nodup
        made := h.made
        batch := h.batch
        stopped := fun hstop => ⟨rfl, (h.stopped hstop).2⟩
        alone := fun _ => hwaiting }
  · exact h

/-! ### What the writer does -/

/-- What one step of the writer is. -/
inductive Moves (exec : ω → σ → Except ε σ) (answers : Answers ε) (store : Store σ ω ε) :
    Store σ ω ε → Prop where
  /-- Nothing to do: the queue is empty, or the thread is gone. -/
  | rest (h : store.phase = .receiving ∧ store.queue = [] ∧ store.closed = false ∨
      store.phase = .stopped) : Moves exec answers store store
  | stop (hphase : store.phase = .receiving) (hqueue : store.queue = [])
      (hclosed : store.closed = true) : Moves exec answers store { store with phase := .stopped }
  | gather {batch queue : List (Job ω)} {job : Job ω}
      (hbatch : store.phase = .receiving ∧ batch = [] ∨ store.phase = .gathering batch)
      (hqueue : store.queue = job :: queue) (hroom : batch.length < maxBatch) :
      Moves exec answers store
        { store with queue := queue, phase := .gathering (batch ++ [job]) }
  | settle {batch : List (Job ω)} (hphase : store.phase = .gathering batch) :
      Moves exec answers store (store.settle exec answers batch)
  | ack {answer : Except (StoreError ε) Unit} {job : Job ω} {left : List (Job ω)}
      (hphase : store.phase = .acking answer (job :: left)) :
      Moves exec answers store
        { store with acked := store.acked ++ [(job, answer)], phase := .acking answer left }
  | again {answer : Except (StoreError ε) Unit} (hphase : store.phase = .acking answer []) :
      Moves exec answers store { store with phase := .receiving }

theorem moves_writerStep (exec : ω → σ → Except ε σ) (answers : Answers ε)
    (store : Store σ ω ε) : Moves exec answers store (store.writerStep exec answers) := by
  fun_cases Store.writerStep with
  | case1 hphase job queue hqueue => exact .gather (.inl ⟨hphase, rfl⟩) hqueue (by simp [maxBatch])
  | case2 hphase hqueue hclosed => exact .stop hphase hqueue hclosed
  | case3 hphase hqueue hopen => exact .rest (.inl ⟨hphase, hqueue, by simpa using hopen⟩)
  | case4 batch hphase hroom job queue hqueue => exact .gather (.inr hphase) hqueue hroom
  | case5 batch hphase hroom hqueue => exact .settle hphase
  | case6 batch hphase hfull => exact .settle hphase
  | case7 answer job left hphase => exact .ack hphase
  | case8 answer hphase => exact .again hphase
  | case9 hphase => exact .rest (.inr hphase)

/-- The commit of a batch settles all of it, with one answer. -/
theorem SerialLog.settle (h : SerialLog exec db store) {batch : List (Job ω)}
    (hphase : store.phase = .gathering batch) (answers : Answers ε) :
    SerialLog exec db (store.settle exec answers batch) := by
  have hsettled : store.settled = store.acked := by rw [settled, hphase]
  have horder := h.order
  have hcommitted := h.committed
  rw [hsettled, gathered, hphase] at horder
  rw [hsettled] at hcommitted
  -- Whatever the answer, the jobs of the batch stay where they are in the order of the queue.
  have hplaced (answer : Except (StoreError ε) Unit) :
      (store.acked ++ batch.map fun job => (job, answer)).map Prod.fst ++ [] ++ store.queue =
        store.accepted := by
    rw [List.map_append, List.map_map, List.append_nil, ← horder]
    congr 2
    exact List.map_id batch
  rcases Connection.commit_cases exec answers batch store.connection with
    ⟨after, hcommit, hserial⟩ | ⟨e, after, hcommit, hkept⟩
  · rw [Store.settle, hcommit]
    exact
      { order := hplaced (.ok ())
        committed := by
          change serially exec
            (confirmed (store.acked ++ batch.map fun job => (job, .ok ()))) db = _
          rw [confirmed_append, confirmed_map_ok, serially_append, hcommitted]
          exact hserial
        nodup := h.nodup
        made := h.made
        batch := fun _ hgathering => by cases hgathering
        stopped := fun hstop => by cases hstop
        alone := h.alone }
  · rw [Store.settle, hcommit]
    exact
      { order := hplaced (.error (.sqlite e))
        committed := by
          change serially exec
            (confirmed (store.acked ++ batch.map fun job => (job, .error (.sqlite e)))) db =
              .ok after.committed
          rw [confirmed_append, confirmed_map_error, List.append_nil, hcommitted, hkept]
        nodup := h.nodup
        made := h.made
        batch := fun _ hgathering => by cases hgathering
        stopped := fun hstop => by cases hstop
        alone := h.alone }

/-- The batch takes the oldest job of the queue. -/
theorem SerialLog.gather (h : SerialLog exec db store) {batch queue : List (Job ω)} {job : Job ω}
    (hbatch : store.phase = .receiving ∧ batch = [] ∨ store.phase = .gathering batch)
    (hqueue : store.queue = job :: queue) (hroom : batch.length < maxBatch) :
    SerialLog exec db { store with queue := queue, phase := .gathering (batch ++ [job]) } := by
  have hsettled : store.settled = store.acked := by
    rcases hbatch with ⟨hphase, -⟩ | hphase <;> rw [settled, hphase]
  have hgathered : store.gathered = batch := by
    rcases hbatch with ⟨hphase, rfl⟩ | hphase <;> rw [gathered, hphase]
  have horder := h.order
  have hcommitted := h.committed
  rw [hsettled, hgathered, hqueue] at horder
  rw [hsettled] at hcommitted
  exact
    { order := by
        rw [← horder]
        simp [settled, gathered]
      committed := hcommitted
      nodup := h.nodup
      made := h.made
      batch := fun taken htaken => by
        injection htaken with htaken
        subst htaken
        refine ⟨List.append_ne_nil_of_right_ne_nil _ (List.cons_ne_nil _ _), ?_⟩
        rw [List.length_append, List.length_singleton]
        exact hroom
      stopped := fun hstop => by cases hstop
      alone := h.alone }

/-- A change of phase that leaves every job in its place. -/
theorem SerialLog.rephase (h : SerialLog exec db store) (phase : Phase ω ε)
    (acked : List (Job ω × Except (StoreError ε) Unit))
    (hsettled : Store.settled { store with phase := phase, acked := acked } = store.settled)
    (hgathered : Store.gathered { store with phase := phase, acked := acked } = store.gathered)
    (hbatch : ∀ batch, phase ≠ .gathering batch)
    (hstopped : phase = .stopped → store.closed = true ∧ store.queue = []) :
    SerialLog exec db { store with phase := phase, acked := acked } where
  order := by rw [hsettled, hgathered, h.order]
  committed := by rw [hsettled, h.committed]
  nodup := h.nodup
  made := h.made
  batch := fun batch hphase => absurd hphase (hbatch batch)
  stopped := hstopped
  alone := h.alone

theorem SerialLog.writerStep (h : SerialLog exec db store) (answers : Answers ε) :
    SerialLog exec db (store.writerStep exec answers) := by
  have hmoves := moves_writerStep exec answers store
  generalize store.writerStep exec answers = after at hmoves
  cases hmoves with
  | rest => exact h
  | stop hphase hqueue hclosed =>
    refine h.rephase .stopped store.acked ?_ ?_ (fun _ hphase => by cases hphase)
      fun _ => ⟨hclosed, hqueue⟩
    · simp only [settled, hphase]
    · simp only [gathered, hphase]
  | gather hbatch hqueue hroom => exact h.gather hbatch hqueue hroom
  | settle hphase => exact h.settle hphase answers
  | ack hphase =>
    -- the answered job moves from those about to be answered to those answered
    refine h.rephase _ _ ?_ ?_ (fun _ hphase => by cases hphase) fun hstop => by cases hstop
    · simp only [settled, hphase, List.map_cons, List.append_assoc, List.singleton_append]
    · simp only [gathered, hphase]
  | again hphase =>
    refine h.rephase .receiving store.acked ?_ ?_ (fun _ hphase => by cases hphase)
      fun hstop => by cases hstop
    · simp only [settled, hphase, List.map_nil, List.append_nil]
    · simp only [gathered, hphase]

/-- Every step keeps the invariant. -/
theorem SerialLog.next (h : SerialLog exec db store) (call : Call ω ε) :
    SerialLog exec db ((machine exec).next store call) := by
  cases call with
  | write writes => exact h.write writes
  | retry i => exact h.retry i
  | drop => exact h.drop
  | writer answers => exact h.writerStep answers

/-- Every run keeps the invariant. -/
theorem SerialLog.run (h : SerialLog exec db store) (calls : List (Call ω ε)) :
    SerialLog exec db ((machine exec).run store calls) :=
  Machine.run_invariant (fun _ call h => h.next call) h calls

/-! ### What never goes back -/

/-- Outcomes, answers and the queue's order are only ever added to, and the store stays shut. -/
structure Grows (before after : Store σ ω ε) : Prop where
  settled : before.settled <+: after.settled
  acked : before.acked <+: after.acked
  accepted : before.accepted <+: after.accepted
  closed : before.closed = true → after.closed = true

theorem Grows.refl (store : Store σ ω ε) : Grows store store :=
  ⟨List.prefix_rfl, List.prefix_rfl, List.prefix_rfl, id⟩

theorem Grows.trans {first middle last : Store σ ω ε} (h : Grows first middle)
    (h' : Grows middle last) : Grows first last :=
  ⟨h.settled.trans h'.settled, h.acked.trans h'.acked, h.accepted.trans h'.accepted,
    fun hclosed => h'.closed (h.closed hclosed)⟩

/-- A batch whose commit has returned is settled, and nothing else is. -/
theorem settled_settle (exec : ω → σ → Except ε σ) (answers : Answers ε) (batch : List (Job ω))
    (store : Store σ ω ε) :
    ∃ answer, (store.settle exec answers batch).phase = .acking answer batch ∧
      (store.settle exec answers batch).settled =
        store.acked ++ batch.map fun job => (job, answer) :=
  ⟨_, rfl, rfl⟩

theorem grows_writerStep (exec : ω → σ → Except ε σ) (answers : Answers ε)
    (store : Store σ ω ε) : Grows store (store.writerStep exec answers) := by
  have hmoves := moves_writerStep exec answers store
  generalize store.writerStep exec answers = after at hmoves
  cases hmoves with
  | rest => exact .refl store
  | stop hphase =>
    refine ⟨?_, List.prefix_rfl, List.prefix_rfl, id⟩
    simp only [settled, hphase, List.prefix_rfl]
  | gather hbatch =>
    refine ⟨?_, List.prefix_rfl, List.prefix_rfl, id⟩
    rcases hbatch with ⟨hphase, -⟩ | hphase <;> simp only [settled, hphase, List.prefix_rfl]
  | @settle batch hphase =>
    obtain ⟨answer, -, hsettled⟩ := settled_settle exec answers batch store
    refine ⟨?_, List.prefix_rfl, List.prefix_rfl, id⟩
    rw [hsettled]
    simp only [settled, hphase, List.prefix_append]
  | ack hphase =>
    refine ⟨?_, List.prefix_append _ _, List.prefix_rfl, id⟩
    simp only [settled, hphase, List.map_cons, List.append_assoc, List.singleton_append,
      List.prefix_rfl]
  | again hphase =>
    refine ⟨?_, List.prefix_rfl, List.prefix_rfl, id⟩
    simp only [settled, hphase, List.map_nil, List.append_nil, List.prefix_rfl]

theorem grows_next (exec : ω → σ → Except ε σ) (store : Store σ ω ε) (call : Call ω ε) :
    Grows store ((machine exec).next store call) := by
  cases call with
  | write writes =>
    change Grows store (store.write writes).1
    rw [Store.write]
    split_ifs with hclosed hroom
    · exact .refl store
    · exact ⟨List.prefix_rfl, List.prefix_rfl, List.prefix_append _ _, id⟩
    · exact ⟨List.prefix_rfl, List.prefix_rfl, List.prefix_rfl, id⟩
  | retry i =>
    change Grows store (store.retry i).1
    fun_cases Store.retry with
    | case1 => exact .refl store
    | case2 => exact ⟨List.prefix_rfl, List.prefix_rfl, List.prefix_append _ _, id⟩
    | case3 => exact .refl store
  | drop =>
    change Grows store store.drop
    rw [Store.drop]
    split_ifs
    · exact ⟨List.prefix_rfl, List.prefix_rfl, List.prefix_rfl, fun _ => rfl⟩
    · exact .refl store
  | writer answers => exact grows_writerStep exec answers store

theorem grows_run (exec : ω → σ → Except ε σ) (store : Store σ ω ε) (calls : List (Call ω ε)) :
    Grows store ((machine exec).run store calls) :=
  Machine.run_invariant (fun _ call h => h.trans (grows_next exec _ call)) (.refl store) calls

theorem accepted_writerStep (exec : ω → σ → Except ε σ) (answers : Answers ε)
    (store : Store σ ω ε) : (store.writerStep exec answers).accepted = store.accepted := by
  have hmoves := moves_writerStep exec answers store
  generalize store.writerStep exec answers = after at hmoves
  cases hmoves <;> rfl

/-- Nobody can queue a job on a store that was dropped. -/
theorem SerialLog.accepted_next_of_closed (h : SerialLog exec db store)
    (hclosed : store.closed = true) (call : Call ω ε) :
    ((machine exec).next store call).accepted = store.accepted := by
  cases call with
  | write writes =>
    change (store.write writes).1.accepted = _
    rw [Store.write, if_pos hclosed]
  | retry i =>
    change (store.retry i).1.accepted = _
    rw [Store.retry, h.alone hclosed]
    rfl
  | drop =>
    change store.drop.accepted = _
    rw [Store.drop]
    split_ifs <;> rfl
  | writer answers => exact accepted_writerStep exec answers store

/-! ### The writer gets through the queue -/

/-- The writer's steps left in its present round, were it to get a full batch. -/
def roundLeft : Phase ω ε → ℕ
  | .receiving => 2 * maxBatch + 2
  | .gathering batch => 2 * maxBatch + 2 - batch.length
  | .acking _ left => 2 * maxBatch + 3 + left.length
  | .stopped => 0

/-- A bound on the writer's steps until the first `k` accepted jobs are answered: a round for
each job not settled yet, and the present one. -/
def work (k : ℕ) (store : Store σ ω ε) : ℕ :=
  (k - store.settled.length) * (2 * maxBatch + 2) + roundLeft store.phase

/-- A producer's call leaves the writer's work as it is. -/
theorem work_next_of_producer (exec : ω → σ → Except ε σ) (k : ℕ) (store : Store σ ω ε)
    {call : Call ω ε} (hcall : ¬ call.isWriter) :
    ((machine exec).next store call).work k = store.work k := by
  cases call with
  | write writes =>
    change (store.write writes).1.work k = _
    rw [Store.write]
    split_ifs <;> rfl
  | retry i =>
    change (store.retry i).1.work k = _
    fun_cases Store.retry <;> rfl
  | drop =>
    change store.drop.work k = _
    rw [Store.drop]
    split_ifs <;> rfl
  | writer answers => exact absurd rfl hcall

/-- The jobs that are neither settled nor queued are the gathered ones. -/
theorem SerialLog.length_accepted (h : SerialLog exec db store) :
    store.accepted.length =
      store.settled.length + store.gathered.length + store.queue.length := by
  rw [← h.order, List.length_append, List.length_append, List.length_map]

theorem acked_eq_settled (h : ∀ answer left, store.phase ≠ .acking answer left) :
    store.acked = store.settled := by
  rw [settled]
  cases hphase : store.phase with
  | acking answer left => exact absurd hphase (h answer left)
  | _ => rfl

theorem acked_prefix_settled (store : Store σ ω ε) : store.acked <+: store.settled := by
  rw [settled]
  cases store.phase with
  | acking answer left => exact List.prefix_append _ _
  | _ => exact List.prefix_rfl

/-- While something is left to do, a step of the writer does some of it. -/
theorem SerialLog.work_writerStep (h : SerialLog exec db store) {k : ℕ}
    (hk : k ≤ store.accepted.length)
    (hbusy : store.acked.length < k ∨
      store.closed = true ∧ k = store.accepted.length ∧ store.phase ≠ .stopped)
    (answers : Answers ε) : (store.writerStep exec answers).work k < store.work k := by
  have hlength := h.length_accepted
  have hmoves := moves_writerStep exec answers store
  generalize store.writerStep exec answers = after at hmoves
  cases hmoves with
  | rest hrest =>
    exfalso
    rcases hrest with ⟨hphase, hqueue, hopen⟩ | hphase
    · simp only [settled, gathered, hphase, hqueue, List.length_nil] at hlength
      rcases hbusy with hbusy | ⟨hclosed, -, -⟩
      · omega
      · rw [hopen] at hclosed
        cases hclosed
    · have hqueue := (h.stopped hphase).2
      simp only [settled, gathered, hphase, hqueue, List.length_nil] at hlength
      rcases hbusy with hbusy | ⟨-, -, hrunning⟩
      · omega
      · exact hrunning hphase
  | stop hphase => simp [work, settled, roundLeft, hphase]
  | @gather batch queue job hbatch hqueue hroom =>
    rcases hbatch with ⟨hphase, rfl⟩ | hphase
    · simp [work, settled, roundLeft, hphase, maxBatch]
    · simp only [work, settled, roundLeft, hphase, List.length_append, List.length_singleton]
      omega
  | @settle batch hphase =>
    obtain ⟨answer, hafter, hsettled⟩ := settled_settle exec answers batch store
    obtain ⟨hne, hlen⟩ := h.batch batch hphase
    have hpos : 0 < batch.length := List.length_pos_of_ne_nil hne
    have hnow : store.settled.length = store.acked.length := by rw [settled, hphase]
    simp only [gathered, hphase, hnow] at hlength
    have hleft : store.acked.length < k := by
      rcases hbusy with hbusy | ⟨-, rfl, -⟩
      · exact hbusy
      · omega
    simp only [work, hafter, hsettled, hnow, hphase, roundLeft, List.length_append,
      List.length_map, maxBatch] at hlen ⊢
    omega
  | ack hphase => simp [work, settled, roundLeft, hphase]
  | again hphase => simp [work, settled, roundLeft, hphase]

/-- While something is left to do, no call adds to it, and a step of the writer does some. -/
theorem SerialLog.work_next (h : SerialLog exec db store) {k : ℕ}
    (hk : k ≤ store.accepted.length)
    (hbusy : store.acked.length < k ∨
      store.closed = true ∧ k = store.accepted.length ∧ store.phase ≠ .stopped)
    (call : Call ω ε) :
    ((machine exec).next store call).work k ≤ store.work k ∧
      (call.isWriter → ((machine exec).next store call).work k < store.work k) := by
  by_cases hcall : call.isWriter
  · cases call with
    | writer answers =>
      have hless := h.work_writerStep hk hbusy answers
      exact ⟨hless.le, fun _ => hless⟩
    | _ => cases hcall
  · exact ⟨(work_next_of_producer exec k store hcall).le, fun hwriter => absurd hwriter hcall⟩

/-- Answers are sent in the order of the queue. -/
theorem SerialLog.acked_in_order (h : SerialLog exec db store) :
    store.acked.map Prod.fst <+: store.accepted := by
  rw [← h.order, List.append_assoc]
  exact ((acked_prefix_settled store).map Prod.fst).trans (List.prefix_append _ _)

/-- Every job accepted by now is answered after enough steps of the writer, whatever the
producers and the disk do meanwhile. -/
theorem SerialLog.answered (h : SerialLog exec db store) (later : List (Call ω ε))
    (hlater : store.work store.accepted.length < later.countP Call.isWriter) :
    store.accepted <+: ((machine exec).run store later).acked.map Prod.fst := by
  have hreached : store.accepted.length ≤ ((machine exec).run store later).acked.length := by
    refine (machine exec).reaches_of_measure
      (fun s => SerialLog exec db s ∧ store.accepted.length ≤ s.accepted.length)
      (fun s => store.accepted.length ≤ s.acked.length) Call.isWriter
      (work store.accepted.length) ?_ ?_ ?_ ?_ ⟨h, le_rfl⟩ hlater
    · rintro s call ⟨hs, hle⟩
      exact ⟨hs.next call, hle.trans (grows_next exec s call).accepted.length_le⟩
    · rintro s call - hgoal
      exact hgoal.trans (grows_next exec s call).acked.length_le
    · rintro s call ⟨hs, hle⟩ hgoal
      exact (hs.work_next hle (.inl (not_le.mp hgoal)) call).1
    · rintro s call ⟨hs, hle⟩ hgoal
      exact (hs.work_next hle (.inl (not_le.mp hgoal)) call).2
  refine List.prefix_of_prefix_length_le (grows_run exec store later).accepted
    (h.run later).acked_in_order ?_
  rw [List.length_map]
  exact hreached

/-- A dropped store that has taken the jobs `jobs`. -/
def Dropped (exec : ω → σ → Except ε σ) (db : σ) (jobs : List (Job ω)) (store : Store σ ω ε) :
    Prop :=
  SerialLog exec db store ∧ store.closed = true ∧ store.accepted = jobs

theorem Dropped.next {jobs : List (Job ω)} (h : Dropped exec db jobs store) (call : Call ω ε) :
    Dropped exec db jobs ((machine exec).next store call) := by
  obtain ⟨hlog, hclosed, hjobs⟩ := h
  refine ⟨hlog.next call, (grows_next exec store call).closed hclosed, ?_⟩
  rw [hlog.accepted_next_of_closed hclosed, hjobs]

/-- After a drop the writer answers everything it was given. -/
theorem SerialLog.acked_of_closed (h : SerialLog exec db store) (hclosed : store.closed = true)
    (later : List (Call ω ε))
    (hlater : store.work store.accepted.length < later.countP Call.isWriter) :
    ((machine exec).run store later).acked.map Prod.fst = store.accepted := by
  have hdropped : Dropped exec db store.accepted ((machine exec).run store later) :=
    Machine.run_invariant (fun _ call hs => hs.next call) ⟨h, hclosed, rfl⟩ later
  obtain ⟨hlog, -, hsame⟩ := hdropped
  have hprefix := hlog.acked_in_order
  rw [hsame] at hprefix
  exact hprefix.eq_of_length_le (h.answered later hlater).length_le

/-- After a drop the writer stops. -/
theorem SerialLog.stopped_of_closed (h : SerialLog exec db store) (hclosed : store.closed = true)
    (later : List (Call ω ε))
    (hlater : store.work store.accepted.length < later.countP Call.isWriter) :
    ((machine exec).run store later).phase = .stopped := by
  refine (machine exec).reaches_of_measure (Dropped exec db store.accepted)
    (fun s => s.phase = .stopped) Call.isWriter
    (work store.accepted.length) (fun _ call hs => hs.next call) ?_ ?_ ?_ ⟨h, hclosed, rfl⟩ hlater
  · rintro s call ⟨hs, hshut, -⟩ hgoal
    cases call with
    | write writes =>
      change (s.write writes).1.phase = _
      rw [Store.write, if_pos hshut]
      exact hgoal
    | retry i =>
      change (s.retry i).1.phase = _
      rw [Store.retry, hs.alone hshut]
      exact hgoal
    | drop =>
      change s.drop.phase = _
      rw [Store.drop]
      split_ifs <;> exact hgoal
    | writer answers =>
      change (s.writerStep exec answers).phase = _
      rw [Store.writerStep, hgoal]
      exact hgoal
  · rintro s call ⟨hs, hshut, hsame⟩ hgoal
    rw [← hsame]
    exact (hs.work_next le_rfl (.inr ⟨hshut, rfl, hgoal⟩) call).1
  · rintro s call ⟨hs, hshut, hsame⟩ hgoal
    rw [← hsame]
    exact (hs.work_next le_rfl (.inr ⟨hshut, rfl, hgoal⟩) call).2

/-! ### The result -/

/-- The channel of a job that `Store::write` has just answered Ok for. -/
def granted : Option (Except (StoreError ε) ℕ) → Option ℕ
  | some (.ok channel) => some channel
  | _ => none

theorem accepted_next (exec : ω → σ → Except ε σ) (store : Store σ ω ε) (call : Call ω ε) :
    ((machine exec).next store call).accepted.map Job.ack =
      store.accepted.map Job.ack ++ (granted ((machine exec).out store call)).toList := by
  cases call with
  | write writes =>
    change (store.write writes).1.accepted.map Job.ack =
      _ ++ (granted (store.write writes).2).toList
    rw [Store.write]
    split_ifs <;> simp [granted, enqueue]
  | retry i =>
    change (store.retry i).1.accepted.map Job.ack = _ ++ (granted (store.retry i).2).toList
    fun_cases Store.retry <;> simp [granted, enqueue]
  | drop =>
    change store.drop.accepted.map Job.ack = _ ++ []
    rw [Store.drop, List.append_nil]
    split_ifs <;> rfl
  | writer answers =>
    change (store.writerStep exec answers).accepted.map Job.ack = _ ++ []
    rw [accepted_writerStep, List.append_nil]

/-- The accepted jobs are those `Store::write` answered Ok for. -/
theorem accepted_run (exec : ω → σ → Except ε σ) (store : Store σ ω ε)
    (calls : List (Call ω ε)) :
    ((machine exec).run store calls).accepted.map Job.ack =
      store.accepted.map Job.ack ++ ((machine exec).outputs store calls).filterMap granted := by
  induction calls generalizing store with
  | nil => simp
  | cons call calls ih =>
    rw [Machine.run_cons, ih, accepted_next, Machine.outputs_cons, List.filterMap_cons]
    cases granted ((machine exec).out store call) with
    | none => simp
    | some channel => simp

/-- A job whose answer is Err is not among the confirmed ones. -/
theorem SerialLog.not_mem_confirmed (h : SerialLog exec db store) {job : Job ω}
    {e : StoreError ε} (hjob : (job, .error e) ∈ store.settled) :
    job ∉ confirmed store.settled := by
  intro hmem
  obtain ⟨⟨other, answer⟩, hother, rfl⟩ := List.mem_map.mp hmem
  obtain ⟨hsettled, hok⟩ := List.mem_filter.mp hother
  have hnodup : (store.settled.map fun answered => answered.1.ack).Nodup := by
    have hall := h.nodup
    rw [← h.order] at hall
    simp only [List.map_append, List.map_map, List.append_assoc] at hall
    exact (List.nodup_append.mp hall).1
  have heq := List.inj_on_of_nodup_map hnodup hjob hsettled rfl
  rw [← (Prod.mk.inj heq).2] at hok
  cases hok

/-- What a store that was opened on `db` owes its callers. -/
structure Acknowledged (exec : ω → σ → Except ε σ) (db : σ) (store : Store σ ω ε) : Prop where
  /-- Every accepted job has an answer channel of its own. -/
  nodup : (store.accepted.map Job.ack).Nodup
  /-- Outcomes are decided in the order of the queue, each job once. -/
  order : store.settled.map Prod.fst <+: store.accepted
  /-- An answer is sent in the same order, once, and is an outcome already decided. -/
  outcome : store.acked <+: store.settled
  /-- Unless the writer is in the middle of answering, all that is decided is answered. -/
  quiet : (∀ answer left, store.phase ≠ .acking answer left) → store.acked = store.settled
  /-- What is durable is what the confirmed jobs do, in order and each once. -/
  durable : serially exec (confirmed store.settled) db = .ok store.connection.committed
  /-- A refused job is not one of them. -/
  refused : ∀ job e, (job, .error e) ∈ store.settled → job ∉ confirmed store.settled

/-- **Acknowledged writes equal a serial log.** Over every run, with any calls of the producers,
any batches and any failures of SQLite: what is durable is the serial effect of the jobs whose
answer is Ok; an outcome once decided is final; every accepted job is answered once the writer
has taken enough steps; and after a drop the writer answers everything it was given and
stops. -/
theorem acknowledged_writes_serial (exec : ω → σ → Except ε σ) (db : σ)
    (calls : List (Call ω ε)) :
    let store := (machine exec).run (start db) calls
    store.accepted.map Job.ack =
        ((machine exec).outputs (start db) calls).filterMap granted ∧
      Acknowledged exec db store ∧
      ∀ later, let after := (machine exec).run store later
        store.settled <+: after.settled ∧
        (store.work store.accepted.length < later.countP Call.isWriter →
          store.accepted <+: after.acked.map Prod.fst) ∧
        (store.closed = true → store.work store.accepted.length < later.countP Call.isWriter →
          after.phase = .stopped ∧ after.acked.map Prod.fst = store.accepted) := by
  have h := (SerialLog.start exec db : SerialLog exec db (start db : Store σ ω ε)).run calls
  refine ⟨accepted_run exec (start db) calls, ?_, fun later => ⟨?_, h.answered later, ?_⟩⟩
  · exact
      { nodup := by
          have hall := h.nodup
          rw [List.map_append] at hall
          exact (List.nodup_append.mp hall).1
        order := by
          rw [← h.order, List.append_assoc]
          exact List.prefix_append _ _
        outcome := acked_prefix_settled _
        quiet := acked_eq_settled
        durable := h.committed
        refused := fun _ _ hjob => h.not_mem_confirmed hjob }
  · exact (grows_run exec _ later).settled
  · intro hclosed hlater
    exact ⟨h.stopped_of_closed hclosed later hlater, h.acked_of_closed hclosed later hlater⟩

/-- An insert into a table with a primary key. -/
def insertKey (key : ℕ) (table : List ℕ) : Except Unit (List ℕ) :=
  if key ∈ table then .error () else .ok (table ++ [key])

/-- Two jobs go through in one batch, a third one trips over the key of the first, and the store
is dropped. -/
def threeJobs : List (Call ℕ Unit) :=
  [.write [1, 2], .write [3]] ++ List.replicate 6 (.writer .calm) ++ [.write [4, 1]] ++
    List.replicate 3 (.writer .calm) ++ [.drop]

/-- The two are answered Ok and are what is durable, the third is answered Err and has left
nothing, and the writer stops. -/
theorem acknowledged_writes_serial_threeJobs :
    let store := (machine insertKey).run (start []) threeJobs
    store.acked =
        [(⟨0, [1, 2]⟩, .ok ()), (⟨1, [3]⟩, .ok ()),
          (⟨2, [4, 1]⟩, .error (.sqlite (.raised ())))] ∧
      store.connection.committed = [1, 2, 3] ∧
      ((machine insertKey).run store (List.replicate 1028 (.writer .calm))).phase = .stopped := by
  intro store
  obtain ⟨-, h, hlater⟩ := acknowledged_writes_serial insertKey [] threeJobs
  have hacked : store.acked =
      [(⟨0, [1, 2]⟩, .ok ()), (⟨1, [3]⟩, .ok ()),
        (⟨2, [4, 1]⟩, .error (.sqlite (.raised ())))] := by decide
  have hserial : serially insertKey (confirmed store.settled) [] = .ok [1, 2, 3] := by rfl
  have hwork : store.work store.accepted.length <
      (List.replicate 1028 (.writer .calm : Call ℕ Unit)).countP Call.isWriter := by
    rw [List.countP_replicate]
    decide
  exact ⟨hacked, (Except.ok.inj (hserial.symm.trans h.durable)).symm,
    ((hlater _).2.2 rfl hwork).1⟩

end Store

end MoonCore
