import MoonCore.Storage.Store

/-!
# What a job shares with its batch

`writer_loop` commits whatever has arrived as one transaction. Which jobs meet in a batch depends
on timing; where nothing outside the writes fails, everything else is a function of the batches
(`commitBatches`), and every run of the store is one of these (`Store.calm_run`).

A batch is a unit: `batches_atomic` says what becomes of its jobs, and exactly when it does not
matter how a queue of jobs is cut into batches.
-/

namespace MoonCore

variable {σ ω ε : Type*}

/-- What becomes of each job, and the connection, after committing the batches one after the
other. -/
def commitBatches (exec : ω → σ → Except ε σ) :
    List (List (Job ω)) → Connection σ →
      List (Job ω × Except (StoreError ε) Unit) × Connection σ
  | [], connection => ([], connection)
  | batch :: batches, connection =>
    let (outcome, connection) := connection.commit exec .calm batch
    let (acks, connection) := commitBatches exec batches connection
    (batch.map (fun job => (job, outcome.mapError .sqlite)) ++ acks, connection)

/-- A queue of jobs cut into batches the writer can gather: not empty, and no longer than
`maxBatch`. -/
structure Grouping (jobs : List (Job ω)) (batches : List (List (Job ω))) : Prop where
  flatten_eq : batches.flatten = jobs
  ne_nil : ∀ batch ∈ batches, batch ≠ []
  length_le : ∀ batch ∈ batches, batch.length ≤ maxBatch

/-- Every job in a batch of its own. -/
def alone (jobs : List (Job ω)) : List (List (Job ω)) := jobs.map fun job => [job]

theorem grouping_alone (jobs : List (Job ω)) : Grouping jobs (alone jobs) where
  flatten_eq := by
    induction jobs with
    | nil => rfl
    | cons job jobs ih => exact congrArg (job :: ·) ih
  ne_nil := by simp [alone]
  length_le := by
    simp only [alone, List.mem_map, forall_exists_index, and_imp]
    rintro _ job _ rfl
    rw [List.length_singleton]
    decide

theorem Grouping.cons {jobs : List (Job ω)} {batches : List (List (Job ω))}
    (h : Grouping jobs batches) {batch : List (Job ω)} (hne : batch ≠ [])
    (hlength : batch.length ≤ maxBatch) : Grouping (batch ++ jobs) (batch :: batches) where
  flatten_eq := by rw [List.flatten_cons, h.flatten_eq]
  ne_nil := List.forall_mem_cons.mpr ⟨hne, h.ne_nil⟩
  length_le := List.forall_mem_cons.mpr ⟨hlength, h.length_le⟩

/-! ### One batch -/

variable {exec : ω → σ → Except ε σ}

/-- Where nothing refuses a write from outside, the loops of `commit` apply the writes one after
the other. -/
theorem execWrites_calm (k : ℕ) (writes : List ω) (db : σ) :
    execWrites exec (fun _ => none) k writes db =
      writes.foldlM (fun db write => exec write db) db := by
  induction writes generalizing k db with
  | nil => rfl
  | cons write writes ih =>
    rw [execWrites, List.foldlM_cons]
    exact congrArg (exec write db >>= ·) (funext fun db => ih (k + 1) db)

/-- A calm commit of a batch whose jobs all go through, one after the other. -/
theorem commit_calm_ok {batch : List (Job ω)} {db after : σ}
    (h : serially exec batch db = .ok after) :
    (⟨db, none⟩ : Connection σ).commit exec .calm batch = (.ok (), ⟨after, none⟩) := by
  have hexec : execWrites exec Answers.calm.statement 0 (batch.flatMap Job.writes) db =
      .ok after := (execWrites_calm 0 _ db).trans h
  simp only [Connection.commit, Connection.beginImmediate, Answers.calm] at hexec ⊢
  rw [hexec]
  rfl

/-- A calm commit of a batch with a write that fails changes nothing. -/
theorem commit_calm_error {batch : List (Job ω)} {db : σ} {e : ε}
    (h : serially exec batch db = .error e) :
    (⟨db, none⟩ : Connection σ).commit exec .calm batch = (.error (.raised e), ⟨db, none⟩) := by
  have hexec : execWrites exec Answers.calm.statement 0 (batch.flatMap Job.writes) db =
      .error e := (execWrites_calm 0 _ db).trans h
  simp only [Connection.commit, Connection.beginImmediate, Answers.calm] at hexec ⊢
  rw [hexec]
  rfl

/-- The batch goes through as a whole, and every job of it is told so. -/
theorem commitBatches_cons_ok {batch : List (Job ω)} {db after : σ}
    (h : serially exec batch db = .ok after) (batches : List (List (Job ω))) :
    commitBatches exec (batch :: batches) ⟨db, none⟩ =
      (batch.map (fun job => (job, .ok ())) ++ (commitBatches exec batches ⟨after, none⟩).1,
        (commitBatches exec batches ⟨after, none⟩).2) := by
  rw [commitBatches, commit_calm_ok h]
  rfl

/-- Or it changes nothing, and every job of it is told what failed. -/
theorem commitBatches_cons_error {batch : List (Job ω)} {db : σ} {e : ε}
    (h : serially exec batch db = .error e) (batches : List (List (Job ω))) :
    commitBatches exec (batch :: batches) ⟨db, none⟩ =
      (batch.map (fun job => (job, .error (.sqlite (.raised e)))) ++
          (commitBatches exec batches ⟨db, none⟩).1,
        (commitBatches exec batches ⟨db, none⟩).2) := by
  rw [commitBatches, commit_calm_error h]
  rfl

/-! ### All of them -/

/-- The jobs keep their order and are all answered. -/
theorem commitBatches_jobs (exec : ω → σ → Except ε σ) (batches : List (List (Job ω)))
    (connection : Connection σ) :
    (commitBatches exec batches connection).1.map Prod.fst = batches.flatten := by
  induction batches generalizing connection with
  | nil => rfl
  | cons batch batches ih =>
    simp only [commitBatches, List.map_append, List.map_map, ih, List.flatten_cons]
    congr 1
    exact List.map_id _

/-- No transaction is left open. -/
theorem commitBatches_closed (exec : ω → σ → Except ε σ) (batches : List (List (Job ω))) (db : σ) :
    ∃ after, (commitBatches exec batches ⟨db, none⟩).2 = ⟨after, none⟩ := by
  induction batches generalizing db with
  | nil => exact ⟨db, rfl⟩
  | cons batch batches ih =>
    cases h : serially exec batch db with
    | ok after =>
      rw [commitBatches_cons_ok h]
      exact ih after
    | error e =>
      rw [commitBatches_cons_error h]
      exact ih db

theorem commitBatches_append (exec : ω → σ → Except ε σ) (batches later : List (List (Job ω)))
    (connection : Connection σ) :
    commitBatches exec (batches ++ later) connection =
      ((commitBatches exec batches connection).1 ++
          (commitBatches exec later (commitBatches exec batches connection).2).1,
        (commitBatches exec later (commitBatches exec batches connection).2).2) := by
  induction batches generalizing connection with
  | nil => rfl
  | cons batch batches ih =>
    simp only [List.cons_append, commitBatches, ih, List.append_assoc]

/-- Batches whose jobs all go through do what the jobs do, one after the other. -/
theorem commitBatches_ok {batches : List (List (Job ω))} {db after : σ}
    (h : serially exec batches.flatten db = .ok after) :
    commitBatches exec batches ⟨db, none⟩ =
      (batches.flatten.map fun job => (job, .ok ()), ⟨after, none⟩) := by
  induction batches generalizing db with
  | nil =>
    obtain rfl : db = after := Except.ok.inj h
    rfl
  | cons batch batches ih =>
    rw [List.flatten_cons, serially_append] at h
    cases hbatch : serially exec batch db with
    | error e =>
      rw [hbatch] at h
      cases h
    | ok mid =>
      rw [hbatch] at h
      rw [commitBatches_cons_ok hbatch, ih h, List.flatten_cons, List.map_append]

/-- Batches of jobs that all fail the same way do nothing. -/
theorem commitBatches_error {batches : List (List (Job ω))} {db : σ} {e : ε}
    (hne : ∀ batch ∈ batches, batch ≠ [])
    (h : ∀ job ∈ batches.flatten, serially exec [job] db = .error e) :
    commitBatches exec batches ⟨db, none⟩ =
      (batches.flatten.map fun job => (job, .error (.sqlite (.raised e))), ⟨db, none⟩) := by
  induction batches with
  | nil => rfl
  | cons batch batches ih =>
    obtain ⟨hbatch, hbatches⟩ := List.forall_mem_cons.mp hne
    obtain ⟨job, jobs, rfl⟩ := List.exists_cons_of_ne_nil hbatch
    -- the first job of the batch fails it
    have hfirst : serially exec (job :: jobs) db = .error e := by
      rw [← List.singleton_append, serially_append, h job (by simp)]
      rfl
    have hrest : ∀ other ∈ batches.flatten, serially exec [other] db = .error e := by
      intro other hother
      refine h other ?_
      rw [List.flatten_cons]
      exact List.mem_append_right _ hother
    rw [commitBatches_cons_error hfirst, ih hbatches hrest, List.flatten_cons, List.map_append]

/-- What is durable is what the jobs answered Ok do, one after the other. -/
theorem serially_confirmed (batches : List (List (Job ω))) (db : σ) :
    serially exec (Store.confirmed (commitBatches exec batches ⟨db, none⟩).1) db =
      .ok (commitBatches exec batches ⟨db, none⟩).2.committed := by
  induction batches generalizing db with
  | nil => rfl
  | cons batch batches ih =>
    cases h : serially exec batch db with
    | ok after =>
      rw [commitBatches_cons_ok h, Store.confirmed_append, Store.confirmed_map_ok, serially_append,
        h]
      exact ih after
    | error e =>
      rw [commitBatches_cons_error h, Store.confirmed_append, Store.confirmed_map_error]
      exact ih db

/-! ### Which groupings agree -/

/-- It does not matter how the jobs are cut into batches. -/
def Agree (exec : ω → σ → Except ε σ) (jobs : List (Job ω)) (db : σ) : Prop :=
  ∀ batches batches', Grouping jobs batches → Grouping jobs batches' →
    commitBatches exec batches ⟨db, none⟩ = commitBatches exec batches' ⟨db, none⟩

/-- Committed each by itself, all the jobs are answered alike. -/
def Alike (exec : ω → σ → Except ε σ) (jobs : List (Job ω)) (db : σ) : Prop :=
  ∀ answered ∈ (commitBatches exec (alone jobs) ⟨db, none⟩).1,
    ∀ other ∈ (commitBatches exec (alone jobs) ⟨db, none⟩).1, answered.2 = other.2

theorem alone_cons (job : Job ω) (jobs : List (Job ω)) :
    alone (job :: jobs) = [job] :: alone jobs := rfl

/-- By itself, a first job that goes through is answered Ok. -/
theorem mem_alone_ok {job : Job ω} {db after : σ} (h : serially exec [job] db = .ok after)
    (jobs : List (Job ω)) :
    (job, .ok ()) ∈ (commitBatches exec (alone (job :: jobs)) ⟨db, none⟩).1 := by
  rw [alone_cons, commitBatches_cons_ok h]
  exact List.mem_append_left _ (List.mem_singleton_self _)

/-- By itself, a first job that fails is told so. -/
theorem mem_alone_error {job : Job ω} {db : σ} {e : ε} (h : serially exec [job] db = .error e)
    (jobs : List (Job ω)) :
    (job, .error (.sqlite (.raised e))) ∈
      (commitBatches exec (alone (job :: jobs)) ⟨db, none⟩).1 := by
  rw [alone_cons, commitBatches_cons_error h]
  exact List.mem_append_left _ (List.mem_singleton_self _)

/-- Jobs that are all answered Ok go through one after the other. -/
theorem serially_of_alike {jobs : List (Job ω)} {db : σ}
    (h : ∀ answered ∈ (commitBatches exec (alone jobs) ⟨db, none⟩).1, answered.2 = .ok ()) :
    ∃ after, serially exec jobs db = .ok after := by
  induction jobs generalizing db with
  | nil => exact ⟨db, rfl⟩
  | cons job jobs ih =>
    cases hjob : serially exec [job] db with
    | error e =>
      have hok := h _ (mem_alone_error hjob jobs)
      cases hok
    | ok mid =>
      rw [alone_cons, commitBatches_cons_ok hjob] at h
      obtain ⟨after, hafter⟩ := ih fun answered hmem => h answered (List.mem_append_right _ hmem)
      refine ⟨after, ?_⟩
      rw [← List.singleton_append, serially_append, hjob]
      exact hafter

/-- Jobs that are all refused the same way are refused by the database as it was. -/
theorem serially_of_refused {jobs : List (Job ω)} {db : σ} {e : ε}
    (h : ∀ answered ∈ (commitBatches exec (alone jobs) ⟨db, none⟩).1,
      answered.2 = .error (.sqlite (.raised e))) :
    ∀ job ∈ jobs, serially exec [job] db = .error e := by
  induction jobs with
  | nil => simp
  | cons job jobs ih =>
    cases hjob : serially exec [job] db with
    | ok mid =>
      have herror := h _ (mem_alone_ok hjob jobs)
      cases herror
    | error e' =>
      have he := h _ (mem_alone_error hjob jobs)
      obtain rfl : e' = e := by simpa using he
      rw [alone_cons, commitBatches_cons_error hjob] at h
      exact List.forall_mem_cons.mpr
        ⟨hjob, ih fun answered hmem => h answered (List.mem_append_right _ hmem)⟩

/-- Batches of jobs that are all answered alike give those answers. -/
theorem Alike.agree {jobs : List (Job ω)} {db : σ} (h : Alike exec jobs db) :
    Agree exec jobs db := by
  intro batches batches' hgroup hgroup'
  cases hjobs : jobs with
  | nil =>
    have hnil : ∀ {groups : List (List (Job ω))}, Grouping jobs groups → groups = [] := by
      intro groups hgroups
      have hflat := hgroups.flatten_eq.trans hjobs
      refine List.eq_nil_iff_forall_not_mem.mpr fun batch hbatch => ?_
      exact hgroups.ne_nil batch hbatch (List.flatten_eq_nil_iff.mp hflat batch hbatch)
    rw [hnil hgroup, hnil hgroup']
  | cons job rest =>
    -- the answer the first job is given by itself is the answer of all of them
    have hall : ∀ answer, (job, answer) ∈ (commitBatches exec (alone jobs) ⟨db, none⟩).1 →
        ∀ other ∈ (commitBatches exec (alone jobs) ⟨db, none⟩).1, other.2 = answer :=
      fun answer hanswer other hother => h other hother (job, answer) hanswer
    cases hfirst : serially exec [job] db with
    | ok mid =>
      obtain ⟨after, hafter⟩ :=
        serially_of_alike (hall (.ok ()) (hjobs ▸ mem_alone_ok hfirst rest))
      rw [commitBatches_ok (by rw [hgroup.flatten_eq, hafter]),
        commitBatches_ok (by rw [hgroup'.flatten_eq, hafter]), hgroup.flatten_eq,
        hgroup'.flatten_eq]
    | error e =>
      have herror := serially_of_refused
        (hall (.error (.sqlite (.raised e))) (hjobs ▸ mem_alone_error hfirst rest))
      rw [commitBatches_error hgroup.ne_nil (by rw [hgroup.flatten_eq]; exact herror),
        commitBatches_error hgroup'.ne_nil (by rw [hgroup'.flatten_eq]; exact herror),
        hgroup.flatten_eq, hgroup'.flatten_eq]

/-- The first job's batch, and then the others from the database it leaves. -/
theorem commitBatches_first {job : Job ω} {db after : σ}
    (h : (commitBatches exec [[job]] ⟨db, none⟩).2 = ⟨after, none⟩)
    (batches : List (List (Job ω))) :
    commitBatches exec ([job] :: batches) ⟨db, none⟩ =
      ((commitBatches exec [[job]] ⟨db, none⟩).1 ++ (commitBatches exec batches ⟨after, none⟩).1,
        (commitBatches exec batches ⟨after, none⟩).2) := by
  have happend := commitBatches_append exec [[job]] batches ⟨db, none⟩
  rwa [h] at happend

/-- Where no grouping matters for a queue, none matters for what is left after its first job. -/
theorem Agree.tail {job : Job ω} {jobs : List (Job ω)} {db after : σ}
    (h : Agree exec (job :: jobs) db)
    (hafter : (commitBatches exec [[job]] ⟨db, none⟩).2 = ⟨after, none⟩) :
    Agree exec jobs after := by
  intro batches batches' hgroup hgroup'
  have hlength : [job].length ≤ maxBatch := (by decide : 1 ≤ maxBatch)
  have hboth := h _ _ (hgroup.cons (List.cons_ne_nil job []) hlength)
    (hgroup'.cons (List.cons_ne_nil job []) hlength)
  rw [commitBatches_first hafter batches, commitBatches_first hafter batches'] at hboth
  obtain ⟨hacks, hconnection⟩ := Prod.mk.inj hboth
  exact Prod.ext (List.append_cancel_left hacks) hconnection

/-- The first two jobs of a queue for which no grouping matters are answered alike. -/
theorem Agree.first_two {first second : Job ω} {jobs : List (Job ω)} {db : σ}
    (h : Agree exec (first :: second :: jobs) db) {answer answer' : Except (StoreError ε) Unit}
    {acks : List (Job ω × Except (StoreError ε) Unit)}
    (hacks : (commitBatches exec (alone (first :: second :: jobs)) ⟨db, none⟩).1 =
      (first, answer) :: (second, answer') :: acks) : answer = answer' := by
  have hlength : [first, second].length ≤ maxBatch := (by decide : 2 ≤ maxBatch)
  have hpair : Grouping (first :: second :: jobs) ([first, second] :: alone jobs) :=
    (grouping_alone jobs).cons (List.cons_ne_nil first _) hlength
  rw [h _ _ (grouping_alone _) hpair] at hacks
  cases hboth : serially exec [first, second] db with
  | ok after =>
    rw [commitBatches_cons_ok hboth] at hacks
    simp only [List.map_cons, List.cons_append, List.cons.injEq, Prod.mk.injEq] at hacks
    rw [← hacks.1.2, ← hacks.2.1.2]
  | error e =>
    rw [commitBatches_cons_error hboth] at hacks
    simp only [List.map_cons, List.cons_append, List.cons.injEq, Prod.mk.injEq] at hacks
    rw [← hacks.1.2, ← hacks.2.1.2]

/-- A single batch of one job gives that job one answer. -/
theorem commitBatches_single (exec : ω → σ → Except ε σ) (job : Job ω) (db : σ) :
    ∃ answer, (commitBatches exec [[job]] ⟨db, none⟩).1 = [(job, answer)] := by
  cases h : serially exec [job] db with
  | ok after => exact ⟨.ok (), by rw [commitBatches_cons_ok h]; rfl⟩
  | error e => exact ⟨.error (.sqlite (.raised e)), by rw [commitBatches_cons_error h]; rfl⟩

/-- Jobs for which no grouping matters are answered alike. -/
theorem Agree.alike {jobs : List (Job ω)} {db : σ} (h : Agree exec jobs db) :
    Alike exec jobs db := by
  induction jobs generalizing db with
  | nil => exact fun answered hanswered => by cases hanswered
  | cons first jobs ih =>
    obtain ⟨after, hafter⟩ := commitBatches_closed exec [[first]] db
    obtain ⟨answer, hanswer⟩ := commitBatches_single exec first db
    have hrest : Alike exec jobs after := ih (h.tail hafter)
    have hsplit : (commitBatches exec (alone (first :: jobs)) ⟨db, none⟩).1 =
        (first, answer) :: (commitBatches exec (alone jobs) ⟨after, none⟩).1 := by
      rw [alone_cons, commitBatches_first hafter (alone jobs), hanswer, List.singleton_append]
    -- each of the others is answered as the second is, and that as the first
    have hothers : ∀ other ∈ (commitBatches exec (alone jobs) ⟨after, none⟩).1,
        other.2 = answer := by
      intro other hother
      cases hacks : (commitBatches exec (alone jobs) ⟨after, none⟩).1 with
      | nil => rw [hacks] at hother; cases hother
      | cons second acks =>
        have hjobs := commitBatches_jobs exec (alone jobs) ⟨after, none⟩
        rw [hacks, (grouping_alone jobs).flatten_eq, List.map_cons] at hjobs
        obtain ⟨job, answer'⟩ := second
        rw [← hjobs] at h hsplit hacks hrest hother
        rw [hacks] at hsplit
        have hsame : answer = answer' := h.first_two hsplit
        rw [hsame]
        exact hrest other hother (job, answer') (by rw [hacks]; exact List.mem_cons_self)
    intro answered hanswered other hother
    rw [hsplit] at hanswered hother
    rcases List.mem_cons.mp hanswered with rfl | hanswered <;>
      rcases List.mem_cons.mp hother with rfl | hother
    · rfl
    · exact (hothers other hother).symm
    · exact hothers answered hanswered
    · exact (hothers answered hanswered).trans (hothers other hother).symm

/-! ### Every run is a run of batches -/

/-- A step that is calm where it is the writer's. -/
def Call.Calm (call : Call ω ε) : Prop := ∀ answers, call = .writer answers → answers = .calm

namespace Store

/-- What is settled is what committing some batches, none of them empty, settles. -/
def Batched (exec : ω → σ → Except ε σ) (db : σ) (store : Store σ ω ε) : Prop :=
  ∃ batches, Grouping (store.settled.map Prod.fst) batches ∧
    commitBatches exec batches ⟨db, none⟩ = (store.settled, store.connection)

variable {db : σ} {store : Store σ ω ε}

theorem Batched.congr (h : Batched exec db store) {after : Store σ ω ε}
    (hsettled : after.settled = store.settled) (hconnection : after.connection = store.connection) :
    Batched exec db after := by
  rw [Batched, hsettled, hconnection]
  exact h

/-- The commit of a gathered batch is one more batch. -/
theorem Batched.settle (h : Batched exec db store) {batch : List (Job ω)}
    (hphase : store.phase = .gathering batch) (hne : batch ≠ [])
    (hlength : batch.length ≤ maxBatch) : Batched exec db (store.settle exec .calm batch) := by
  obtain ⟨batches, hgroup, hcommit⟩ := h
  have hsettled : store.settled = store.acked := by rw [settled, hphase]
  rw [hsettled] at hgroup hcommit
  refine ⟨batches ++ [batch], ⟨?_, ?_, ?_⟩, ?_⟩
  · obtain ⟨answer, -, hafter⟩ := settled_settle exec .calm batch store
    rw [hafter, List.flatten_append, hgroup.flatten_eq, List.flatten_singleton, List.map_append,
      List.map_map]
    congr 1
    exact (List.map_id batch).symm
  · exact List.forall_mem_append.mpr ⟨hgroup.ne_nil, List.forall_mem_singleton.mpr hne⟩
  · exact List.forall_mem_append.mpr ⟨hgroup.length_le, List.forall_mem_singleton.mpr hlength⟩
  · rw [commitBatches_append, hcommit]
    simp only [commitBatches, List.append_nil]
    rfl

theorem Batched.writerStep (h : Batched exec db store) (hlog : SerialLog exec db store) :
    Batched exec db (store.writerStep exec .calm) := by
  have hmoves := moves_writerStep exec .calm store
  generalize store.writerStep exec .calm = after at hmoves
  cases hmoves with
  | rest => exact h
  | stop hphase => exact h.congr (by simp only [settled, hphase]) rfl
  | gather hbatch =>
    refine h.congr ?_ rfl
    rcases hbatch with ⟨hphase, -⟩ | hphase <;> simp only [settled, hphase]
  | settle hphase =>
    obtain ⟨hne, hlength⟩ := hlog.batch _ hphase
    exact h.settle hphase hne hlength
  | ack hphase =>
    refine h.congr ?_ rfl
    simp only [settled, hphase, List.map_cons, List.append_assoc, List.singleton_append]
  | again hphase =>
    refine h.congr ?_ rfl
    simp only [settled, hphase, List.map_nil, List.append_nil]

theorem Batched.next (h : Batched exec db store) (hlog : SerialLog exec db store)
    {call : Call ω ε} (hcalm : Call.Calm call) :
    Batched exec db ((machine exec).next store call) := by
  cases call with
  | write writes =>
    change Batched exec db (store.write writes).1
    rw [Store.write]
    split_ifs
    · exact h
    · exact h.congr rfl rfl
    · exact h.congr rfl rfl
  | retry i =>
    change Batched exec db (store.retry i).1
    fun_cases Store.retry with
    | case1 => exact h
    | case2 => exact h.congr rfl rfl
    | case3 => exact h
  | drop =>
    change Batched exec db store.drop
    rw [Store.drop]
    split_ifs
    · exact h.congr rfl rfl
    · exact h
  | writer answers =>
    obtain rfl := hcalm answers rfl
    exact h.writerStep hlog

/-- A run of the store in which nothing outside the writes fails commits some batches, one after
the other. -/
theorem calm_run (exec : ω → σ → Except ε σ) (db : σ) {calls : List (Call ω ε)}
    (hcalm : ∀ call ∈ calls, Call.Calm call) :
    Batched exec db ((machine exec).run (start db) calls) := by
  have hkeep : ∀ (store : Store σ ω ε) (call : Call ω ε), Call.Calm call →
      SerialLog exec db store ∧ Batched exec db store →
        SerialLog exec db ((machine exec).next store call) ∧
          Batched exec db ((machine exec).next store call) :=
    fun store call hcall h => ⟨h.1.next call, h.2.next h.1 hcall⟩
  have hstart : Batched exec db (start db : Store σ ω ε) :=
    ⟨[], ⟨rfl, by simp, by simp⟩, rfl⟩
  have hall := Machine.along_of_forall_mem (M := machine exec) hcalm (start db)
  exact (hall.run_invariant hkeep ⟨SerialLog.start exec db, hstart⟩).2

end Store

/-! ### The result -/

/-- A batch stands or falls as a whole, and what is durable is what the jobs answered Ok do, one
after the other in the order of the queue. How a queue is cut into batches matters to nobody
exactly when its jobs, each committed by itself, are all answered alike; and every run of the
store in which nothing outside the writes fails commits some batches. -/
theorem batches_atomic (exec : ω → σ → Except ε σ) (db : σ) :
    (∀ pre batch post, ∃ mid, (commitBatches exec pre ⟨db, none⟩).2 = ⟨mid, none⟩ ∧
      ((∃ after, serially exec batch mid = .ok after ∧
          commitBatches exec (pre ++ batch :: post) ⟨db, none⟩ =
            ((commitBatches exec pre ⟨db, none⟩).1 ++ (batch.map (fun job => (job, .ok ())) ++
                (commitBatches exec post ⟨after, none⟩).1),
              (commitBatches exec post ⟨after, none⟩).2)) ∨
        ∃ e, serially exec batch mid = .error e ∧
          commitBatches exec (pre ++ batch :: post) ⟨db, none⟩ =
            ((commitBatches exec pre ⟨db, none⟩).1 ++
                (batch.map (fun job => (job, .error (.sqlite (.raised e)))) ++
                  (commitBatches exec post ⟨mid, none⟩).1),
              (commitBatches exec post ⟨mid, none⟩).2))) ∧
      (∀ jobs batches, Grouping jobs batches →
        (commitBatches exec batches ⟨db, none⟩).1.map Prod.fst = jobs ∧
          serially exec (Store.confirmed (commitBatches exec batches ⟨db, none⟩).1) db =
            .ok (commitBatches exec batches ⟨db, none⟩).2.committed) ∧
      (∀ jobs, Agree exec jobs db ↔ Alike exec jobs db) ∧
      ∀ calls : List (Call ω ε), (∀ call ∈ calls, Call.Calm call) →
        Store.Batched exec db ((Store.machine exec).run (Store.start db) calls) := by
  refine ⟨fun pre batch post => ?_, fun jobs batches hgroup => ?_, fun jobs => ?_,
    fun calls hcalm => Store.calm_run exec db hcalm⟩
  · obtain ⟨mid, hmid⟩ := commitBatches_closed exec pre db
    refine ⟨mid, hmid, ?_⟩
    rw [commitBatches_append, hmid]
    cases hbatch : serially exec batch mid with
    | ok after => exact .inl ⟨after, rfl, by rw [commitBatches_cons_ok hbatch]⟩
    | error e => exact .inr ⟨e, rfl, by rw [commitBatches_cons_error hbatch]⟩
  · refine ⟨?_, serially_confirmed batches db⟩
    rw [commitBatches_jobs, hgroup.flatten_eq]
  · exact ⟨Agree.alike, Alike.agree⟩

/-- An insert into a table with a unique key. -/
def insertUnique (key : ℕ) (keys : List ℕ) : Except Unit (List ℕ) :=
  if key ∈ keys then .error () else .ok (key :: keys)

/-- A job that would be stored by itself is refused together with the one it shares a batch
with. -/
theorem not_batches_agree :
    ¬ (∀ (jobs : List (Job ℕ)) (db : List ℕ) (batches batches' : List (List (Job ℕ))),
        Grouping jobs batches → Grouping jobs batches' →
          commitBatches insertUnique batches ⟨db, none⟩ =
            commitBatches insertUnique batches' ⟨db, none⟩) ∧
      ∃ good bad : Job ℕ,
        (commitBatches insertUnique [[good], [bad]] ⟨[2], none⟩).1[0]? = some (good, .ok ()) ∧
          (commitBatches insertUnique [[good, bad]] ⟨[2], none⟩).1[0]? =
            some (good, .error (.sqlite (.raised ()))) := by
  have happart : (commitBatches insertUnique [[⟨0, [1]⟩], [⟨1, [2]⟩]] ⟨[2], none⟩).1[0]? =
      some (⟨0, [1]⟩, .ok ()) := by rfl
  have htogether : (commitBatches insertUnique [[⟨0, [1]⟩, ⟨1, [2]⟩]] ⟨[2], none⟩).1[0]? =
      some (⟨0, [1]⟩, .error (.sqlite (.raised ()))) := by rfl
  refine ⟨fun h => ?_, ⟨0, [1]⟩, ⟨1, [2]⟩, happart, htogether⟩
  have hsame := h [⟨0, [1]⟩, ⟨1, [2]⟩] [2] [[⟨0, [1]⟩], [⟨1, [2]⟩]] [[⟨0, [1]⟩, ⟨1, [2]⟩]]
    (grouping_alone _) ⟨rfl, by simp, by simp [maxBatch]⟩
  rw [hsame, htogether] at happart
  cases happart

end MoonCore
