import Mathlib.Data.Nat.Notation
import Mathlib.Data.List.Induction

/-!
# One batch in one transaction

The connection of `storage::store` and its `commit`. A database is whatever a write acts on
(`σ`), a write whatever acts on it (`ω`): `exec` is what `execute` does to the database, or
`execute_batch` where the write has no parameters, and fails where the write itself is refused
(a constraint, a syntax error). What the disk and the lock add is an `Answers`: which of the
calls of one commit fail for reasons outside the writes.

A transaction is atomic: nothing it does is in the committed state before COMMIT answers Ok, and
a ROLLBACK restores what was there at BEGIN. A COMMIT that fails either rolls the transaction
back or, as a busy one does, leaves it open.
-/

namespace MoonCore

variable {σ ω ε : Type*}

/-- Why SQLite refused a call. -/
inductive SqliteError (ε : Type*) where
  /-- "cannot start a transaction within a transaction" -/
  | nested
  /-- Anything a write, the lock or the disk says. -/
  | raised (e : ε)
  deriving DecidableEq

/-- How a COMMIT answers. -/
inductive CommitAnswer (ε : Type*) where
  | done
  /-- It failed, and the transaction is over. -/
  | rolledBack (e : ε)
  /-- It failed, and the transaction is still open. -/
  | leftOpen (e : ε)

/-- What fails, in one commit, for reasons outside the writes. -/
structure Answers (ε : Type*) where
  /-- What BEGIN IMMEDIATE is refused with. -/
  begin_ : Option ε
  /-- What the `k`-th write of the batch is refused with. -/
  statement : ℕ → Option ε
  commit : CommitAnswer ε

/-- Nothing outside the writes fails. -/
def Answers.calm : Answers ε := ⟨none, fun _ => none, .done⟩

/-- The writer's connection: the durable state, and what the open transaction has made of it. -/
structure Connection (σ : Type*) where
  committed : σ
  txn : Option σ

/-- A queued unit of work and the channel its answer goes down. Channels are numbered in the
order in which `Store::write` made them. -/
structure Job (ω : Type*) where
  ack : ℕ
  writes : List ω
  deriving DecidableEq

/-- The writes of some jobs, in order, applied one after the other. -/
def serially (exec : ω → σ → Except ε σ) (jobs : List (Job ω)) (db : σ) : Except ε σ :=
  (jobs.flatMap Job.writes).foldlM (fun db write => exec write db) db

/-- The two nested loops of `commit`: the first refused write ends them. -/
def execWrites (exec : ω → σ → Except ε σ) (refused : ℕ → Option ε) :
    ℕ → List ω → σ → Except ε σ
  | _, [], db => .ok db
  | k, write :: writes, db =>
    match refused k with
    | some e => .error e
    | none => exec write db >>= execWrites exec refused (k + 1) writes

namespace Connection

/-- BEGIN IMMEDIATE. -/
def beginImmediate (refused : Option ε) (connection : Connection σ) :
    Except (SqliteError ε) (Connection σ) :=
  match connection.txn, refused with
  | some _, _ => .error .nested
  | none, some e => .error (.raised e)
  | none, none => .ok { connection with txn := some connection.committed }

/-- ROLLBACK. -/
def rollback (connection : Connection σ) : Connection σ := { connection with txn := none }

/-- COMMIT of a transaction that has built up `db`. -/
def commitTxn (answer : CommitAnswer ε) (db : σ) (connection : Connection σ) :
    Except (SqliteError ε) Unit × Connection σ :=
  match answer with
  | .done => (.ok (), ⟨db, none⟩)
  | .rolledBack e => (.error (.raised e), connection.rollback)
  | .leftOpen e => (.error (.raised e), { connection with txn := some db })

/-- Commit one batch of jobs. -/
def commit (exec : ω → σ → Except ε σ) (answers : Answers ε) (batch : List (Job ω))
    (connection : Connection σ) : Except (SqliteError ε) Unit × Connection σ :=
  match connection.beginImmediate answers.begin_ with
  | .error e => (.error e, connection)
  | .ok opened =>
    match execWrites exec answers.statement 0 (batch.flatMap Job.writes) connection.committed with
    | .error e => (.error (.raised e), opened.rollback)
    | .ok db => opened.commitTxn answers.commit db

end Connection

/-! ### Steps that may fail -/

theorem foldlM_cons_eq_ok {step : σ → ω → Except ε σ} {write : ω} {writes : List ω} {db after : σ} :
    (write :: writes).foldlM step db = .ok after ↔
      ∃ left, step db write = .ok left ∧ writes.foldlM step left = .ok after := by
  rw [List.foldlM_cons]
  cases step db write with
  | error e => exact iff_of_false (fun h => by cases h) fun ⟨_, h, _⟩ => by cases h
  | ok left => exact ⟨fun h => ⟨left, rfl, h⟩, fun ⟨_, h, hrest⟩ => by cases h; exact hrest⟩

/-- Steps in two parts go through exactly if each part does. -/
theorem foldlM_append_eq_ok {step : σ → ω → Except ε σ} {earlier later : List ω} {db after : σ} :
    (earlier ++ later).foldlM step db = .ok after ↔
      ∃ found, earlier.foldlM step db = .ok found ∧ later.foldlM step found = .ok after := by
  rw [List.foldlM_append]
  cases earlier.foldlM step db with
  | error e => exact iff_of_false (fun h => by cases h) fun ⟨_, h, _⟩ => by cases h
  | ok found => exact ⟨fun h => ⟨found, rfl, h⟩, fun ⟨_, h, hrest⟩ => by cases h; exact hrest⟩

/-- What steps none of which fails come to, from what each of them does. -/
theorem foldlM_ok_induction {exec : ω → σ → Except ε σ} {P : List ω → σ → Prop} {db : σ}
    (hnil : P [] db)
    (hstep : ∀ done write before after, P done before → exec write before = .ok after →
      P (done ++ [write]) after) {writes : List ω} {after : σ}
    (h : writes.foldlM (fun db write => exec write db) db = .ok after) : P writes after := by
  induction writes using List.reverseRecOn generalizing after with
  | nil => exact Except.ok.inj h ▸ hnil
  | append_singleton done write ih =>
    obtain ⟨before, hdone, hlast⟩ := foldlM_append_eq_ok.mp h
    obtain ⟨left, hexec, hend⟩ := foldlM_cons_eq_ok.mp hlast
    obtain rfl := Except.ok.inj hend
    exact hstep done write before left (ih hdone) hexec

/-! ### Serial application -/

variable {exec : ω → σ → Except ε σ}

@[simp]
theorem serially_nil (db : σ) : serially exec [] db = .ok db := rfl

theorem serially_append (jobs later : List (Job ω)) (db : σ) :
    serially exec (jobs ++ later) db = serially exec jobs db >>= serially exec later := by
  rw [serially, List.flatMap_append, List.foldlM_append]
  rfl

/-- Jobs that went through in order, cut at one of them. -/
theorem serially_cut {earlier later : List (Job ω)} {job : Job ω} {db after : σ}
    (h : serially exec (earlier ++ job :: later) db = .ok after) :
    ∃ found left, serially exec earlier db = .ok found ∧ serially exec [job] found = .ok left ∧
      serially exec later left = .ok after := by
  rw [serially, List.flatMap_append, List.flatMap_cons] at h
  obtain ⟨found, hfound, hrest⟩ := foldlM_append_eq_ok.mp h
  obtain ⟨left, hleft, hlater⟩ := foldlM_append_eq_ok.mp hrest
  refine ⟨found, left, hfound, ?_, hlater⟩
  rw [serially, List.flatMap_singleton]
  exact hleft

/-- Writes that all went through have built up what applying them one by one builds up. -/
theorem foldlM_of_execWrites {refused : ℕ → Option ε} {k : ℕ} {writes : List ω} {db db' : σ}
    (h : execWrites exec refused k writes db = .ok db') :
    writes.foldlM (fun db write => exec write db) db = .ok db' := by
  induction writes generalizing k db with
  | nil => exact h
  | cons write writes ih =>
    rw [execWrites] at h
    cases hrefused : refused k with
    | some e => rw [hrefused] at h; cases h
    | none =>
      rw [hrefused] at h
      cases hexec : exec write db with
      | error e => rw [hexec] at h; cases h
      | ok mid =>
        rw [hexec] at h
        exact foldlM_cons_eq_ok.mpr ⟨mid, hexec, ih h⟩

/-! ### What a commit can do -/

theorem Connection.beginImmediate_eq_ok {refused : Option ε} {connection opened : Connection σ}
    (h : connection.beginImmediate refused = .ok opened) :
    connection.txn = none ∧ opened = ⟨connection.committed, some connection.committed⟩ := by
  obtain ⟨committed, txn⟩ := connection
  cases txn with
  | some db => cases h
  | none =>
    cases refused with
    | some e => cases h
    | none =>
      refine ⟨rfl, ?_⟩
      injection h with h
      exact h.symm

/-- A commit answers Ok and has made durable exactly the writes of its batch, in order, or it
answers Err and nothing durable has changed. -/
theorem Connection.commit_cases (exec : ω → σ → Except ε σ) (answers : Answers ε)
    (batch : List (Job ω)) (connection : Connection σ) :
    (∃ db, connection.commit exec answers batch = (.ok (), ⟨db, none⟩) ∧
      serially exec batch connection.committed = .ok db) ∨
    (∃ e after, connection.commit exec answers batch = (.error e, after) ∧
      after.committed = connection.committed) := by
  rw [Connection.commit]
  cases hbegin : connection.beginImmediate answers.begin_ with
  | error e => exact .inr ⟨e, connection, rfl, rfl⟩
  | ok opened =>
    -- nothing was open, so what the writes act on is what is durable
    obtain ⟨-, rfl⟩ := beginImmediate_eq_ok hbegin
    cases hexec : execWrites exec answers.statement 0 (batch.flatMap Job.writes)
        connection.committed with
    | error e => exact .inr ⟨.raised e, _, rfl, rfl⟩
    | ok db =>
      have hserial : serially exec batch connection.committed = .ok db :=
        foldlM_of_execWrites hexec
      cases hanswer : answers.commit with
      | done => exact .inl ⟨db, rfl, hserial⟩
      | rolledBack e => exact .inr ⟨.raised e, ⟨connection.committed, none⟩, rfl, rfl⟩
      | leftOpen e => exact .inr ⟨.raised e, ⟨connection.committed, some db⟩, rfl, rfl⟩

end MoonCore
