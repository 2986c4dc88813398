import Mathlib.Data.Nat.Notation
import MoonCore.Machine.Run
import MoonCore.Storage.Connection

/-!
# A transaction left open

`commit` has three exits on an error. BEGIN has opened nothing when it is refused, and a refused
write is followed by a ROLLBACK; nothing follows a refused COMMIT, and a busy one leaves its
transaction open. `LeavesOpen` says when that is the exit taken, `Connection.commit_idle_iff` that
it is the only one that does not restore the idle connection, and `Connection.stuck` what comes of
it: every later batch is refused at its BEGIN.
-/

namespace MoonCore

variable {σ ω ε : Type*}

/-! ### The statements of a batch -/

/-- The writes of a batch go through exactly if nothing outside them refuses one, and none of them
is refused by what the ones before it have built up. -/
theorem execWrites_eq_ok_iff {exec : ω → σ → Except ε σ} {refused : ℕ → Option ε} {k : ℕ}
    {writes : List ω} {db after : σ} :
    execWrites exec refused k writes db = .ok after ↔
      (∀ i < writes.length, refused (k + i) = none) ∧
        writes.foldlM (fun db write => exec write db) db = .ok after := by
  induction writes generalizing k db with
  | nil =>
    refine (and_iff_right ?_).symm
    exact fun i hi => absurd hi (Nat.not_lt_zero i)
  | cons write writes ih =>
    have hfirst : (∀ i < (write :: writes).length, refused (k + i) = none) ↔
        refused k = none ∧ ∀ i < writes.length, refused (k + 1 + i) = none := by
      rw [List.length_cons, Nat.forall_lt_succ_left']
      simp only [Nat.add_zero, Nat.add_assoc, Nat.add_comm 1]
    rw [hfirst, execWrites, List.foldlM_cons]
    cases hrefused : refused k with
    | some e => simp
    | none =>
      cases hexec : exec write db with
      | error e =>
        constructor
        · intro h; cases h
        · rintro ⟨-, h⟩; cases h
      | ok mid =>
        refine ih.trans ?_
        simp only [true_and]
        rfl

/-- BEGIN and every statement of the batch go through. -/
def ReachesCommit (exec : ω → σ → Except ε σ) (answers : Answers ε) (batch : List (Job ω))
    (db : σ) : Prop :=
  answers.begin_ = none ∧
    (∀ k < (batch.flatMap Job.writes).length, answers.statement k = none) ∧
      ∃ after, serially exec batch db = .ok after

/-- A COMMIT that is refused as busy. -/
def CommitAnswer.Busy : CommitAnswer ε → Prop
  | .leftOpen _ => True
  | _ => False

/-- The batch gets as far as its COMMIT, and the COMMIT is busy. -/
def LeavesOpen (exec : ω → σ → Except ε σ) (answers : Answers ε) (batch : List (Job ω))
    (db : σ) : Prop :=
  ReachesCommit exec answers batch db ∧ answers.commit.Busy

theorem reachesCommit_iff {exec : ω → σ → Except ε σ} {answers : Answers ε}
    {batch : List (Job ω)} {db : σ} :
    ReachesCommit exec answers batch db ↔
      answers.begin_ = none ∧
        ∃ after, execWrites exec answers.statement 0 (batch.flatMap Job.writes) db = .ok after := by
  simp only [ReachesCommit, execWrites_eq_ok_iff, Nat.zero_add, exists_and_left]
  rfl

namespace Connection

variable {exec : ω → σ → Except ε σ} {connection : Connection σ}

/-- Inside a transaction BEGIN IMMEDIATE is refused whatever the lock says, and only there. -/
theorem beginImmediate_eq_nested_iff {refused : Option ε} :
    connection.beginImmediate refused = .error .nested ↔ connection.txn ≠ none := by
  obtain ⟨committed, txn⟩ := connection
  cases txn with
  | some db => simp [beginImmediate]
  | none => cases refused <;> simp [beginImmediate]

/-- A commit inside a transaction does nothing. -/
theorem commit_of_txn {db : σ} (h : connection.txn = some db) (answers : Answers ε)
    (batch : List (Job ω)) :
    connection.commit exec answers batch = (.error .nested, connection) := by
  have hbegin : connection.beginImmediate answers.begin_ = .error .nested :=
    beginImmediate_eq_nested_iff.mpr (by simp [h])
  rw [commit, hbegin]

/-- The exit at the COMMIT restores the idle connection unless it is busy. -/
theorem commitTxn_txn_eq_none_iff {answer : CommitAnswer ε} {db : σ} :
    (connection.commitTxn answer db).2.txn = none ↔ ¬ answer.Busy := by
  cases answer <;> simp [commitTxn, rollback, CommitAnswer.Busy]

/-- From an idle connection every exit restores the idle connection, except that of a busy
COMMIT. -/
theorem commit_txn_eq_none_iff (h : connection.txn = none) (answers : Answers ε)
    (batch : List (Job ω)) :
    (connection.commit exec answers batch).2.txn = none ↔
      ¬ LeavesOpen exec answers batch connection.committed := by
  rw [commit, LeavesOpen, reachesCommit_iff]
  cases hanswer : answers.begin_ with
  | some e => simp [beginImmediate, h]
  | none =>
    have hopen : connection.beginImmediate (none : Option ε) =
        .ok ⟨connection.committed, some connection.committed⟩ := by
      simp only [beginImmediate, h]
    rw [hopen]
    cases hexec : execWrites exec answers.statement 0 (batch.flatMap Job.writes)
        connection.committed with
    | error e =>
      -- a write is refused, and the ROLLBACK ends the transaction
      refine iff_of_true rfl ?_
      rintro ⟨⟨-, after, hafter⟩, -⟩
      cases hafter
    | ok after =>
      refine commitTxn_txn_eq_none_iff.trans (not_congr ?_)
      exact (and_iff_right ⟨rfl, after, rfl⟩).symm

/-- **A commit restores the idle connection exactly when its COMMIT is not left busy.** For every
database, every batch and whatever is refused: after the commit the connection is in no
transaction, and the next BEGIN IMMEDIATE is not refused for being inside one, if and only if the
commit found the connection idle and did not get as far as a busy COMMIT. -/
theorem commit_idle_iff (exec : ω → σ → Except ε σ) (answers : Answers ε) (batch : List (Job ω))
    (connection : Connection σ) :
    ((connection.commit exec answers batch).2.txn = none ∧
      ∀ refused : Option ε,
        (connection.commit exec answers batch).2.beginImmediate refused ≠ .error .nested) ↔
      connection.txn = none ∧ ¬ LeavesOpen exec answers batch connection.committed := by
  have hnext (after : Connection σ) :
      (after.txn = none ∧ ∀ refused : Option ε,
        after.beginImmediate refused ≠ .error .nested) ↔ after.txn = none := by
    simp only [Ne, beginImmediate_eq_nested_iff, not_not]
    exact and_iff_left_of_imp fun h _ => h
  rw [hnext]
  cases htxn : connection.txn with
  | some db => simp [commit_of_txn htxn, htxn]
  | none => simp [commit_txn_eq_none_iff htxn]

/-! ### One batch after another -/

/-- The writer's connection, stepping on the batches and on what fails in the commit of each. -/
def machine (exec : ω → σ → Except ε σ) :
    Machine (Connection σ) (Answers ε × List (Job ω)) (Except (SqliteError ε) Unit) where
  step connection commit :=
    ((connection.commit exec commit.1 commit.2).2, (connection.commit exec commit.1 commit.2).1)

/-- The connection is idle throughout a run exactly if no batch of it leaves its transaction
open. -/
theorem idle_take_iff (h : connection.txn = none) (commits : List (Answers ε × List (Job ω))) :
    (∀ k, ((machine exec).run connection (commits.take k)).txn = none) ↔
      (machine exec).Along
        (fun connection commit => ¬ LeavesOpen exec commit.1 commit.2 connection.committed)
        connection commits :=
  Machine.forall_take_iff_along (M := machine exec) (fun connection => connection.txn = none)
    (fun _ => True) (fun _ _ _ _ _ => trivial)
    (fun _ commit _ hidle => commit_txn_eq_none_iff hidle commit.1 commit.2) trivial h commits

/-- A batch of one write, a busy COMMIT, and the batch that comes next. -/
theorem not_commit_idle_busy :
    let exec : ℕ → ℕ → Except ℕ ℕ := fun write db => .ok (db + write)
    let busy : Answers ℕ := ⟨none, fun _ => none, .leftOpen 5⟩
    let after := ((⟨0, none⟩ : Connection ℕ).commit exec busy [⟨0, [1]⟩]).2
    after.txn = some 1 ∧
      (after.beginImmediate (none : Option ℕ) = .error .nested) ∧
        (after.commit exec Answers.calm [⟨1, [1]⟩]).1 = .error .nested :=
  ⟨rfl, rfl, rfl⟩

end Connection

end MoonCore
