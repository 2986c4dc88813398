import Mathlib.Algebra.Group.Int.Defs
import Mathlib.Data.Int.Order.Basic
import Mathlib.Data.List.Infix
import MoonCore.Machine.Run
import MoonCore.Storage.Store

/-!
# Migrations

`storage::schema`, as far as the shape of a file goes: its tables, its indexes and the version its
header records. A build knows a list of migrations, and `Migrator::migrate` applies to a file those
above the version it reads there, each in one transaction with its own version bump.

The reading and the transactions are separate steps, and nothing keeps a second core away from the
file between them. `Upgrades.machine` is any number of cores, of older and newer builds, migrating
one file: they start, are killed and start again, and each step may fail for reasons of its own.
What the versions rest on is that a migration makes something, so that it cannot be applied twice
(`Migration.not_exec_of_mem`).
-/

namespace MoonCore

/-! ### The shape of a file -/

/-- What `sqlite_master` and the header of a file say. Names are in lower case, which is how SQLite
compares them. -/
structure Schema where
  tables : List String
  indexes : List String
  userVersion : ℤ
  deriving DecidableEq

/-- A fresh file. -/
def Schema.empty : Schema := ⟨[], [], 0⟩

/-- Tables and indexes share one set of names. -/
def Schema.objects (db : Schema) : List String := db.tables ++ db.indexes

/-- Why a statement on the schema is refused. -/
inductive SchemaRefusal where
  /-- "table … already exists" -/
  | alreadyExists (name : String)
  /-- "no such table: …" -/
  | noSuchTable (name : String)
  /-- The lock or the disk. -/
  | outside (why : String)
  deriving DecidableEq

/-- CREATE TABLE or CREATE INDEX. -/
inductive Create where
  | table (name : String)
  | index (name on : String)
  deriving DecidableEq

/-- The name a statement takes. -/
def Create.name : Create → String
  | .table name => name
  | .index name _ => name

/-- Create one object, which nothing of its name may stand in the way of. -/
def Create.exec (db : Schema) : Create → Except SchemaRefusal Schema
  | .table name =>
    if name ∈ db.objects then .error (.alreadyExists name)
    else .ok { db with tables := db.tables ++ [name] }
  | .index name on =>
    if on ∉ db.tables then .error (.noSuchTable on)
    else if name ∈ db.objects then .error (.alreadyExists name)
    else .ok { db with indexes := db.indexes ++ [name] }

/-- One statement of a script. -/
inductive SchemaStatement where
  | create (create : Create)
  /-- `PRAGMA user_version = …` -/
  | userVersion (version : ℤ)

/-- The header has 32 bits for the version, and a literal that does not fit is read as zero. -/
def headerVersion (version : ℤ) : ℤ :=
  if -2 ^ 31 ≤ version ∧ version < 2 ^ 31 then version else 0

/-- One statement of a migration. -/
def SchemaStatement.exec (db : Schema) : SchemaStatement → Except SchemaRefusal Schema
  | .create object => object.exec db
  | .userVersion version => .ok { db with userVersion := headerVersion version }

/-- `execute_batch`: the first statement that is refused ends the script. -/
def executeBatch (script : List SchemaStatement) (db : Schema) : Except SchemaRefusal Schema :=
  script.foldlM SchemaStatement.exec db

/-! ### Migrations -/

/-- One step. Numbered from one; the version in the file is the highest applied. -/
structure Migration where
  version : ℤ
  what : String
  sql : List Create

/-- Every migration this build knows, in order. -/
def migrations : List Migration :=
  [{ version := 1
     what := "initial schema"
     sql :=
      [.table "deals", .table "orders", .table "fills", .table "candles", .table "audit",
        .index "deals_by_close" "deals", .index "deals_by_symbol" "deals",
        .index "orders_by_deal" "orders", .index "orders_open" "orders",
        .index "fills_by_time" "fills", .index "audit_by_time" "audit"] }]

/-- The schema version a build expects. -/
def expectedVersion (known : List Migration) : ℤ :=
  ((known.map Migration.version).max?).getD 0

/-- The migration and the version bump, for one transaction. -/
def Migration.script (self : Migration) : List SchemaStatement :=
  self.sql.map .create ++ [.userVersion self.version]

/-- Why a file was not migrated. -/
inductive MigrationError where
  | fromTheFuture (found known : ℤ)
  | failed (version : ℤ) (what : String) (why : StoreError SchemaRefusal)
  | store (e : StoreError SchemaRefusal)

/-- Some migrations, applied in order. -/
def applyAll (ms : List Migration) (db : Schema) : Except SchemaRefusal Schema :=
  ms.foldlM (fun db (m : Migration) => executeBatch m.script db) db

/-! ### What a script leaves behind -/

/-- A statement that went through took a free name and kept every other one. -/
theorem Create.exec_ok {create : Create} {db after : Schema} (h : create.exec db = .ok after) :
    create.name ∉ db.objects ∧ create.name ∈ after.objects ∧ db.objects ⊆ after.objects ∧
      after.userVersion = db.userVersion := by
  cases create with
  | table name =>
    rw [Create.exec] at h
    split_ifs at h with hname
    obtain rfl := Except.ok.inj h
    refine ⟨hname, by simp [Create.name, Schema.objects], fun object hmem => ?_, rfl⟩
    rcases List.mem_append.mp hmem with htable | hindex
    · exact List.mem_append_left _ (List.mem_append_left _ htable)
    · exact List.mem_append_right _ hindex
  | index name on =>
    rw [Create.exec] at h
    split_ifs at h with hon hname
    obtain rfl := Except.ok.inj h
    refine ⟨hname, by simp [Create.name, Schema.objects], fun object hmem => ?_, rfl⟩
    rcases List.mem_append.mp hmem with hkept | hindex
    · exact List.mem_append_left _ hkept
    · exact List.mem_append_right _ (List.mem_append_left _ hindex)

theorem executeBatch_cons (statement : SchemaStatement) (script : List SchemaStatement)
    (db : Schema) :
    executeBatch (statement :: script) db = statement.exec db >>= executeBatch script :=
  List.foldlM_cons

/-- A script that went through took free names and kept every other one. -/
theorem executeBatch_script_ok {sql : List Create} {version : ℤ} {db after : Schema}
    (h : executeBatch (sql.map .create ++ [.userVersion version]) db = .ok after) :
    (∀ create ∈ sql, create.name ∉ db.objects ∧ create.name ∈ after.objects) ∧
      db.objects ⊆ after.objects ∧ after.userVersion = headerVersion version := by
  induction sql generalizing db with
  | nil =>
    obtain rfl := Except.ok.inj h
    exact ⟨by simp, fun _ => id, rfl⟩
  | cons create sql ih =>
    rw [List.map_cons, List.cons_append, executeBatch_cons] at h
    cases hexec : create.exec db with
    | error e =>
      rw [SchemaStatement.exec, hexec] at h
      cases h
    | ok mid =>
      rw [SchemaStatement.exec, hexec] at h
      obtain ⟨hfree, htaken, hkept, -⟩ := Create.exec_ok hexec
      obtain ⟨hrest, hgrown, hversion⟩ := ih h
      refine ⟨fun other hother => ?_, List.Subset.trans hkept hgrown, hversion⟩
      rcases List.mem_cons.mp hother with rfl | hlater
      · exact ⟨hfree, hgrown htaken⟩
      · obtain ⟨hlaterFree, hlaterTaken⟩ := hrest other hlater
        exact ⟨fun hmem => hlaterFree (hkept hmem), hlaterTaken⟩

/-- A migration that makes something cannot be applied where it has been. -/
theorem Migration.not_exec_of_mem {m : Migration} {db after : Schema} {create : Create}
    (hcreate : create ∈ m.sql) (hmem : create.name ∈ db.objects) :
    executeBatch m.script db ≠ .ok after := fun h =>
  ((executeBatch_script_ok h).1 create hcreate).1 hmem

theorem applyAll_cons (m : Migration) (ms : List Migration) (db : Schema) :
    applyAll (m :: ms) db = executeBatch m.script db >>= applyAll ms :=
  List.foldlM_cons

/-- What was made stays. -/
theorem applyAll_objects {ms : List Migration} {db after : Schema}
    (h : applyAll ms db = .ok after) :
    db.objects ⊆ after.objects ∧
      ∀ m ∈ ms, ∀ create ∈ m.sql, create.name ∈ after.objects := by
  induction ms generalizing db with
  | nil =>
    obtain rfl := Except.ok.inj h
    exact ⟨fun _ => id, by simp⟩
  | cons m ms ih =>
    rw [applyAll_cons] at h
    cases hexec : executeBatch m.script db with
    | error e => rw [hexec] at h; cases h
    | ok mid =>
      rw [hexec] at h
      obtain ⟨hmade, hkept, -⟩ := executeBatch_script_ok hexec
      obtain ⟨hgrown, hrest⟩ := ih h
      refine ⟨List.Subset.trans hkept hgrown, fun other hother create hcreate => ?_⟩
      rcases List.mem_cons.mp hother with rfl | hlater
      · exact hgrown (hmade create hcreate).2
      · exact hrest other hlater create hcreate

theorem applyAll_append (ms later : List Migration) (db : Schema) :
    applyAll (ms ++ later) db = applyAll ms db >>= applyAll later :=
  List.foldlM_append

/-! ### Version numbers -/

/-- Append only: numbered from one upwards, in numbers the header can hold, and every migration
makes something. -/
structure AppendOnly (history : List Migration) : Prop where
  numbered : (0 :: history.map Migration.version).Pairwise (· < ·)
  fits : ∀ m ∈ history, m.version < 2 ^ 31
  creates : ∀ m ∈ history, m.sql ≠ []

theorem le_expectedVersion {known : List Migration} {m : Migration} (h : m ∈ known) :
    m.version ≤ expectedVersion known := by
  have hmem := List.mem_map_of_mem (f := Migration.version) h
  obtain ⟨v, hv⟩ := Option.isSome_iff_exists.mp (List.isSome_max?_of_mem hmem)
  rw [expectedVersion, hv]
  exact (List.max?_eq_some_iff.mp hv).2 _ hmem

theorem expectedVersion_lt {known : List Migration} {v : ℤ}
    (h : ∀ m ∈ known, m.version < v) (hv : 0 < v) : expectedVersion known < v := by
  rw [expectedVersion]
  cases hmax : (known.map Migration.version).max? with
  | none => exact hv
  | some top =>
    obtain ⟨m, hm, rfl⟩ := List.mem_map.mp (List.max?_eq_some_iff.mp hmax).1
    exact h m hm

/-- A build that knows more expects more. -/
theorem expectedVersion_mono {known more : List Migration} (h : known ⊆ more)
    (hpos : ∀ m ∈ more, 0 < m.version) : expectedVersion known ≤ expectedVersion more := by
  refine Int.lt_add_one_iff.mp (expectedVersion_lt (fun m hm => ?_) ?_)
  · exact Int.lt_add_one_iff.mpr (le_expectedVersion (h hm))
  · cases more with
    | nil => decide
    | cons m more =>
      exact Int.lt_add_one_iff.mpr
        ((hpos m List.mem_cons_self).le.trans (le_expectedVersion List.mem_cons_self))

section AppendOnly

variable {history done rest : List Migration} (h : AppendOnly history)

include h

theorem AppendOnly.pos {m : Migration} (hm : m ∈ history) : 0 < m.version :=
  (List.pairwise_cons.mp h.numbered).1 _ (List.mem_map_of_mem hm)

/-- Numbers grow along a history. -/
theorem AppendOnly.version_lt (hsplit : done ++ rest <+: history) {d r : Migration}
    (hd : d ∈ done) (hr : r ∈ rest) : d.version < r.version := by
  obtain ⟨later, rfl⟩ := hsplit
  have hpairs := (List.pairwise_cons.mp h.numbered).2
  rw [List.map_append, List.map_append, List.append_assoc, List.pairwise_append] at hpairs
  exact hpairs.2.2 _ (List.mem_map_of_mem hd) _
    (List.mem_append_left _ (List.mem_map_of_mem hr))

/-- What has not been applied yet is numbered above what has. -/
theorem AppendOnly.expected_lt (hsplit : done ++ rest <+: history) {r : Migration}
    (hr : r ∈ rest) : expectedVersion done < r.version :=
  expectedVersion_lt (fun _ hd => h.version_lt hsplit hd hr)
    (h.pos (hsplit.subset (List.mem_append_right _ hr)))

/-- The loop of `migrate` runs over what is missing. -/
theorem AppendOnly.filter_eq (hsplit : done ++ rest <+: history) :
    ((done ++ rest).filter fun m => m.version > expectedVersion done) = rest := by
  have hdone : (done.filter fun m => m.version > expectedVersion done) = [] := by
    refine List.filter_eq_nil_iff.mpr fun m hm => ?_
    simpa using le_expectedVersion hm
  have hrest : (rest.filter fun m => m.version > expectedVersion done) = rest := by
    refine List.filter_eq_self.mpr fun m hm => ?_
    simpa using h.expected_lt hsplit hm
  rw [List.filter_append, hdone, hrest, List.nil_append]

/-- A build that expects at least a file's version knows all that was done to the file. -/
theorem AppendOnly.prefix_of_le {known : List Migration} (hdone : done <+: history)
    (hknown : known <+: history) (hle : expectedVersion done ≤ expectedVersion known) :
    done <+: known := by
  rcases List.prefix_or_prefix_of_prefix hdone hknown with hless | hmore
  · exact hless
  · obtain ⟨rest, rfl⟩ := hmore
    cases rest with
    | nil => rw [List.append_nil]
    | cons r rest =>
      have hlt := h.expected_lt hdone (List.mem_cons_self (a := r))
      have hr : r.version ≤ expectedVersion (known ++ r :: rest) :=
        le_expectedVersion (List.mem_append_right _ List.mem_cons_self)
      exact absurd (hr.trans hle) (not_le_of_gt hlt)

/-- The version a migration leaves in the header is the one its build expects by then. -/
theorem AppendOnly.headerVersion_eq {m : Migration} (hsplit : done ++ [m] <+: history) :
    headerVersion m.version = expectedVersion (done ++ [m]) := by
  have hm : m ∈ history := hsplit.subset (List.mem_append_right _ (List.mem_singleton_self m))
  have hlow : (-2 ^ 31 : ℤ) ≤ m.version := le_trans (by decide) (h.pos hm).le
  rw [headerVersion, if_pos ⟨hlow, h.fits m hm⟩]
  refine le_antisymm (le_expectedVersion (List.mem_append_right _ (List.mem_singleton_self m))) ?_
  refine Int.lt_add_one_iff.mp (expectedVersion_lt (fun other hother => ?_) ?_)
  · rcases List.mem_append.mp hother with hd | hlast
    · exact Int.lt_add_one_of_le (h.version_lt hsplit hd (List.mem_singleton_self m)).le
    · exact List.mem_singleton.mp hlast ▸ Int.lt_add_one_iff.mpr le_rfl
  · exact Int.lt_add_one_of_le (h.pos hm).le

/-- The version a file records is that of what was applied to it. -/
theorem AppendOnly.userVersion_eq {file : Schema} (hdone : done <+: history)
    (hbuilt : applyAll done .empty = .ok file) : file.userVersion = expectedVersion done := by
  rcases List.eq_nil_or_concat done with rfl | ⟨init, m, rfl⟩
  · obtain rfl := Except.ok.inj hbuilt
    rfl
  · rw [List.concat_eq_append] at hdone hbuilt ⊢
    rw [applyAll_append] at hbuilt
    cases hinit : applyAll init .empty with
    | error e => rw [hinit] at hbuilt; cases hbuilt
    | ok mid =>
      rw [hinit] at hbuilt
      have hlast : executeBatch m.script mid >>= applyAll [] = .ok file := hbuilt
      have hexec : executeBatch m.script mid = .ok file := by
        cases hm : executeBatch m.script mid with
        | error e => rw [hm] at hlast; cases hlast
        | ok after => rw [hm] at hlast; exact hlast
      rw [(executeBatch_script_ok hexec).2.2, h.headerVersion_eq hdone]

end AppendOnly

/-! ### Cores that migrate one file -/

/-- Where a core is in `Migrator::migrate`. -/
inductive MigratorPhase where
  /-- Not running. -/
  | down
  /-- The store is open, and the version not read yet. -/
  | opened
  /-- Between two rounds of the loop, with what is left of it. -/
  | applying (left : List Migration)
  | returned (outcome : Except MigrationError ℤ)

/-- One file and the cores that use it. -/
structure Upgrades (ι : Type) where
  file : Schema
  cores : ι → MigratorPhase

/-- What can happen next. -/
inductive UpgradeMove (ι : Type) where
  /-- A core starts, for the first time or after it was killed, wherever it was. -/
  | start (i : ι)
  /-- It reads the version. -/
  | version (i : ι) (refused : Option (StoreError SchemaRefusal))
  /-- The next round of the loop: one durable write, answered by SQLite as told. -/
  | apply (i : ι) (answers : Answers SchemaRefusal)

namespace Upgrades

variable {ι : Type} [DecidableEq ι]

/-- A fresh file that no core has opened. -/
def fresh (ι : Type) : Upgrades ι := ⟨.empty, fun _ => .down⟩

/-- One step; core `i` is of the build that knows `known i`. -/
def step (known : ι → List Migration) (s : Upgrades ι) : UpgradeMove ι → Upgrades ι
  | .start i => { s with cores := Function.update s.cores i .opened }
  | .version i refused =>
    match s.cores i with
    | .opened =>
      let phase : MigratorPhase :=
        match refused with
        | some e => .returned (.error (.store e))
        | none =>
          let current := s.file.userVersion
          let expected := expectedVersion (known i)
          if current > expected then .returned (.error (.fromTheFuture current expected))
          else .applying ((known i).filter fun m => m.version > current)
      { s with cores := Function.update s.cores i phase }
    | _ => s
  | .apply i answers =>
    match s.cores i with
    | .applying [] =>
      { s with cores := Function.update s.cores i (.returned (.ok (expectedVersion (known i)))) }
    | .applying (m :: left) =>
      -- the store is this core's alone so far, so the batch is this one write
      let connection : Connection Schema := ⟨s.file, none⟩
      let (outcome, connection) := connection.commit executeBatch answers [⟨0, [m.script]⟩]
      let phase : MigratorPhase :=
        match outcome with
        | .ok () => .applying left
        | .error e => .returned (.error (.failed m.version m.what (.sqlite e)))
      ⟨connection.committed, Function.update s.cores i phase⟩
    | _ => s

/-- Cores of any builds, in any order. -/
def machine (known : ι → List Migration) : Machine (Upgrades ι) (UpgradeMove ι) Unit :=
  ⟨fun s move => (s.step known move, ())⟩

@[simp] theorem machine_next (known : ι → List Migration) (s : Upgrades ι)
    (move : UpgradeMove ι) : (machine known).next s move = s.step known move := rfl

variable {history : List Migration} {known : ι → List Migration} {s : Upgrades ι}

/-- What every run keeps: the file is what the first migrations of the history build, applied once
each and in order, and no core is ahead of it. -/
structure Upgraded (history : List Migration) (known : ι → List Migration) (done : List Migration)
    (s : Upgrades ι) : Prop where
  past : done <+: history
  built : applyAll done .empty = .ok s.file
  applying : ∀ i left, s.cores i = .applying left → ∃ seen, seen <+: done ∧ seen ++ left = known i
  migrated : ∀ i v, s.cores i = .returned (.ok v) → v = expectedVersion (known i) ∧ known i <+: done
  refused : ∀ i found v, s.cores i = .returned (.error (.fromTheFuture found v)) →
    v = expectedVersion (known i) ∧ v < found ∧ found ≤ expectedVersion done

omit [DecidableEq ι] in
theorem upgraded_fresh (history : List Migration) (known : ι → List Migration) :
    Upgraded history known [] (fresh ι) where
  past := List.nil_prefix
  built := rfl
  applying _ _ h := by cases h
  migrated _ _ h := by cases h
  refused _ _ _ h := by cases h

omit [DecidableEq ι] in
theorem Upgraded.version {done : List Migration} (h : Upgraded history known done s)
    (hhistory : AppendOnly history) : s.file.userVersion = expectedVersion done :=
  hhistory.userVersion_eq h.past h.built

/-- Only core `i` has moved, and the file has not. -/
theorem Upgraded.update {done : List Migration} (h : Upgraded history known done s) (i : ι)
    (phase : MigratorPhase)
    (happlying : ∀ left, phase = .applying left → ∃ seen, seen <+: done ∧ seen ++ left = known i)
    (hmigrated : ∀ v, phase = .returned (.ok v) →
      v = expectedVersion (known i) ∧ known i <+: done)
    (hrefused : ∀ found v, phase = .returned (.error (.fromTheFuture found v)) →
      v = expectedVersion (known i) ∧ v < found ∧ found ≤ expectedVersion done) :
    Upgraded history known done { s with cores := Function.update s.cores i phase } where
  past := h.past
  built := h.built
  applying j left hj := by
    simp only [Function.update_apply] at hj
    split_ifs at hj with hji
    · exact hji ▸ happlying left hj
    · exact h.applying j left hj
  migrated j v hj := by
    simp only [Function.update_apply] at hj
    split_ifs at hj with hji
    · exact hji ▸ hmigrated v hj
    · exact h.migrated j v hj
  refused j found v hj := by
    simp only [Function.update_apply] at hj
    split_ifs at hj with hji
    · exact hji ▸ hrefused found v hj
    · exact h.refused j found v hj

omit [DecidableEq ι] in
/-- A migration that commits is the next one of the history. -/
theorem Upgraded.eq_of_exec {done left : List Migration} {m : Migration} {after : Schema}
    (h : Upgraded history known done s) (hhistory : AppendOnly history)
    (hknown : ∀ i, known i <+: history) {i : ι} (hi : s.cores i = .applying (m :: left))
    (hexec : executeBatch m.script s.file = .ok after) :
    done ++ m :: left = known i := by
  obtain ⟨seen, hseen, hsplit⟩ := h.applying i (m :: left) hi
  have hnext : seen ++ [m] <+: history := by
    refine List.IsPrefix.trans ?_ (hknown i)
    exact ⟨left, by rw [← hsplit, List.append_assoc, List.singleton_append]⟩
  have hnot : ¬ seen ++ [m] <+: done := by
    intro hdone
    have hm : m ∈ done := hdone.subset (List.mem_append_right _ (List.mem_singleton_self m))
    obtain ⟨create, hcreate⟩ := List.exists_mem_of_ne_nil _ (hhistory.creates m (h.past.subset hm))
    exact Migration.not_exec_of_mem hcreate ((applyAll_objects h.built).2 m hm create hcreate) hexec
  rcases List.prefix_or_prefix_of_prefix hnext h.past with hdone | hdone
  · exact absurd hdone hnot
  · rcases List.prefix_concat_iff.mp hdone with heq | hback
    · exact absurd (heq ▸ List.prefix_rfl) hnot
    · rw [hback.eq_of_length_le hseen.length_le, hsplit]

omit [DecidableEq ι] in
/-- The file has moved on to what the next migration leaves. -/
theorem Upgraded.advance {done : List Migration} {m : Migration} {after : Schema}
    (h : Upgraded history known done s) (hhistory : AppendOnly history)
    (hnext : done ++ [m] <+: history) (hexec : executeBatch m.script s.file = .ok after) :
    Upgraded history known (done ++ [m]) { s with file := after } where
  past := hnext
  built := by
    rw [applyAll_append, h.built]
    change applyAll [m] s.file = .ok after
    rw [applyAll_cons, hexec]
    rfl
  applying i left hi := by
    obtain ⟨seen, hseen, hsplit⟩ := h.applying i left hi
    exact ⟨seen, hseen.trans (List.prefix_append _ _), hsplit⟩
  migrated i v hi :=
    let ⟨hv, hdone⟩ := h.migrated i v hi
    ⟨hv, hdone.trans (List.prefix_append _ _)⟩
  refused i found v hi :=
    let ⟨hv, hlt, hle⟩ := h.refused i found v hi
    ⟨hv, hlt, hle.trans (expectedVersion_mono (List.subset_append_left _ _)
      fun m hm => hhistory.pos (hnext.subset hm))⟩

/-- One durable write of a script: it is applied as a whole, or nothing of it is. -/
theorem commit_script (answers : Answers SchemaRefusal) (script : List SchemaStatement)
    (db : Schema) :
    (∃ after, (Connection.mk db none).commit executeBatch answers [⟨0, [script]⟩] =
        (.ok (), ⟨after, none⟩) ∧ executeBatch script db = .ok after) ∨
      ∃ e left, (Connection.mk db none).commit executeBatch answers [⟨0, [script]⟩] =
        (.error e, left) ∧ left.committed = db := by
  rcases Connection.commit_cases executeBatch answers [⟨0, [script]⟩] ⟨db, none⟩ with
    ⟨after, hcommit, hserial⟩ | ⟨e, left, hcommit, hkept⟩
  · refine .inl ⟨after, hcommit, ?_⟩
    have hsingle : serially executeBatch [⟨0, [script]⟩] db = executeBatch script db >>= pure :=
      List.foldlM_cons
    rw [← hserial, hsingle, bind_pure]
  · exact .inr ⟨e, left, hcommit, hkept⟩

/-- One step of any core. -/
theorem Upgraded.step {done : List Migration} (h : Upgraded history known done s)
    (hhistory : AppendOnly history) (hknown : ∀ i, known i <+: history) (move : UpgradeMove ι) :
    ∃ later, Upgraded history known (done ++ later) (s.step known move) := by
  have hstay : ∀ i phase, (∀ left, phase ≠ .applying left) →
      (∀ v, phase ≠ .returned (.ok v)) →
      (∀ found v, phase ≠ .returned (.error (.fromTheFuture found v))) →
      Upgraded history known (done ++ []) { s with cores := Function.update s.cores i phase } := by
    intro i phase happlying hmigrated hrefused
    rw [List.append_nil]
    exact h.update i phase (fun left hp => absurd hp (happlying left))
      (fun v hp => absurd hp (hmigrated v)) fun found v hp => absurd hp (hrefused found v)
  have hsame : Upgraded history known (done ++ []) s := by rwa [List.append_nil]
  cases move with
  | start i => exact ⟨[], hstay i .opened (by simp) (by simp) (by simp)⟩
  | version i refused =>
    unfold Upgrades.step
    dsimp only
    split
    · cases refused with
      | some e => exact ⟨[], hstay i _ (by simp) (by simp) (by simp)⟩
      | none =>
        refine ⟨[], ?_⟩
        rw [List.append_nil]
        by_cases hgt : s.file.userVersion > expectedVersion (known i)
        · refine h.update i _ (by simp [hgt]) (by simp [hgt]) fun found v hp => ?_
          simp only [hgt, if_true, MigratorPhase.returned.injEq, Except.error.injEq,
            MigrationError.fromTheFuture.injEq] at hp
          obtain ⟨rfl, rfl⟩ := hp
          exact ⟨rfl, hgt, (h.version hhistory).le⟩
        · refine h.update i _ (fun left hp => ?_) (by simp [hgt]) (by simp [hgt])
          simp only [hgt, if_false, MigratorPhase.applying.injEq] at hp
          -- what is above the file's version is what has not been applied
          rw [h.version hhistory] at hgt hp
          obtain ⟨rest, hrest⟩ :=
            hhistory.prefix_of_le h.past (hknown i) (not_lt.mp hgt)
          refine ⟨done, List.prefix_rfl, ?_⟩
          rw [← hp, ← hrest, hhistory.filter_eq (hrest ▸ hknown i)]
    · exact ⟨[], hsame⟩
  | apply i answers =>
    unfold Upgrades.step
    dsimp only
    split
    · rename_i hi
      refine ⟨[], ?_⟩
      rw [List.append_nil]
      obtain ⟨seen, hseen, hsplit⟩ := h.applying i [] hi
      refine h.update i _ (by simp) (fun v hp => ?_) (by simp)
      obtain rfl : expectedVersion (known i) = v := by simpa using hp
      exact ⟨rfl, hsplit ▸ (List.append_nil seen).symm ▸ hseen⟩
    · rename_i m left hi
      rcases commit_script answers m.script s.file with
        ⟨after, hcommit, hexec⟩ | ⟨e, kept, hcommit, hkept⟩
      · have hsplit := h.eq_of_exec hhistory hknown hi hexec
        have hnext : done ++ [m] <+: history := by
          refine List.IsPrefix.trans ?_ (hknown i)
          exact ⟨left, by rw [← hsplit, List.append_assoc, List.singleton_append]⟩
        refine ⟨[m], ?_⟩
        simp only [hcommit]
        refine (h.advance hhistory hnext hexec).update i (.applying left) ?_ (by simp) (by simp)
        intro left' hp
        obtain rfl : left = left' := by simpa using hp
        exact ⟨done ++ [m], List.prefix_rfl, by
          rw [← hsplit, List.append_assoc, List.singleton_append]⟩
      · refine ⟨[], ?_⟩
        simp only [hcommit, hkept]
        exact hstay i _ (by simp) (by simp) (by simp)
    · exact ⟨[], hsame⟩

/-- And any number of steps. -/
theorem Upgraded.run {done : List Migration} (h : Upgraded history known done s)
    (hhistory : AppendOnly history) (hknown : ∀ i, known i <+: history)
    (moves : List (UpgradeMove ι)) :
    ∃ later, Upgraded history known (done ++ later) ((machine known).run s moves) := by
  induction moves generalizing done s with
  | nil => exact ⟨[], by rwa [List.append_nil]⟩
  | cons move moves ih =>
    obtain ⟨first, hfirst⟩ := h.step hhistory hknown move
    obtain ⟨rest, hrest⟩ := ih hfirst
    exact ⟨first ++ rest, by rwa [← List.append_assoc]⟩

/-- **Migrations are serial.** Cores of any builds that know beginnings of one append-only history
may start, race, fail, be killed and start again in any order: the file is always what the first
migrations of the history build, each applied once and in order, the version it records is theirs
and never goes back, a core that was told its file is migrated has a file with everything it knows,
and one that was turned away is older than the file. -/
theorem migrations_serial (hhistory : AppendOnly history) (hknown : ∀ i, known i <+: history)
    (moves later : List (UpgradeMove ι)) :
    let s := (machine known).run (fresh ι) moves
    let t := (machine known).run s later
    ∃ done more, done ++ more <+: history ∧ applyAll done .empty = .ok s.file ∧
      applyAll (done ++ more) .empty = .ok t.file ∧
      s.file.userVersion = expectedVersion done ∧
      t.file.userVersion = expectedVersion (done ++ more) ∧
      s.file.userVersion ≤ t.file.userVersion ∧
      ∀ i, (∀ v, t.cores i = .returned (.ok v) →
          v = expectedVersion (known i) ∧ known i <+: done ++ more) ∧
        ∀ found v, t.cores i = .returned (.error (.fromTheFuture found v)) →
          v = expectedVersion (known i) ∧ v < found ∧ found ≤ t.file.userVersion := by
  intro s t
  obtain ⟨done, hs⟩ := (upgraded_fresh history known).run hhistory hknown moves
  obtain ⟨more, ht⟩ := hs.run hhistory hknown later
  rw [List.nil_append] at hs ht
  refine ⟨done, more, ht.past, hs.built, ht.built, hs.version hhistory, ht.version hhistory, ?_,
    fun i => ⟨?_, ?_⟩⟩
  · rw [hs.version hhistory, ht.version hhistory]
    exact expectedVersion_mono (List.subset_append_left _ _)
      fun m hm => hhistory.pos (ht.past.subset hm)
  · exact ht.migrated i
  · rw [ht.version hhistory]
    exact ht.refused i

/-- A later build, with one migration more. -/
private def laterMigrations : List Migration :=
  migrations ++ [⟨2, "notes", [.table "notes"]⟩]

private theorem appendOnly_laterMigrations : AppendOnly laterMigrations where
  numbered := by decide
  fits := by decide
  creates := by decide

/-- A core of this build and one of the later build both read version 0, and both try. -/
private def race : List (UpgradeMove Bool) :=
  [.start false, .start true, .version false none, .version true none, .apply true .calm,
    .apply false .calm]

/-- Then the later build finishes, and this build is turned away. -/
private def aftermath : List (UpgradeMove Bool) :=
  [.apply true .calm, .apply true .calm, .start false, .version false none]

/-- Which build a core is of. -/
private def builds (later : Bool) : List Migration := if later then laterMigrations else migrations

private theorem builds_begin (later : Bool) : builds later <+: laterMigrations := by
  cases later
  · exact List.prefix_append migrations _
  · exact List.prefix_rfl

/-- The race costs neither core anything but its turn. -/
theorem migrations_serial_race :
    ((machine builds).run (fresh Bool) race).file.userVersion = 1 ∧
      ((machine builds).run ((machine builds).run (fresh Bool) race) aftermath).file.userVersion =
        2 ∧
      ((machine builds).run (fresh Bool) race).file.userVersion ≤
        ((machine builds).run ((machine builds).run (fresh Bool) race)
          aftermath).file.userVersion := by
  obtain ⟨done, more, -, -, -, -, -, hle, -⟩ :=
    migrations_serial appendOnly_laterMigrations builds_begin race aftermath
  exact ⟨by decide +kernel, by decide +kernel, hle⟩

/-! ### A core that is left alone -/

/-- One core's steps of a migration in which nothing fails. -/
def calmly (known : ι → List Migration) (i : ι) : List (UpgradeMove ι) :=
  .start i :: .version i none :: List.replicate ((known i).length + 1) (.apply i .calm)

/-- A script that can be applied is, when nothing else fails. -/
theorem commit_calm {script : List SchemaStatement} {db after : Schema}
    (h : executeBatch script db = .ok after) :
    (Connection.mk db none).commit executeBatch .calm [⟨0, [script]⟩] =
      (.ok (), ⟨after, none⟩) := by
  have hwrites : execWrites executeBatch (Answers.calm (ε := SchemaRefusal)).statement 0
      [script] db = .ok after := by
    change executeBatch script db >>= pure = .ok after
    rw [h]
    rfl
  rw [Connection.commit]
  simp only [Connection.beginImmediate, Answers.calm, List.flatMap_cons, List.flatMap_nil,
    List.append_nil]
  rw [Answers.calm] at hwrites
  rw [hwrites]
  rfl

/-- A core that has returned stays so. -/
theorem run_returned {i : ι} {outcome : Except MigrationError ℤ}
    (h : s.cores i = .returned outcome) (n : ℕ) :
    (machine known).run s (List.replicate n (.apply i .calm)) = s := by
  induction n with
  | zero => rfl
  | succ n ih =>
    have hstep : s.step known (.apply i .calm) = s := by
      unfold Upgrades.step
      simp only [h]
    rw [List.replicate_succ, Machine.run_cons, machine_next, hstep, ih]

/-- The loop applies what is left of it. -/
theorem run_applying {i : ι} {left : List Migration} {final : Schema}
    (h : s.cores i = .applying left) (hleft : applyAll left s.file = .ok final) {n : ℕ}
    (hn : left.length < n) :
    let t := (machine known).run s (List.replicate n (.apply i .calm))
    t.file = final ∧ t.cores i = .returned (.ok (expectedVersion (known i))) := by
  induction left generalizing s n with
  | nil =>
    obtain ⟨n, rfl⟩ := Nat.exists_eq_add_one.mpr hn
    obtain rfl := Except.ok.inj hleft
    have hstep : s.step known (.apply i .calm) =
        { s with
          cores := Function.update s.cores i (.returned (.ok (expectedVersion (known i)))) } := by
      unfold Upgrades.step
      simp only [h]
    rw [List.replicate_succ, Machine.run_cons, machine_next, hstep,
      run_returned (Function.update_self ..)]
    exact ⟨rfl, Function.update_self ..⟩
  | cons m left ih =>
    obtain ⟨n, rfl⟩ := Nat.exists_eq_add_one.mpr (Nat.zero_lt_of_lt hn)
    rw [applyAll_cons] at hleft
    cases hexec : executeBatch m.script s.file with
    | error e => rw [hexec] at hleft; cases hleft
    | ok after =>
      rw [hexec] at hleft
      have hrest : applyAll left after = .ok final := hleft
      have hstep : s.step known (.apply i .calm) =
          ⟨after, Function.update s.cores i (.applying left)⟩ := by
        unfold Upgrades.step
        simp only [h, commit_calm hexec]
      rw [List.replicate_succ, Machine.run_cons, machine_next, hstep]
      exact ih (Function.update_self ..) hrest (Nat.lt_of_succ_lt_succ hn)

/-- The loop starts with what the file is missing. -/
theorem step_version {i : ι} (h : s.cores i = .opened)
    (hle : s.file.userVersion ≤ expectedVersion (known i)) :
    s.step known (.version i none) =
      { s with
        cores := Function.update s.cores i
          (.applying ((known i).filter fun m => m.version > s.file.userVersion)) } := by
  unfold Upgrades.step
  simp only [h, if_neg (not_lt.mpr hle)]

/-- A file from a newer build is left alone. -/
theorem step_version_future {i : ι} (h : s.cores i = .opened)
    (hlt : expectedVersion (known i) < s.file.userVersion) :
    s.step known (.version i none) =
      { s with
        cores := Function.update s.cores i
          (.returned (.error
            (.fromTheFuture s.file.userVersion (expectedVersion (known i))))) } := by
  unfold Upgrades.step
  simp only [h, if_pos (show s.file.userVersion > _ from hlt)]

/-- Whatever happened to the file before, a core that is left alone brings it up to its build. -/
theorem Upgraded.calmly {done : List Migration} (h : Upgraded history known done s)
    (hhistory : AppendOnly history) (hknown : ∀ i, known i <+: history) {final : Schema}
    (hsound : applyAll history .empty = .ok final) (i : ι)
    (hle : s.file.userVersion ≤ expectedVersion (known i)) :
    let t := (machine known).run s (calmly known i)
    t.cores i = .returned (.ok (expectedVersion (known i))) ∧
      applyAll (known i) .empty = .ok t.file := by
  rw [h.version hhistory] at hle
  obtain ⟨rest, hrest⟩ := hhistory.prefix_of_le h.past (hknown i) hle
  have hfilter : ((known i).filter fun m => m.version > s.file.userVersion) = rest := by
    rw [h.version hhistory, ← hrest]
    exact hhistory.filter_eq (hrest ▸ hknown i)
  -- a beginning of a history that can be applied can be applied
  obtain ⟨mid, hmid⟩ : ∃ mid, applyAll (known i) .empty = .ok mid := by
    obtain ⟨later, hlater⟩ := hknown i
    rw [← hlater, applyAll_append] at hsound
    cases happlied : applyAll (known i) .empty with
    | error e => rw [happlied] at hsound; cases hsound
    | ok mid => exact ⟨mid, rfl⟩
  have hleft : applyAll rest s.file = .ok mid := by
    rw [← hrest, applyAll_append, h.built] at hmid
    exact hmid
  intro t
  have hstarted : (s.step known (.start i)).cores i = .opened := Function.update_self ..
  have hopened : (s.step known (.start i)).file.userVersion ≤ expectedVersion (known i) :=
    (h.version hhistory).trans_le hle
  have hversion := step_version hstarted hopened
  have happlying : ((s.step known (.start i)).step known (.version i none)).cores i =
      .applying rest := by
    rw [hversion]
    exact (Function.update_self ..).trans (congrArg _ hfilter)
  have hfile : ((s.step known (.start i)).step known (.version i none)).file = s.file := by
    rw [hversion]
    rfl
  have hlength : rest.length < (known i).length + 1 := by
    rw [← hrest, List.length_append]
    exact Nat.lt_succ_of_le (Nat.le_add_left _ _)
  obtain ⟨hfinal, hreturned⟩ := run_applying happlying (hfile ▸ hleft) hlength
  exact ⟨hreturned, hmid.trans (congrArg Except.ok hfinal.symm)⟩

/-- **Migrating is idempotent, and the future is refused.** However the cores that used a file
before left it, a core that is then left alone either brings it to exactly what its own build
makes of a fresh file and, run once more, changes nothing; or it is older than the file, says so,
and leaves the file as it is. -/
theorem migrate_calmly (hhistory : AppendOnly history) (hknown : ∀ i, known i <+: history)
    {final : Schema} (hsound : applyAll history .empty = .ok final)
    (moves : List (UpgradeMove ι)) (i : ι) :
    let s := (machine known).run (fresh ι) moves
    let t := (machine known).run s (calmly known i)
    (s.file.userVersion ≤ expectedVersion (known i) →
        t.cores i = .returned (.ok (expectedVersion (known i))) ∧
          applyAll (known i) .empty = .ok t.file ∧
          ((machine known).run t (calmly known i)).file = t.file) ∧
      (expectedVersion (known i) < s.file.userVersion →
        t.cores i = .returned
            (.error (.fromTheFuture s.file.userVersion (expectedVersion (known i)))) ∧
          t.file = s.file) := by
  intro s t
  obtain ⟨done, hs⟩ := (upgraded_fresh history known).run hhistory hknown moves
  rw [List.nil_append] at hs
  refine ⟨fun hle => ?_, fun hlt => ?_⟩
  · obtain ⟨hreturned, hbuilt⟩ := hs.calmly hhistory hknown hsound i hle
    refine ⟨hreturned, hbuilt, ?_⟩
    obtain ⟨more, ht⟩ := hs.run hhistory hknown (calmly known i)
    have htle := (hhistory.userVersion_eq (hknown i) hbuilt).le
    obtain ⟨-, hagain⟩ := ht.calmly hhistory hknown hsound i htle
    exact (Except.ok.inj (hbuilt.symm.trans hagain)).symm
  · have hstarted : (s.step known (.start i)).cores i = .opened := Function.update_self ..
    have hversion := step_version_future hstarted hlt
    have hreturned : ((s.step known (.start i)).step known (.version i none)).cores i =
        .returned (.error (.fromTheFuture s.file.userVersion (expectedVersion (known i)))) := by
      rw [hversion]
      exact Function.update_self ..
    have hrun : t = (s.step known (.start i)).step known (.version i none) :=
      run_returned hreturned _
    refine ⟨hrun ▸ hreturned, ?_⟩
    rw [hrun, hversion]
    rfl

/-- The later build starts over after the race, finishes, and has nothing to do the next time. -/
theorem migrate_calmly_race :
    let t := (machine builds).run ((machine builds).run (fresh Bool) race) (calmly builds true)
    t.file.userVersion = 2 ∧ ((machine builds).run t (calmly builds true)).file = t.file := by
  intro t
  obtain ⟨final, hfinal⟩ : ∃ final, applyAll laterMigrations .empty = .ok final := ⟨_, rfl⟩
  obtain ⟨hcalm, -⟩ :=
    migrate_calmly appendOnly_laterMigrations builds_begin hfinal race true
  obtain ⟨-, -, hagain⟩ := hcalm (by decide +kernel)
  exact ⟨by decide +kernel, hagain⟩

end Upgrades

end MoonCore
