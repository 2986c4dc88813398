import Mathlib.Algebra.Group.Nat.Defs
import Mathlib.Data.List.Basic
import Mathlib.Data.UInt

/-!
# Reading values off the front of a byte string

A `Reader` takes a value off the front of a byte string and says what is left, or fails.

* `Reader.Reads read part a`: `part` reads as `a` whatever follows it, which is what makes
  concatenated encodings readable one after the other (`Reads.times`, `Reads.andThen`);
* `beBytes` and `Reader.natBe`, big-endian numbers of a fixed width;
* `Reader.exactly`, one value and nothing after it;
* `Reader.SelfDelimiting`, a reader that reads the same whatever follows what it read, and
  `Reader.ExtendsUpTo`, a reader that reads what another one does, each with its rules for the
  readers above.

Nothing here is about a particular format or program.
-/

namespace MoonCore

/-- The low `k` bytes of a number, the highest first. -/
def beBytes : ℕ → ℕ → List UInt8
  | 0, _ => []
  | k + 1, v => beBytes k (v / 256) ++ [UInt8.ofNat v]

@[simp]
theorem length_beBytes (k v : ℕ) : (beBytes k v).length = k := by
  induction k generalizing v with
  | zero => rfl
  | succ k ih => rw [beBytes, List.length_append, ih, List.length_singleton]

/-- The number some bytes stand for, the highest first. -/
def ofBeBytes (bytes : List UInt8) : ℕ := bytes.foldl (fun v byte => v * 256 + byte.toNat) 0

theorem ofBeBytes_beBytes {k v : ℕ} (h : v < 256 ^ k) : ofBeBytes (beBytes k v) = v := by
  induction k generalizing v with
  | zero =>
    rw [pow_zero] at h
    obtain rfl : v = 0 := by omega
    rfl
  | succ k ih =>
    have hhigh : v / 256 < 256 ^ k := by
      rw [pow_succ] at h
      omega
    have hfold : ofBeBytes (beBytes k (v / 256) ++ [UInt8.ofNat v]) =
        ofBeBytes (beBytes k (v / 256)) * 256 + (UInt8.ofNat v).toNat := by
      rw [ofBeBytes, List.foldl_append]
      rfl
    have hlow : (UInt8.ofNat v).toNat = v % 256 := UInt8.toNat_ofNat'
    rw [beBytes, hfold, ih hhigh, hlow]
    omega

theorem ofBeBytes_lt (bytes : List UInt8) : ofBeBytes bytes < 256 ^ bytes.length := by
  induction bytes using List.reverseRecOn with
  | nil => exact Nat.one_pos
  | append_singleton bytes byte ih =>
    have hfold : ofBeBytes (bytes ++ [byte]) = ofBeBytes bytes * 256 + byte.toNat := by
      rw [ofBeBytes, List.foldl_append]
      rfl
    have hbyte : byte.toNat < 256 := byte.toNat_lt
    rw [hfold, List.length_append, List.length_singleton, pow_succ]
    omega

/-- Numbers that fit are told apart by their bytes. -/
theorem beBytes_inj {k v w : ℕ} (hv : v < 256 ^ k) (hw : w < 256 ^ k)
    (h : beBytes k v = beBytes k w) : v = w := by
  rw [← ofBeBytes_beBytes hv, h, ofBeBytes_beBytes hw]

/-- Takes a value off the front of a byte string, and says what is left. -/
abbrev Reader (α : Type*) := List UInt8 → Option (α × List UInt8)

namespace Reader

variable {α β : Type*}

/-- A number of `k` bytes, the highest first. -/
def natBe (k : ℕ) : Reader ℕ := fun bytes =>
  if k ≤ bytes.length then some (ofBeBytes (bytes.take k), bytes.drop k) else none

/-- One value after the other. -/
def times (read : Reader α) : ℕ → Reader (List α)
  | 0, bytes => some ([], bytes)
  | n + 1, bytes =>
    match read bytes with
    | none => none
    | some (a, rest) => (times read n rest).map fun (as, rest) => (a :: as, rest)

/-- A value, and what it says is to be read next. -/
def andThen (read : Reader α) (next : α → Reader β) : Reader β := fun bytes =>
  match read bytes with
  | none => none
  | some (a, rest) => next a rest

/-- A value that takes no bytes. -/
def done (a : α) : Reader α := fun bytes => some (a, bytes)

/-- A value, seen through a function. -/
def map (f : α → β) (read : Reader α) : Reader β := read.andThen fun a => done (f a)

/-- The next byte. -/
def byte : Reader UInt8
  | [] => none
  | byte :: rest => some (byte, rest)

/-- The next `k` bytes. -/
def raw (k : ℕ) : Reader (List UInt8) := fun bytes =>
  if k ≤ bytes.length then some (bytes.take k, bytes.drop k) else none

/-- The value some bytes are, if they are one value and nothing else. -/
def exactly (read : Reader α) (bytes : List UInt8) : Option α :=
  match read bytes with
  | some (a, []) => some a
  | _ => none

/-- `part` reads as `a`, whatever follows it. -/
def Reads (read : Reader α) (part : List UInt8) (a : α) : Prop :=
  ∀ rest, read (part ++ rest) = some (a, rest)

variable {read : Reader α} {part : List UInt8} {a : α}

theorem Reads.exactly (h : Reads read part a) : read.exactly part = some a := by
  have hpart := h []
  rw [List.append_nil] at hpart
  rw [Reader.exactly, hpart]

theorem Reads.andThen (h : Reads read part a) {next : α → Reader β} {later : List UInt8} {b : β}
    (hnext : Reads (next a) later b) : Reads (read.andThen next) (part ++ later) b := by
  intro rest
  rw [List.append_assoc, Reader.andThen, h]
  exact hnext rest

theorem reads_natBe {k v : ℕ} (h : v < 256 ^ k) : Reads (natBe k) (beBytes k v) v := by
  intro rest
  have hlength : k ≤ (beBytes k v ++ rest).length := by
    rw [List.length_append, length_beBytes]
    omega
  have htake : (beBytes k v ++ rest).take k = beBytes k v :=
    List.take_left' (length_beBytes k v)
  have hdrop : (beBytes k v ++ rest).drop k = rest := List.drop_left' (length_beBytes k v)
  rw [natBe, if_pos hlength, htake, hdrop, ofBeBytes_beBytes h]

/-- Concatenated encodings read as the list of what each of them reads as. -/
theorem reads_times {parts : List (List UInt8)} {as : List α}
    (h : List.Forall₂ (Reads read) parts as) :
    Reads (times read parts.length) parts.flatten as := by
  induction h with
  | nil => exact fun rest => rfl
  | cons hpart _ ih =>
    intro rest
    rw [List.flatten_cons, List.append_assoc, List.length_cons, times, hpart]
    dsimp only
    rw [ih]
    rfl

theorem exactly_eq_some {bytes : List UInt8} :
    read.exactly bytes = some a ↔ read bytes = some (a, []) := by
  rw [Reader.exactly]
  split
  · next h => simp [h]
  · next h =>
    refine iff_of_false (fun hsome => by cases hsome) fun hread => ?_
    exact h a hread

theorem andThen_eq_some {next : α → Reader β} {bytes rest : List UInt8} {b : β} :
    read.andThen next bytes = some (b, rest) ↔
      ∃ a later, read bytes = some (a, later) ∧ next a later = some (b, rest) := by
  rw [Reader.andThen]
  cases read bytes with
  | none => simp
  | some taken =>
    obtain ⟨a, later⟩ := taken
    simp

theorem Reads.map (h : Reads read part a) (f : α → β) : Reads (read.map f) part (f a) := by
  have hmap : Reads (read.andThen fun a => done (f a)) (part ++ []) (f a) :=
    h.andThen fun rest => rfl
  rwa [List.append_nil] at hmap

/-- Bytes that are one number of `k` bytes. -/
theorem natBe_eq_some_nil {k v : ℕ} {bytes : List UInt8} (h : natBe k bytes = some (v, [])) :
    v < 256 ^ k ∧ bytes.length = k := by
  rw [natBe] at h
  split_ifs at h with hk
  injection h with hpair
  injection hpair with hv hrest
  have hlength : bytes.length = k := le_antisymm (List.drop_eq_nil_iff.mp hrest) hk
  rw [List.take_of_length_le hlength.le] at hv
  rw [← hv, ← hlength]
  exact ⟨ofBeBytes_lt bytes, rfl⟩

theorem natBe_eq_map (k : ℕ) : natBe k = (raw k).map ofBeBytes := by
  funext bytes
  rw [natBe, map, andThen, raw]
  split_ifs <;> rfl

theorem times_succ (read : Reader α) (n : ℕ) :
    read.times (n + 1) = read.andThen fun a => (read.times n).map (a :: ·) := by
  funext bytes
  rw [times, andThen]
  cases read bytes with
  | none => rfl
  | some taken =>
    dsimp only
    rw [map, andThen]
    cases read.times n taken.2 <;> rfl

/-! ### Values that say where they end -/

/-- What is read is read whatever follows it. -/
def SelfDelimiting (read : Reader α) : Prop :=
  ∀ bytes a rest, read bytes = some (a, rest) → ∃ part, bytes = part ++ rest ∧ Reads read part a

/-- Bytes that are one value are that value whatever follows them. -/
theorem SelfDelimiting.reads (h : SelfDelimiting read) (hpart : read.exactly part = some a) :
    Reads read part a := by
  obtain ⟨whole, hsplit, hreads⟩ := h part a [] (exactly_eq_some.mp hpart)
  rw [List.append_nil] at hsplit
  rwa [hsplit]

/-- Reading leaves no more than there was. -/
theorem SelfDelimiting.length_le (h : SelfDelimiting read) {bytes rest : List UInt8}
    (hread : read bytes = some (a, rest)) : rest.length ≤ bytes.length := by
  obtain ⟨part, rfl, -⟩ := h bytes a rest hread
  rw [List.length_append]
  omega

theorem selfDelimiting_done (a : α) : SelfDelimiting (done a) := by
  intro bytes b rest h
  cases h
  exact ⟨[], rfl, fun rest => rfl⟩

theorem selfDelimiting_byte : SelfDelimiting byte := by
  intro bytes b rest h
  cases bytes with
  | nil => cases h
  | cons first others =>
    cases h
    exact ⟨[b], rfl, fun rest => rfl⟩

theorem selfDelimiting_raw (k : ℕ) : SelfDelimiting (raw k) := by
  intro bytes b rest h
  rw [raw] at h
  split_ifs at h with hk
  cases h
  refine ⟨bytes.take k, (List.take_append_drop k bytes).symm, fun rest => ?_⟩
  have hlength : (bytes.take k).length = k := List.length_take_of_le hk
  rw [raw, if_pos (by rw [List.length_append]; omega), List.take_left' hlength,
    List.drop_left' hlength]

theorem SelfDelimiting.andThen (h : SelfDelimiting read) {next : α → Reader β}
    (hnext : ∀ a, SelfDelimiting (next a)) : SelfDelimiting (read.andThen next) := by
  intro bytes b rest hread
  obtain ⟨a, later, ha, hb⟩ := andThen_eq_some.mp hread
  obtain ⟨front, rfl, hfront⟩ := h bytes a later ha
  obtain ⟨back, rfl, hback⟩ := hnext a later b rest hb
  exact ⟨front ++ back, (List.append_assoc ..).symm, hfront.andThen hback⟩

theorem SelfDelimiting.map (h : SelfDelimiting read) (f : α → β) :
    SelfDelimiting (read.map f) :=
  h.andThen fun a => selfDelimiting_done (f a)

theorem selfDelimiting_natBe (k : ℕ) : SelfDelimiting (natBe k) := by
  rw [natBe_eq_map]
  exact (selfDelimiting_raw k).map _

theorem SelfDelimiting.times (h : SelfDelimiting read) (n : ℕ) :
    SelfDelimiting (read.times n) := by
  induction n with
  | zero => exact selfDelimiting_done []
  | succ n ih =>
    rw [times_succ]
    exact h.andThen fun a => ih.map _

/-! ### Readers that read more -/

/-- On at most `k` bytes, `wider` reads whatever `read` reads. -/
def ExtendsUpTo (k : ℕ) (read wider : Reader α) : Prop :=
  ∀ bytes, bytes.length ≤ k → ∀ a rest, read bytes = some (a, rest) → wider bytes = some (a, rest)

variable {k : ℕ} {wider : Reader α}

theorem ExtendsUpTo.refl (k : ℕ) (read : Reader α) : ExtendsUpTo k read read :=
  fun _ _ _ _ h => h

theorem ExtendsUpTo.andThen (h : ExtendsUpTo k read wider) (hread : SelfDelimiting read)
    {next widerNext : α → Reader β} (hnext : ∀ a, ExtendsUpTo k (next a) (widerNext a)) :
    ExtendsUpTo k (read.andThen next) (wider.andThen widerNext) := by
  intro bytes hbytes b rest hboth
  obtain ⟨a, later, ha, hb⟩ := andThen_eq_some.mp hboth
  have hlater : later.length ≤ k := (hread.length_le ha).trans hbytes
  exact andThen_eq_some.mpr ⟨a, later, h bytes hbytes a later ha, hnext a later hlater b rest hb⟩

theorem ExtendsUpTo.map (h : ExtendsUpTo k read wider) (hread : SelfDelimiting read) (f : α → β) :
    ExtendsUpTo k (read.map f) (wider.map f) :=
  h.andThen hread fun a => .refl k (done (f a))

theorem ExtendsUpTo.times (h : ExtendsUpTo k read wider) (hread : SelfDelimiting read) (n : ℕ) :
    ExtendsUpTo k (read.times n) (wider.times n) := by
  induction n with
  | zero => exact .refl k _
  | succ n ih =>
    rw [times_succ, times_succ]
    exact h.andThen hread fun a => ih.map (hread.times n) _

end Reader

end MoonCore
