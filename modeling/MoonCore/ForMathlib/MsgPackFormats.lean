import MoonCore.ForMathlib.MsgPack

/-!
# Reading any MessagePack value

The first byte of a value says what the rest of it is (`MsgPack.formOf`), and an array or a map
holds values in turn. `MsgPack.readWithin` reads values nested up to a depth; no byte string
holds deeper ones than it has bytes, so that `MsgPack.read` reads them all
(`MsgPack.read_of_readWithin`).

A value says where it ends: bytes that are one value read as that value whatever follows them
(`MsgPack.reads_of_exactly`).
-/

namespace MoonCore

namespace MsgPack

/-! ### Forms -/

/-- How long something is: part of the first byte, or the number in the bytes after it. -/
inductive Length where
  | here (n : ℕ)
  | next (width : ℕ)

/-- What there is to read after the first byte. -/
inductive Form where
  /-- Nothing. -/
  | whole (value : Value)
  /-- `0xc1` begins no value. -/
  | unused
  | unsigned (width : ℕ)
  | signed (width : ℕ)
  | f32
  | f64
  | string (length : Length)
  | binary (length : Length)
  | ext (length : Length)
  | array (length : Length)
  | map (length : Length)

/-- The table of the first bytes. -/
def formOf (byte : UInt8) : Form :=
  let n := byte.toNat
  if n < 0x80 then .whole (.integer n)
  else if n < 0x90 then .map (.here (n - 0x80))
  else if n < 0xa0 then .array (.here (n - 0x90))
  else if n < 0xc0 then .string (.here (n - 0xa0))
  else
    match n with
    | 0xc0 => .whole .nil
    | 0xc1 => .unused
    | 0xc2 => .whole (.boolean false)
    | 0xc3 => .whole (.boolean true)
    | 0xc4 => .binary (.next 1)
    | 0xc5 => .binary (.next 2)
    | 0xc6 => .binary (.next 4)
    | 0xc7 => .ext (.next 1)
    | 0xc8 => .ext (.next 2)
    | 0xc9 => .ext (.next 4)
    | 0xca => .f32
    | 0xcb => .f64
    | 0xcc => .unsigned 1
    | 0xcd => .unsigned 2
    | 0xce => .unsigned 4
    | 0xcf => .unsigned 8
    | 0xd0 => .signed 1
    | 0xd1 => .signed 2
    | 0xd2 => .signed 4
    | 0xd3 => .signed 8
    | 0xd4 => .ext (.here 1)
    | 0xd5 => .ext (.here 2)
    | 0xd6 => .ext (.here 4)
    | 0xd7 => .ext (.here 8)
    | 0xd8 => .ext (.here 16)
    | 0xd9 => .string (.next 1)
    | 0xda => .string (.next 2)
    | 0xdb => .string (.next 4)
    | 0xdc => .array (.next 2)
    | 0xdd => .array (.next 4)
    | 0xde => .map (.next 2)
    | 0xdf => .map (.next 4)
    | n => .whole (.integer (n - 0x100))

/-! ### Readers -/

/-- The length, from the first byte itself or from the bytes after it. -/
def Length.read : Length → Reader ℕ
  | .here n => .done n
  | .next width => .natBe width

/-- Two's complement. -/
def ofSigned (width v : ℕ) : ℤ := if v < 256 ^ width / 2 then v else v - 256 ^ width

/-- A string by its bytes. -/
def stringOf (bytes : List UInt8) : Value :=
  match String.fromUTF8? ⟨bytes.toArray⟩ with
  | some text => .string text
  | none => .malformed bytes

/-- What a form reads as, where the values in it read as `value` says. -/
def Form.read (value : Reader Value) : Form → Reader Value
  | whole value => .done value
  | unused => fun _ => none
  | unsigned width => (Reader.natBe width).map fun v : ℕ => .integer v
  | signed width => (Reader.natBe width).map fun v => .integer (ofSigned width v)
  | f32 => (Reader.natBe 4).map fun v => .f32 (.ofNat v)
  | f64 => (Reader.natBe 8).map fun v => .f64 (.ofNat v)
  | string length => length.read.andThen fun n => (Reader.raw n).map stringOf
  | binary length => length.read.andThen fun n => (Reader.raw n).map .binary
  | ext length => length.read.andThen fun n => Reader.byte.andThen fun tag =>
      (Reader.raw n).map (.ext tag.toInt8)
  | array length => length.read.andThen fun n => (value.times n).map .array
  | map length => length.read.andThen fun n =>
      ((value.andThen fun key => value.map (key, ·)).times n).map .map

/-- A value nested at most this deep. -/
def readWithin : ℕ → Reader Value
  | 0 => fun _ => none
  | depth + 1 => Reader.byte.andThen fun byte => (formOf byte).read (readWithin depth)

/-- A value. -/
def read : Reader Value := fun bytes => readWithin bytes.length bytes

/-! ### A value says where it ends -/

theorem Length.selfDelimiting (length : Length) : length.read.SelfDelimiting := by
  cases length with
  | here n => exact Reader.selfDelimiting_done n
  | next width => exact Reader.selfDelimiting_natBe width

theorem Form.selfDelimiting {value : Reader Value} (h : value.SelfDelimiting) (form : Form) :
    (form.read value).SelfDelimiting := by
  cases form with
  | whole value => exact Reader.selfDelimiting_done value
  | unused => exact fun _ _ _ h => by cases h
  | unsigned width => exact (Reader.selfDelimiting_natBe width).map _
  | signed width => exact (Reader.selfDelimiting_natBe width).map _
  | f32 => exact (Reader.selfDelimiting_natBe 4).map _
  | f64 => exact (Reader.selfDelimiting_natBe 8).map _
  | string length =>
    exact length.selfDelimiting.andThen fun n => (Reader.selfDelimiting_raw n).map _
  | binary length =>
    exact length.selfDelimiting.andThen fun n => (Reader.selfDelimiting_raw n).map _
  | ext length =>
    exact length.selfDelimiting.andThen fun n =>
      Reader.selfDelimiting_byte.andThen fun _ => (Reader.selfDelimiting_raw n).map _
  | array length => exact length.selfDelimiting.andThen fun n => (h.times n).map _
  | map length =>
    exact length.selfDelimiting.andThen fun n =>
      ((h.andThen fun key => h.map _).times n).map _

theorem selfDelimiting_readWithin (depth : ℕ) : (readWithin depth).SelfDelimiting := by
  induction depth with
  | zero => exact fun _ _ _ h => by cases h
  | succ depth ih =>
    exact Reader.selfDelimiting_byte.andThen fun byte => (formOf byte).selfDelimiting ih

/-! ### How deep values nest -/

theorem Form.extendsUpTo {k : ℕ} {value wider : Reader Value}
    (h : Reader.ExtendsUpTo k value wider) (hvalue : value.SelfDelimiting) (form : Form) :
    Reader.ExtendsUpTo k (form.read value) (form.read wider) := by
  cases form with
  | array length =>
    exact (Reader.ExtendsUpTo.refl k _).andThen length.selfDelimiting fun n =>
      (h.times hvalue n).map (hvalue.times n) _
  | map length =>
    have hentry : (value.andThen fun key => value.map (key, ·)).SelfDelimiting :=
      hvalue.andThen fun key => hvalue.map _
    exact (Reader.ExtendsUpTo.refl k _).andThen length.selfDelimiting fun n =>
      ((h.andThen hvalue fun key => h.map hvalue _).times hentry n).map (hentry.times n) _
  | _ => exact .refl k _

/-- Bytes hold no value nested deeper than there are bytes. -/
theorem extendsUpTo_readWithin (depth k : ℕ) :
    Reader.ExtendsUpTo k (readWithin depth) (readWithin k) := by
  induction depth generalizing k with
  | zero => exact fun _ _ _ _ h => by cases h
  | succ depth ih =>
    intro bytes hbytes value rest hread
    cases bytes with
    | nil => cases hread
    | cons byte later =>
      obtain ⟨k, rfl⟩ := Nat.exists_eq_add_of_le' (Nat.zero_lt_of_lt hbytes)
      have hlater : later.length ≤ k := Nat.le_of_succ_le_succ hbytes
      exact (formOf byte).extendsUpTo (ih k) (selfDelimiting_readWithin depth) later hlater value
        rest hread

/-- **What is read at some depth is read.** -/
theorem read_of_readWithin {depth : ℕ} {bytes rest : List UInt8} {value : Value}
    (h : readWithin depth bytes = some (value, rest)) : read bytes = some (value, rest) :=
  extendsUpTo_readWithin depth bytes.length bytes le_rfl value rest h

/-- **Bytes that are one value are that value whatever follows them**, read at any depth they can
have. -/
theorem reads_of_exactly {part : List UInt8} {value : Value}
    (h : Reader.exactly read part = some value) {depth : ℕ} (hdepth : part.length ≤ depth) :
    Reader.Reads (readWithin depth) part value := by
  refine (selfDelimiting_readWithin depth).reads (Reader.exactly_eq_some.mpr ?_)
  exact extendsUpTo_readWithin part.length depth part hdepth value [] (Reader.exactly_eq_some.mp h)

/-! ### Arrays -/

set_option maxRecDepth 4000 in
/-- The first bytes of a `fixarray`, by their bits. -/
theorem fixarray_iff (byte : UInt8) :
    (byte &&& 0xf0 = 0x90 ↔ 0x90 ≤ byte.toNat ∧ byte.toNat < 0xa0) ∧
      (0x90 ≤ byte.toNat → byte.toNat < 0xa0 → (byte &&& 0x0f).toNat = byte.toNat - 0x90) := by
  have hall : ∀ k : Fin 256, (UInt8.ofNat k &&& 0xf0 = 0x90 ↔ 0x90 ≤ k.val ∧ k.val < 0xa0) ∧
      (0x90 ≤ k.val → k.val < 0xa0 → (UInt8.ofNat k &&& 0x0f).toNat = k.val - 0x90) := by
    decide
  have hbyte := hall ⟨byte.toNat, byte.toNat_lt⟩
  rwa [UInt8.ofNat_toNat] at hbyte

/-- `readArrayHeader` reads the lengths of the forms that are arrays. -/
theorem readArrayHeader_cons (byte : UInt8) (rest : List UInt8) :
    readArrayHeader (byte :: rest) =
      match formOf byte with
      | .array length => length.read rest
      | _ => none := by
  obtain ⟨hfix, hlow⟩ := fixarray_iff byte
  rw [readArrayHeader]
  by_cases hbyte : 0x90 ≤ byte.toNat ∧ byte.toNat < 0xa0
  · have hform : formOf byte = .array (.here (byte.toNat - 0x90)) := by
      simp only [formOf]
      rw [if_neg (by omega), if_neg (by omega), if_pos hbyte.2]
    rw [if_pos (hfix.mpr hbyte), hform, hlow hbyte.1 hbyte.2]
    rfl
  · rw [if_neg (fun h => hbyte (hfix.mp h))]
    by_cases h16 : byte = 0xdc
    · subst h16
      rfl
    · by_cases h32 : byte = 0xdd
      · subst h32
        rfl
      · rw [if_neg h16, if_neg h32, formOf]
        have h16' : byte.toNat ≠ 0xdc := fun h => h16 (UInt8.toNat_inj.mp h)
        have h32' : byte.toNat ≠ 0xdd := fun h => h32 (UInt8.toNat_inj.mp h)
        split_ifs
        · rfl
        · rfl
        · omega
        · rfl
        · split
          · next length hform =>
            split at hform <;> contradiction
          · rfl

/-- An array header, and then the items. -/
theorem readWithin_succ_of_header {depth n : ℕ} {bytes rest : List UInt8}
    (h : readArrayHeader bytes = some (n, rest)) :
    readWithin (depth + 1) bytes = ((readWithin depth).times n).map .array rest := by
  cases bytes with
  | nil => cases h
  | cons byte later =>
    rw [readArrayHeader_cons] at h
    split at h
    · next length hform =>
      change (formOf byte).read (readWithin depth) later = _
      rw [hform, Form.read, Reader.andThen, h]
    · cases h

/-- A header, and the values it says there are, at one level more. -/
theorem reads_header {depth n : ℕ} (h : n < 256 ^ 4) {later : List UInt8} {items : List Value}
    (hlater : Reader.Reads ((readWithin depth).times n) later items) :
    Reader.Reads (readWithin (depth + 1)) (arrayHeader n ++ later) (.array items) := by
  intro rest
  rw [List.append_assoc, readWithin_succ_of_header (reads_arrayHeader h (later ++ rest))]
  exact hlater.map _ rest

/-- **Values under an array header are one array of them, and nothing else.** -/
theorem exactly_array {parts : List (List UInt8)} {values : List Value}
    (hparts : List.Forall₂ (fun part value => Reader.exactly read part = some value) parts values)
    (h : parts.length < 256 ^ 4) :
    Reader.exactly read (arrayHeader parts.length ++ parts.flatten) = some (.array values) := by
  have hdeep : ∀ part ∈ parts, part.length ≤ parts.flatten.length := fun part hpart =>
    (List.sublist_flatten_of_mem hpart).length_le
  have hreads : List.Forall₂ (Reader.Reads (readWithin parts.flatten.length)) parts values := by
    have hboth := (List.forall₂_and_left _ _).mpr ⟨hdeep, hparts⟩
    exact hboth.imp fun part value h => reads_of_exactly h.2 h.1
  have harray := (reads_header h (Reader.reads_times hreads)).exactly
  exact Reader.exactly_eq_some.mpr (read_of_readWithin (Reader.exactly_eq_some.mp harray))

/-- How long the shortest header is. -/
theorem length_arrayHeader (n : ℕ) :
    (arrayHeader n).length = if n ≤ 15 then 1 else if n ≤ 0xffff then 3 else 5 := by
  rw [arrayHeader]
  split_ifs <;> simp

/-- No header of an array of this length is shorter. -/
theorem length_arrayHeader_le {n : ℕ} {header : List UInt8}
    (h : Reader.exactly readArrayHeader header = some n) :
    (arrayHeader n).length ≤ header.length := by
  have hread := Reader.exactly_eq_some.mp h
  rw [length_arrayHeader]
  cases header with
  | nil => cases hread
  | cons byte rest =>
    rw [List.length_cons]
    rw [readArrayHeader] at hread
    split_ifs at hread with hfix h16 h32
    · have hn : n ≤ 15 := by
        cases hread
        rw [UInt8.toNat_and]
        exact Nat.and_le_right
      rw [if_pos hn]
      omega
    · have hn : n < 256 ^ 2 ∧ rest.length = 2 := Reader.natBe_eq_some_nil hread
      split_ifs <;> omega
    · have hn : n < 256 ^ 4 ∧ rest.length = 4 := Reader.natBe_eq_some_nil hread
      split_ifs <;> omega

end MsgPack

end MoonCore
