import Mathlib.Tactic.IntervalCases
import MoonCore.ForMathlib.Bytes
import MoonCore.ForMathlib.MsgPackFormats

/-!
# Writing MessagePack values

`MsgPack.write` writes a value in its shortest form. What it writes is one value, the one that was
written (`MsgPack.exactly_write`): the integers of a value that `Fits` have a form, its broken
strings are no texts, and a length below `256 ^ 4` has a header.
-/

namespace MoonCore

namespace MsgPack

open Reader

/-! ### Numbers and lengths -/

/-- A number as part of the first byte, or else in the narrowest of the forms: a first byte, and
how many bytes follow it. -/
def shortest (base : UInt8) (bound : ℕ) (forms : List (UInt8 × ℕ)) (n : ℕ) : List UInt8 :=
  if n < bound then [base + .ofNat n]
  else
    match forms.find? fun form => n < 256 ^ form.2 with
    | some (byte, width) => byte :: beBytes width n
    | none => []

/-- A negative number, likewise. -/
def negative (n : ℤ) : List UInt8 :=
  if -32 ≤ n then [.ofNat (n + 256).toNat]
  else
    match [(0xd0, 1), (0xd1, 2), (0xd2, 4), (0xd3, 8)].find? fun form : UInt8 × ℕ =>
      -(256 ^ form.2 / 2 : ℕ) ≤ n with
    | some (byte, width) => byte :: beBytes width (n + (256 ^ width : ℕ)).toNat
    | none => []

/-- A whole number, in the shortest form that holds it. -/
def writeInt (n : ℤ) : List UInt8 :=
  if 0 ≤ n then shortest 0 0x80 [(0xcc, 1), (0xcd, 2), (0xce, 4), (0xcf, 8)] n.toNat
  else negative n

/-- What stands before the bytes of a string. -/
def stringHeader (n : ℕ) : List UInt8 := shortest 0xa0 32 [(0xd9, 1), (0xda, 2), (0xdb, 4)] n

/-- What stands before binary data. -/
def binaryHeader (n : ℕ) : List UInt8 := shortest 0 0 [(0xc4, 1), (0xc5, 2), (0xc6, 4)] n

/-- What stands before the entries of a map. -/
def mapHeader (n : ℕ) : List UInt8 := shortest 0x80 16 [(0xde, 2), (0xdf, 4)] n

/-- What stands before the type and the bytes of an extension. -/
def extHeader : ℕ → List UInt8
  | 1 => [0xd4]
  | 2 => [0xd5]
  | 4 => [0xd6]
  | 8 => [0xd7]
  | 16 => [0xd8]
  | n => shortest 0 0 [(0xc7, 1), (0xc8, 2), (0xc9, 4)] n

/-! ### Values -/

mutual

/-- A value, in its shortest form. -/
def write : Value → List UInt8
  | .nil => [0xc0]
  | .boolean value => [if value then 0xc3 else 0xc2]
  | .integer n => writeInt n
  | .f32 bits => 0xca :: beBytes 4 bits.toNat
  | .f64 bits => 0xcb :: beBytes 8 bits.toNat
  | .string text => stringHeader text.toUTF8.data.toList.length ++ text.toUTF8.data.toList
  | .malformed bytes => stringHeader bytes.length ++ bytes
  | .binary bytes => binaryHeader bytes.length ++ bytes
  | .array items => arrayHeader items.length ++ writeItems items
  | .map entries => mapHeader entries.length ++ writeEntries entries
  | .ext tag bytes => extHeader bytes.length ++ tag.toUInt8 :: bytes

/-- The items of an array, one after the other. -/
def writeItems : List Value → List UInt8
  | [] => []
  | item :: items => write item ++ writeItems items

/-- The entries of a map, one after the other. -/
def writeEntries : List (Value × Value) → List UInt8
  | [] => []
  | entry :: entries => writeEntry entry ++ writeEntries entries

/-- A key and then its value. -/
def writeEntry : Value × Value → List UInt8
  | (key, value) => write key ++ write value

end

/-- The format has a form for all of a value. -/
inductive Value.Fits : Value → Prop
  | nil : Fits .nil
  | boolean (value : Bool) : Fits (.boolean value)
  | integer {n : ℤ} (hlow : -(256 ^ 8 / 2 : ℕ) ≤ n) (hhigh : n < (256 ^ 8 : ℕ)) : Fits (.integer n)
  | f32 (bits : UInt32) : Fits (.f32 bits)
  | f64 (bits : UInt64) : Fits (.f64 bits)
  | string (text : String) : Fits (.string text)
  | malformed {bytes : List UInt8} (h : stringOf bytes = .malformed bytes) : Fits (.malformed bytes)
  | binary (bytes : List UInt8) : Fits (.binary bytes)
  | array {items : List Value} (h : ∀ item ∈ items, Fits item) : Fits (.array items)
  | map {entries : List (Value × Value)} (hkeys : ∀ entry ∈ entries, Fits entry.1)
      (hvalues : ∀ entry ∈ entries, Fits entry.2) : Fits (.map entries)
  | ext (tag : Int8) (bytes : List UInt8) : Fits (.ext tag bytes)

/-! ### Headers read back -/

/-- What is after the first byte decides. -/
theorem reads_cons {byte : UInt8} {form : Form} (hform : formOf byte = form) {depth : ℕ}
    {later : List UInt8} {value : Value}
    (h : Reads (form.read (readWithin depth)) later value) :
    Reads (readWithin (depth + 1)) (byte :: later) value := by
  intro rest
  change (formOf byte).read (readWithin depth) (later ++ rest) = _
  rw [hform]
  exact h rest

/-- The forms with a length, their first bytes and the numbers their first bytes hold. -/
structure Headed (kind : Length → Form) (base : UInt8) (bound : ℕ) (forms : List (UInt8 × ℕ)) :
    Prop where
  here : ∀ k < bound, formOf (base + .ofNat k) = kind (.here k)
  next : forms.Forall fun form => formOf form.1 = kind (.next form.2)

/-- A number in its shortest form, and then what it says there is. -/
theorem Headed.reads {kind : Length → Form} {base : UInt8} {bound : ℕ}
    {forms : List (UInt8 × ℕ)} (h : Headed kind base bound forms) {body : ℕ → Reader Value}
    {n depth : ℕ}
    (hkind : ∀ length, (kind length).read (readWithin depth) = length.read.andThen body)
    (hn : ∃ form ∈ forms, n < 256 ^ form.2) {later : List UInt8} {value : Value}
    (hlater : Reads (body n) later value) :
    Reads (readWithin (depth + 1)) (shortest base bound forms n ++ later) value := by
  rw [shortest]
  split_ifs with hbound
  · refine reads_cons (h.here n hbound) ?_
    rw [hkind]
    exact hlater
  · cases hfind : forms.find? fun form => n < 256 ^ form.2 with
    | none =>
      obtain ⟨form, hmem, hfits⟩ := hn
      have hnot := List.find?_eq_none.mp hfind form hmem
      exact absurd (decide_eq_true hfits) hnot
    | some form =>
      have hsome := List.find?_some hfind
      have hfits : n < 256 ^ form.2 := of_decide_eq_true hsome
      have hmem := List.mem_of_find?_eq_some hfind
      refine reads_cons (List.forall_iff_forall_mem.mp h.next form hmem) ?_
      rw [hkind]
      exact (reads_natBe hfits).andThen hlater

theorem toNat_add_ofNat {base : UInt8} {b k : ℕ} (hbase : base.toNat = b) (h : b + k < 256) :
    (base + .ofNat k).toNat = b + k := by
  rw [UInt8.toNat_add, UInt8.toNat_ofNat', hbase]
  omega

theorem headed_string : Headed .string 0xa0 32 [(0xd9, 1), (0xda, 2), (0xdb, 4)] where
  here k hk := by
    have hbyte : (0xa0 + UInt8.ofNat k : UInt8).toNat = 0xa0 + k := toNat_add_ofNat rfl (by omega)
    simp only [formOf, hbyte]
    rw [if_neg (by omega), if_neg (by omega), if_neg (by omega), if_pos (by omega),
      Nat.add_sub_cancel_left]
  next := ⟨rfl, rfl, rfl⟩

theorem headed_binary : Headed .binary 0 0 [(0xc4, 1), (0xc5, 2), (0xc6, 4)] where
  here _ hk := absurd hk (Nat.not_lt_zero _)
  next := ⟨rfl, rfl, rfl⟩

theorem headed_map : Headed .map 0x80 16 [(0xde, 2), (0xdf, 4)] where
  here k hk := by
    have hbyte : (0x80 + UInt8.ofNat k : UInt8).toNat = 0x80 + k := toNat_add_ofNat rfl (by omega)
    simp only [formOf, hbyte]
    rw [if_neg (by omega), if_pos (by omega), Nat.add_sub_cancel_left]
  next := ⟨rfl, rfl⟩

theorem headed_ext : Headed .ext 0 0 [(0xc7, 1), (0xc8, 2), (0xc9, 4)] where
  here _ hk := absurd hk (Nat.not_lt_zero _)
  next := ⟨rfl, rfl, rfl⟩

/-- The forms of a number that is not negative. -/
def unsignedForm : Length → Form
  | .here n => .whole (.integer n)
  | .next width => .unsigned width

theorem headed_unsigned :
    Headed unsignedForm 0 0x80 [(0xcc, 1), (0xcd, 2), (0xce, 4), (0xcf, 8)] where
  here k hk := by
    have hbyte : (0 + UInt8.ofNat k : UInt8).toNat = 0 + k := toNat_add_ofNat rfl (by omega)
    rw [Nat.zero_add] at hbyte
    simp only [formOf, hbyte]
    rw [if_pos hk, unsignedForm]
  next := ⟨rfl, rfl, rfl, rfl⟩

/-! ### Values read back -/

/-- The next bytes, whatever they are. -/
theorem reads_raw (bytes : List UInt8) : Reads (raw bytes.length) bytes bytes := by
  intro rest
  have hlength : bytes.length ≤ (bytes ++ rest).length := by
    rw [List.length_append]
    omega
  rw [raw, if_pos hlength, List.take_left, List.drop_left]

theorem reads_byte (next : UInt8) : Reads byte [next] next := fun _ => rfl

theorem reads_stringHeader {bytes : List UInt8} (h : bytes.length < 256 ^ 4) (depth : ℕ) :
    Reads (readWithin (depth + 1)) (stringHeader bytes.length ++ bytes) (stringOf bytes) :=
  headed_string.reads (fun _ => rfl) ⟨(0xdb, 4), by decide, h⟩ ((reads_raw bytes).map stringOf)

theorem reads_binaryHeader {bytes : List UInt8} (h : bytes.length < 256 ^ 4) (depth : ℕ) :
    Reads (readWithin (depth + 1)) (binaryHeader bytes.length ++ bytes) (.binary bytes) :=
  headed_binary.reads (fun _ => rfl) ⟨(0xc6, 4), by decide, h⟩
    ((reads_raw bytes).map Value.binary)

/-- A string that is a text is that text. -/
theorem stringOf_toUTF8 (text : String) : stringOf text.toUTF8.data.toList = .string text := by
  have hvalid : String.fromUTF8? ⟨text.toUTF8.data.toList.toArray⟩ = some text := by
    rw [Array.toArray_toList]
    exact dif_pos text.isValidUTF8
  rw [stringOf, hvalid]

theorem reads_extHeader {bytes : List UInt8} (h : bytes.length < 256 ^ 4) (tag : Int8)
    (depth : ℕ) :
    Reads (readWithin (depth + 1)) (extHeader bytes.length ++ tag.toUInt8 :: bytes)
      (.ext tag bytes) := by
  have hbody : Reads (byte.andThen fun tag => (raw bytes.length).map (Value.ext tag.toInt8))
      (tag.toUInt8 :: bytes) (.ext tag bytes) :=
    (reads_byte tag.toUInt8).andThen ((reads_raw bytes).map _)
  have hhere {first : UInt8} (hform : formOf first = .ext (.here bytes.length)) :
      Reads (readWithin (depth + 1)) ([first] ++ tag.toUInt8 :: bytes) (.ext tag bytes) :=
    reads_cons hform hbody
  generalize hn : bytes.length = n at h hbody hhere
  rw [extHeader.eq_def]
  split
  · exact hhere rfl
  · exact hhere rfl
  · exact hhere rfl
  · exact hhere rfl
  · exact hhere rfl
  · exact headed_ext.reads (fun _ => rfl) ⟨(0xc9, 4), by decide, h⟩ hbody

theorem reads_negative {n : ℤ} (hlow : -(256 ^ 8 / 2 : ℕ) ≤ n) (hneg : n < 0) (depth : ℕ) :
    Reads (readWithin (depth + 1)) (negative n) (.integer n) := by
  rw [negative]
  split_ifs with hfix
  · obtain ⟨k, hk, rfl⟩ : ∃ k < 32, n = (k : ℕ) - 32 :=
      ⟨(n + 32).toNat, by omega, by omega⟩
    have hform : formOf (.ofNat ((k : ℤ) - 32 + 256).toNat) =
        .whole (.integer ((k : ℤ) - 32)) := by
      interval_cases k <;> rfl
    exact reads_cons hform fun _ => rfl
  · split
    · next byte width hfind =>
      have hsome := List.find?_some hfind
      have hfits : -(256 ^ width / 2 : ℕ) ≤ n := of_decide_eq_true hsome
      have hform : formOf byte = .signed width := by
        have hforms : [((0xd0 : UInt8), 1), (0xd1, 2), (0xd2, 4), (0xd3, 8)].Forall fun form =>
            formOf form.1 = .signed form.2 := ⟨rfl, rfl, rfl, rfl⟩
        exact List.forall_iff_forall_mem.mp hforms _ (List.mem_of_find?_eq_some hfind)
      have hvalue : ofSigned width (n + (256 ^ width : ℕ)).toNat = n := by
        rw [ofSigned]
        generalize hpow : 256 ^ width = power at hfits
        rw [if_neg (by omega)]
        push_cast [← hpow] at hfits ⊢
        omega
      refine reads_cons hform ?_
      have hreads := (reads_natBe (k := width) (v := (n + (256 ^ width : ℕ)).toNat) (by omega)).map
        fun v => Value.integer (ofSigned width v)
      rwa [hvalue] at hreads
    · next hfind =>
      have hnot := List.find?_eq_none.mp hfind (0xd3, 8) (by decide)
      exact absurd (decide_eq_true hlow) hnot

theorem reads_writeInt {n : ℤ} (hlow : -(256 ^ 8 / 2 : ℕ) ≤ n) (hhigh : n < (256 ^ 8 : ℕ))
    (depth : ℕ) : Reads (readWithin (depth + 1)) (writeInt n) (.integer n) := by
  rw [writeInt]
  split_ifs with hsign
  · have hbody : Reads (done (Value.integer n.toNat)) [] (.integer n) := by
      rw [Int.toNat_of_nonneg hsign]
      exact fun _ => rfl
    have hfits : n.toNat < 256 ^ 8 := by omega
    have hkind : ∀ length, (unsignedForm length).read (readWithin depth) =
        length.read.andThen fun n : ℕ => done (Value.integer n) := by
      intro length
      cases length <;> rfl
    have hreads := headed_unsigned.reads hkind ⟨(0xcf, 8), by decide, hfits⟩ hbody
    rwa [List.append_nil] at hreads
  · exact reads_negative hlow (by omega) depth

/-! ### The result -/

/-- What reads as a value whatever follows it is that value and nothing else. -/
theorem exactly_of_reads {depth : ℕ} {part : List UInt8} {value : Value}
    (h : Reads (readWithin depth) part value) : exactly read part = some value :=
  exactly_eq_some.mpr (read_of_readWithin (exactly_eq_some.mp h.exactly))

theorem writeItems_eq (items : List Value) : writeItems items = (items.map write).flatten := by
  induction items with
  | nil => rfl
  | cons item items ih => rw [writeItems, ih, List.map_cons, List.flatten_cons]

theorem writeEntries_eq (entries : List (Value × Value)) :
    writeEntries entries = (entries.map writeEntry).flatten := by
  induction entries with
  | nil => rfl
  | cons entry entries ih => rw [writeEntries, ih, List.map_cons, List.flatten_cons]

/-- Parts that are not empty are no more than their bytes. -/
theorem length_le_flatten {parts : List (List UInt8)} (h : ∀ part ∈ parts, part ≠ []) :
    parts.length ≤ parts.flatten.length := by
  induction parts with
  | nil => exact le_rfl
  | cons part parts ih =>
    obtain ⟨hpart, hparts⟩ := List.forall_mem_cons.mp h
    have hpos := List.length_pos_of_ne_nil hpart
    have hrest := ih hparts
    rw [List.flatten_cons, List.length_append, List.length_cons]
    omega

theorem ne_nil_of_exactly {part : List UInt8} {value : Value}
    (h : exactly read part = some value) : part ≠ [] := by
  rintro rfl
  cases h

/-- The entries of a map, each its key and then its value. -/
theorem reads_writeEntries {entries : List (Value × Value)} {depth : ℕ}
    (hdepth : (writeEntries entries).length ≤ depth)
    (hkeys : ∀ entry ∈ entries, exactly read (write entry.1) = some entry.1)
    (hvalues : ∀ entry ∈ entries, exactly read (write entry.2) = some entry.2) :
    Reads (((readWithin depth).andThen fun key =>
      (readWithin depth).map (key, ·)).times entries.length) (writeEntries entries) entries := by
  rw [writeEntries_eq] at hdepth ⊢
  have hentries : List.Forall₂ (Reads ((readWithin depth).andThen fun key =>
      (readWithin depth).map (key, ·))) (entries.map writeEntry) entries := by
    rw [List.forall₂_map_left_iff, List.forall₂_same]
    intro entry hmem
    have hwhole := (List.sublist_flatten_of_mem (List.mem_map_of_mem hmem)).length_le.trans hdepth
    rw [writeEntry, List.length_append] at hwhole
    have hkey : (write entry.1).length ≤ depth := by omega
    have hvalue : (write entry.2).length ≤ depth := by omega
    rw [writeEntry]
    exact (reads_of_exactly (hkeys entry hmem) hkey).andThen
      ((reads_of_exactly (hvalues entry hmem) hvalue).map (entry.1, ·))
  have htimes := reads_times hentries
  rwa [List.length_map] at htimes

theorem exactly_writeItems {items : List Value}
    (hitems : ∀ item ∈ items, exactly read (write item) = some item)
    (hsize : (writeItems items).length < 256 ^ 4) :
    exactly read (arrayHeader items.length ++ writeItems items) = some (.array items) := by
  rw [writeItems_eq] at hsize ⊢
  have hcount : (items.map write).length ≤ (items.map write).flatten.length := by
    refine length_le_flatten fun part hmem => ?_
    obtain ⟨item, hitem, rfl⟩ := List.mem_map.mp hmem
    exact ne_nil_of_exactly (hitems item hitem)
  have hparts : List.Forall₂ (fun part value => exactly read part = some value)
      (items.map write) items :=
    List.forall₂_map_left_iff.mpr (List.forall₂_same.mpr hitems)
  have harray := exactly_array hparts (hcount.trans_lt hsize)
  rwa [List.length_map] at harray

theorem exactly_writeEntries {entries : List (Value × Value)}
    (hkeys : ∀ entry ∈ entries, exactly read (write entry.1) = some entry.1)
    (hvalues : ∀ entry ∈ entries, exactly read (write entry.2) = some entry.2)
    (hsize : (writeEntries entries).length < 256 ^ 4) :
    exactly read (mapHeader entries.length ++ writeEntries entries) = some (.map entries) := by
  have hcount : (entries.map writeEntry).length ≤ (entries.map writeEntry).flatten.length := by
    refine length_le_flatten fun part hmem => ?_
    obtain ⟨entry, hentry, rfl⟩ := List.mem_map.mp hmem
    rw [writeEntry]
    exact List.append_ne_nil_of_left_ne_nil (ne_nil_of_exactly (hkeys entry hentry)) _
  rw [List.length_map, ← writeEntries_eq] at hcount
  have hentries := reads_writeEntries le_rfl hkeys hvalues
  exact exactly_of_reads (headed_map.reads (fun _ => rfl)
    ⟨(0xdf, 4), by decide, hcount.trans_lt hsize⟩ (hentries.map Value.map))

/-- What is inside an array is no longer than the array. -/
theorem length_write_le_items {items : List Value} {item : Value} (h : item ∈ items) :
    (write item).length ≤ (writeItems items).length := by
  rw [writeItems_eq]
  exact (List.sublist_flatten_of_mem (List.mem_map_of_mem h)).length_le

theorem length_write_le_entries {entries : List (Value × Value)} {entry : Value × Value}
    (h : entry ∈ entries) :
    (write entry.1).length + (write entry.2).length ≤ (writeEntries entries).length := by
  rw [writeEntries_eq, ← List.length_append, ← writeEntry]
  exact (List.sublist_flatten_of_mem (List.mem_map_of_mem h)).length_le

/-- **What is written is one value, the one that was written**, as long as every length in it fits
the widest header. -/
theorem exactly_write {value : Value} (h : value.Fits) :
    (write value).length < 256 ^ 4 → exactly read (write value) = some value := by
  induction h with
  | nil => exact fun _ => rfl
  | boolean value => cases value <;> exact fun _ => rfl
  | integer hlow hhigh => exact fun _ => exactly_of_reads (reads_writeInt hlow hhigh 0)
  | f32 bits =>
    intro _
    have hbits : Reads (natBe 4) (beBytes 4 bits.toNat) bits.toNat := reads_natBe bits.toNat_lt
    have hvalue := hbits.map fun v => Value.f32 (.ofNat v)
    rw [UInt32.ofNat_toNat] at hvalue
    have hreads : Reads (readWithin 1) (0xca :: beBytes 4 bits.toNat) (.f32 bits) :=
      reads_cons rfl hvalue
    exact exactly_of_reads hreads
  | f64 bits =>
    intro _
    have hbits : Reads (natBe 8) (beBytes 8 bits.toNat) bits.toNat := reads_natBe bits.toNat_lt
    have hvalue := hbits.map fun v => Value.f64 (.ofNat v)
    rw [UInt64.ofNat_toNat] at hvalue
    have hreads : Reads (readWithin 1) (0xcb :: beBytes 8 bits.toNat) (.f64 bits) :=
      reads_cons rfl hvalue
    exact exactly_of_reads hreads
  | string text =>
    intro hsize
    rw [write, List.length_append] at hsize
    have hlength : text.toUTF8.data.toList.length < 256 ^ 4 := by omega
    have hreads := reads_stringHeader hlength 0
    rw [stringOf_toUTF8] at hreads
    exact exactly_of_reads hreads
  | @malformed bytes hbroken =>
    intro hsize
    rw [write, List.length_append] at hsize
    have hlength : bytes.length < 256 ^ 4 := by omega
    have hreads := reads_stringHeader hlength 0
    rw [hbroken] at hreads
    exact exactly_of_reads hreads
  | binary bytes =>
    intro hsize
    rw [write, List.length_append] at hsize
    exact exactly_of_reads (reads_binaryHeader (by omega) 0)
  | ext tag bytes =>
    intro hsize
    rw [write, List.length_append, List.length_cons] at hsize
    exact exactly_of_reads (reads_extHeader (by omega) tag 0)
  | array _ ih =>
    intro hsize
    rw [write, List.length_append] at hsize
    refine exactly_writeItems (fun item hmem => ih item hmem ?_) (by omega)
    have hpart := length_write_le_items hmem
    omega
  | map _ _ ihkeys ihvalues =>
    intro hsize
    rw [write, List.length_append] at hsize
    refine exactly_writeEntries (fun entry hmem => ihkeys entry hmem ?_)
      (fun entry hmem => ihvalues entry hmem ?_) (by omega)
    · have hpart := length_write_le_entries hmem
      omega
    · have hpart := length_write_le_entries hmem
      omega

end MsgPack

end MoonCore
