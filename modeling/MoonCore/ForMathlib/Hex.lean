import Mathlib.Data.List.Basic
import Mathlib.Data.UInt

/-!
# Hexadecimal text

`Hex.encode` writes two digits a byte, in lower case; `Hex.decode` reads digits of either case.
`Hex.decode_eq_some_iff` says of what texts a byte string is read.
-/

namespace MoonCore

namespace Hex

/-- A digit, in lower case. -/
def digit (n : ℕ) : Char := Nat.digitChar n

/-- What a digit stands for, in either case. -/
def value (c : Char) : Option ℕ :=
  if '0' ≤ c ∧ c ≤ '9' then some (c.toNat - '0'.toNat)
  else if 'a' ≤ c ∧ c ≤ 'f' then some (c.toNat - 'a'.toNat + 10)
  else if 'A' ≤ c ∧ c ≤ 'F' then some (c.toNat - 'A'.toNat + 10)
  else none

/-- The two digits of each byte, the higher one first. -/
def encode (bytes : List UInt8) : List Char :=
  bytes.flatMap fun byte => [digit (byte.toNat / 16), digit (byte.toNat % 16)]

/-- The bytes of which these are the digits, in either case; an odd number of digits is refused. -/
def decode : List Char → Option (List UInt8)
  | [] => some []
  | [_] => none
  | a :: b :: rest => do
    let high ← value a
    let low ← value b
    let bytes ← decode rest
    return UInt8.ofNat (16 * high + low) :: bytes

theorem value_digit : ∀ n < 16, value (digit n) = some n := by decide

/-- Digits are ASCII characters. -/
theorem toNat_lt_of_value {c : Char} {n : ℕ} (h : value c = some n) :
    c.toNat < 128 ∧ n < 16 := by
  have hle : ∀ {a b : Char}, a ≤ b → a.toNat ≤ b.toNat := fun hab => hab
  rw [value] at h
  split_ifs at h with hten hlower hupper
  · have hlow := hle hten.1
    have hhigh := hle hten.2
    simp only [Char.reduceToNat] at hlow hhigh h
    cases h
    omega
  · have hlow := hle hlower.1
    have hhigh := hle hlower.2
    simp only [Char.reduceToNat] at hlow hhigh h
    cases h
    omega
  · have hlow := hle hupper.1
    have hhigh := hle hupper.2
    simp only [Char.reduceToNat] at hlow hhigh h
    cases h
    omega

/-- Of a character that is no ASCII character there is no other case. -/
theorem toLower_of_le {c : Char} (h : 128 ≤ c.toNat) : c.toLower = c := by
  refine dif_neg fun hupper => ?_
  have hz : c.toNat ≤ 'Z'.toNat := hupper.2
  simp only [Char.reduceToNat] at hz
  omega

/-- A digit stands for what it is in lower case. -/
theorem value_eq_some_iff {c : Char} {n : ℕ} : value c = some n ↔ n < 16 ∧ c.toLower = digit n := by
  have hascii : ∀ code < 128, ∀ n < 16, value (Char.ofNat code) = some n ↔
      (Char.ofNat code).toLower = digit n := by decide +kernel
  have hdigit : ∀ n < 16, (digit n).toNat < 128 := by decide
  by_cases hc : c.toNat < 128
  · have hself := hascii c.toNat hc
    rw [Char.ofNat_toNat] at hself
    constructor
    · intro h
      have hn := (toNat_lt_of_value h).2
      exact ⟨hn, (hself n hn).mp h⟩
    · rintro ⟨hn, h⟩
      exact (hself n hn).mpr h
  · constructor
    · intro h
      exact absurd (toNat_lt_of_value h).1 hc
    · rintro ⟨hn, h⟩
      rw [toLower_of_le (Nat.not_lt.mp hc)] at h
      exact absurd (h ▸ hdigit n hn) hc

/-- A byte is its two digits. -/
theorem ofNat_digits_iff {byte : UInt8} {high low : ℕ} (hhigh : high < 16) (hlow : low < 16) :
    UInt8.ofNat (16 * high + low) = byte ↔ high = byte.toNat / 16 ∧ low = byte.toNat % 16 := by
  rw [← UInt8.toNat_inj, UInt8.toNat_ofNat', Nat.mod_eq_of_lt (by omega)]
  omega

/-- **A byte string is read exactly off its digits, in either case.** -/
theorem decode_eq_some_iff {text : List Char} {bytes : List UInt8} :
    decode text = some bytes ↔ text.map Char.toLower = encode bytes := by
  induction text using decode.induct generalizing bytes with
  | case1 => cases bytes <;> simp [decode, encode]
  | case2 c => cases bytes <;> simp [decode, encode]
  | case3 a b rest ih =>
    cases bytes with
    | nil => simp [decode, encode, Option.bind_eq_some_iff]
    | cons byte bytes =>
      have hhead : (∃ high low, value a = some high ∧ value b = some low ∧
          UInt8.ofNat (16 * high + low) = byte) ↔
          a.toLower = digit (byte.toNat / 16) ∧ b.toLower = digit (byte.toNat % 16) := by
        have hlt := byte.toNat_lt
        constructor
        · rintro ⟨high, low, ha, hb, hbyte⟩
          obtain ⟨hhigh, ha⟩ := value_eq_some_iff.mp ha
          obtain ⟨hlow, hb⟩ := value_eq_some_iff.mp hb
          obtain ⟨rfl, rfl⟩ := (ofNat_digits_iff hhigh hlow).mp hbyte
          exact ⟨ha, hb⟩
        · rintro ⟨ha, hb⟩
          have hhigh : byte.toNat / 16 < 16 := by omega
          have hlow : byte.toNat % 16 < 16 := by omega
          exact ⟨_, _, value_eq_some_iff.mpr ⟨hhigh, ha⟩, value_eq_some_iff.mpr ⟨hlow, hb⟩,
            (ofNat_digits_iff hhigh hlow).mpr ⟨rfl, rfl⟩⟩
      calc decode (a :: b :: rest) = some (byte :: bytes)
          ↔ (∃ high low, value a = some high ∧ value b = some low ∧
              UInt8.ofNat (16 * high + low) = byte) ∧ decode rest = some bytes := by
            simp only [decode, Option.bind_eq_bind, Option.bind_eq_some_iff, Option.pure_def,
              Option.some.injEq, List.cons.injEq]
            constructor
            · rintro ⟨high, ha, low, hb, _, hrest, hbyte, rfl⟩
              exact ⟨⟨high, low, ha, hb, hbyte⟩, hrest⟩
            · rintro ⟨⟨high, low, ha, hb, hbyte⟩, hrest⟩
              exact ⟨high, ha, low, hb, bytes, hrest, hbyte, rfl⟩
        _ ↔ (a :: b :: rest).map Char.toLower = encode (byte :: bytes) := by
            rw [hhead, ih]
            simp [encode, and_assoc]

/-- What is written is digits. -/
theorem exists_digit_of_mem {bytes : List UInt8} {c : Char} (h : c ∈ encode bytes) :
    ∃ n < 16, c = digit n := by
  obtain ⟨byte, -, hc⟩ := List.mem_flatMap.mp h
  have hlt := byte.toNat_lt
  rcases List.mem_pair.mp hc with rfl | rfl
  · exact ⟨byte.toNat / 16, by omega, rfl⟩
  · exact ⟨byte.toNat % 16, by omega, rfl⟩

/-- There is nothing in it to put in lower case. -/
theorem map_toLower_encode (bytes : List UInt8) :
    (encode bytes).map Char.toLower = encode bytes := by
  have hdigit : ∀ n < 16, (digit n).toLower = digit n := by decide
  refine (List.map_congr_left fun c hc => ?_).trans (List.map_id _)
  obtain ⟨n, hn, rfl⟩ := exists_digit_of_mem hc
  exact hdigit n hn

/-- What is written is read back. -/
theorem decode_encode (bytes : List UInt8) : decode (encode bytes) = some bytes :=
  decode_eq_some_iff.mpr (map_toLower_encode bytes)

end Hex

end MoonCore
