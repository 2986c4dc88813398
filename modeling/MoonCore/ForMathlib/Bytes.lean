import Mathlib.Data.List.Basic
import Mathlib.Data.UInt

/-!
# Bytes

The list of a byte array, and the comparison of two byte strings that looks at every byte.
-/

namespace MoonCore

/-- What the loop of `ByteArray.toList` adds to what it has. -/
theorem byteArray_toList_loop (bytes : ByteArray) (i : ℕ) (seen : List UInt8) :
    ByteArray.toList.loop bytes i seen = seen.reverse ++ bytes.data.toList.drop i := by
  fun_induction ByteArray.toList.loop bytes i seen with
  | case1 i seen hlt ih =>
    have hi : i < bytes.data.toList.length := hlt
    have hget : bytes.get! i = bytes.data.toList[i] := getElem!_pos bytes.data i hlt
    rw [ih, List.drop_eq_getElem_cons hi, List.reverse_cons, List.append_assoc, hget]
    rfl
  | case2 i seen hge =>
    have hdone : bytes.data.toList.drop i = [] := List.drop_eq_nil_of_le (not_lt.mp hge)
    rw [hdone, List.append_nil]

theorem byteArray_toList (bytes : ByteArray) : bytes.toList = bytes.data.toList :=
  byteArray_toList_loop bytes 0 []

/-- Byte arrays of one list are equal. -/
theorem byteArray_toList_inj {a b : ByteArray} : a.toList = b.toList ↔ a = b := by
  rw [byteArray_toList, byteArray_toList, Array.toList_inj]
  exact ⟨ByteArray.ext, congrArg ByteArray.data⟩

/-- Strings with the same UTF-8 bytes are equal. -/
theorem toUTF8_toList_inj {s t : String} : s.toUTF8.toList = t.toUTF8.toList ↔ s = t := by
  rw [byteArray_toList_inj, String.toUTF8_eq_toByteArray, String.toUTF8_eq_toByteArray,
    String.toByteArray_inj]

/-- How many UTF-8 bytes a string has. -/
theorem length_toUTF8 (s : String) : s.toUTF8.toList.length = s.utf8ByteSize := by
  rw [byteArray_toList]
  rfl

/-- Differences accumulated over pairs of bytes stay zero exactly where each pair agrees. -/
theorem foldl_or_xor_eq_zero (pairs : List (UInt8 × UInt8)) (diff : UInt8) :
    pairs.foldl (fun diff bytes => diff ||| (bytes.1 ^^^ bytes.2)) diff = 0 ↔
      diff = 0 ∧ ∀ pair ∈ pairs, pair.1 = pair.2 := by
  induction pairs generalizing diff with
  | nil => simp
  | cons pair pairs ih =>
    rw [List.foldl_cons, ih, UInt8.or_eq_zero_iff, UInt8.xor_eq_zero_iff, List.forall_mem_cons,
      and_assoc]

/-- Lists of one length agree in each pair exactly if they are equal. -/
theorem forall_mem_zip_iff {α : Type*} {as bs : List α} (hlength : as.length = bs.length) :
    (∀ pair ∈ as.zip bs, pair.1 = pair.2) ↔ as = bs := by
  induction as generalizing bs with
  | nil =>
    rw [List.eq_nil_of_length_eq_zero hlength.symm]
    simp
  | cons a as ih =>
    obtain ⟨b, bs, rfl⟩ := List.exists_cons_of_length_eq_add_one hlength.symm
    rw [List.zip_cons_cons, List.forall_mem_cons, ih (Nat.succ.inj hlength), List.cons.injEq]

end MoonCore
