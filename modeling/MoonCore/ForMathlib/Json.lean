import Mathlib.Data.List.Basic
import Mathlib.Data.Int.Notation
import MoonCore.ForMathlib.Hex

/-!
# JSON values and their texts

`Json.write` is the compact text of a value, without spaces and with what has to be escaped in its
strings escaped. `Json.read` reads any text: spaces between the parts, every escape but surrogate
pairs, numbers with a fraction or an exponent. `Json.read_write` is the round trip.

`quoted` is the text of a string, and `length_escaped` tells the strings that are written as they
are; `readSequence` and `readList` read what stands between brackets.
-/

namespace MoonCore

/-- A JSON value. The keys of an object are kept as they come. -/
inductive Json where
  | null
  | bool (b : Bool)
  | int (n : ℤ)
  /-- A number that is no integer. -/
  | real
  | str (s : String)
  | arr (items : List Json)
  | obj (fields : List (String × Json))

namespace Json

/-- The value under a key of an object. -/
def get (key : String) : Json → Option Json
  | .obj fields => (fields.find? fun field => field.1 = key).map Prod.snd
  | _ => none

/-- The text of a string. -/
def asStr : Json → Option String
  | .str s => some s
  | _ => none

/-- The items of an array. -/
def asArr : Json → Option (List Json)
  | .arr items => some items
  | _ => none

/-! ### Strings -/

/-- A control character has to be written by its number. -/
def IsControl (c : Char) : Prop := c.toNat < 0x20

instance : DecidablePred IsControl := fun c => inferInstanceAs (Decidable (c.toNat < 0x20))

/-- A character of a string, as it is written. -/
def escape (c : Char) : List Char :=
  if c = '"' then ['\\', '"']
  else if c = '\\' then ['\\', '\\']
  else if c = '\n' then ['\\', 'n']
  else if c = '\r' then ['\\', 'r']
  else if c = '\t' then ['\\', 't']
  else if c.toNat = 0x08 then ['\\', 'b']
  else if c.toNat = 0x0c then ['\\', 'f']
  else if IsControl c then ['\\', 'u', '0', '0', Hex.digit (c.toNat / 16), Hex.digit (c.toNat % 16)]
  else [c]

/-- A string, as it is written. -/
def quoted (s : List Char) : List Char := '"' :: s.flatMap escape ++ ['"']

/-- The character of a number, if it is one of its own. -/
def charOf (n : ℕ) : Option Char :=
  if n.isValidChar then some (Char.ofNat n) else none

/-- What a character behind a backslash stands for. -/
def unescape (c : Char) : Option Char :=
  if c = '"' ∨ c = '\\' ∨ c = '/' then some c
  else if c = 'n' then some '\n'
  else if c = 'r' then some '\r'
  else if c = 't' then some '\t'
  else if c = 'b' then some (Char.ofNat 0x08)
  else if c = 'f' then some (Char.ofNat 0x0c)
  else none

/-- Where the reader of a string is. -/
inductive Place where
  | plain
  /-- Behind a backslash. -/
  | slash
  /-- Within the four digits of a number, with those left and the value so far. -/
  | digits (left value : ℕ)

/-- One more character in front. -/
def push (c : Char) (read : List Char × List Char) : List Char × List Char := (c :: read.1, read.2)

/-- The rest of a string, up to its last quote, and what follows. -/
def readString : Place → List Char → Option (List Char × List Char)
  | _, [] => none
  | .plain, c :: rest =>
    if c = '"' then some ([], rest)
    else if c = '\\' then readString .slash rest
    else if IsControl c then none
    else (readString .plain rest).map (push c)
  | .slash, c :: rest =>
    if c = 'u' then readString (.digits 3 0) rest
    else (unescape c).bind fun char => (readString .plain rest).map (push char)
  | .digits 0 value, c :: rest =>
    (Hex.value c).bind fun digit =>
      (charOf (16 * value + digit)).bind fun char => (readString .plain rest).map (push char)
  | .digits (left + 1) value, c :: rest =>
    (Hex.value c).bind fun digit => readString (.digits left (16 * value + digit)) rest

/-- A character is the one of its number. -/
theorem charOf_toNat (c : Char) : charOf c.toNat = some c := by
  have hvalid : c.toNat.isValidChar := c.valid
  rw [charOf, if_pos hvalid, Char.ofNat_toNat]

theorem readString_named {e c : Char} (hu : e ≠ 'u') (h : unescape e = some c)
    (rest : List Char) : readString .plain ('\\' :: e :: rest) =
      (readString .plain rest).map (push c) := by
  rw [readString, if_neg (by decide), if_pos rfl, readString, if_neg hu, h, Option.bind_some]

theorem readString_digit {c : Char} {digit : ℕ} (h : Hex.value c = some digit) (left value : ℕ)
    (rest : List Char) : readString (.digits (left + 1) value) (c :: rest) =
      readString (.digits left (16 * value + digit)) rest := by
  rw [readString, h, Option.bind_some]

/-- A control character is read off its number. -/
theorem readString_numbered {c : Char} (h : IsControl c) (rest : List Char) :
    readString .plain ('\\' :: 'u' :: '0' :: '0' :: Hex.digit (c.toNat / 16) ::
      Hex.digit (c.toNat % 16) :: rest) = (readString .plain rest).map (push c) := by
  have hzero : Hex.value '0' = some 0 := rfl
  have hhigh := Hex.value_digit (c.toNat / 16) (by rw [IsControl] at h; omega)
  have hlow := Hex.value_digit (c.toNat % 16) (Nat.mod_lt _ (by decide))
  have hvalue : 16 * (16 * (16 * (16 * 0 + 0) + 0) + c.toNat / 16) + c.toNat % 16 = c.toNat := by
    omega
  rw [readString, if_neg (by decide), if_pos rfl, readString, if_pos rfl, readString_digit hzero,
    readString_digit hzero, readString_digit hhigh, readString, hlow, Option.bind_some, hvalue,
    charOf_toNat, Option.bind_some]

/-- Behind its escape a character is read, and then the rest. -/
theorem readString_escape (c : Char) (rest : List Char) :
    readString .plain (escape c ++ rest) = (readString .plain rest).map (push c) := by
  rw [escape]
  split_ifs with hquote hslash hn hr ht hb hf hcontrol
  · subst hquote
    exact readString_named (by decide) rfl rest
  · subst hslash
    exact readString_named (by decide) rfl rest
  · subst hn
    exact readString_named (by decide) rfl rest
  · subst hr
    exact readString_named (by decide) rfl rest
  · subst ht
    exact readString_named (by decide) rfl rest
  · obtain rfl : c = Char.ofNat 0x08 := by rw [← hb, Char.ofNat_toNat]
    exact readString_named (by decide) rfl rest
  · obtain rfl : c = Char.ofNat 0x0c := by rw [← hf, Char.ofNat_toNat]
    exact readString_named (by decide) rfl rest
  · exact readString_numbered hcontrol rest
  · rw [List.singleton_append, readString, if_neg hquote, if_neg hslash, if_neg hcontrol]

/-- What is written of a string is read as it. -/
theorem readString_write (s rest : List Char) :
    readString .plain (s.flatMap escape ++ '"' :: rest) = some (s, rest) := by
  induction s with
  | nil => rfl
  | cons c s ih =>
    rw [List.flatMap_cons, List.append_assoc, readString_escape, ih]
    rfl

/-- A character written as it is. -/
def Plain (c : Char) : Prop := c ≠ '"' ∧ c ≠ '\\' ∧ ¬IsControl c

instance : DecidablePred Plain := fun c =>
  inferInstanceAs (Decidable (c ≠ '"' ∧ c ≠ '\\' ∧ ¬IsControl c))

theorem escape_of_plain {c : Char} (h : Plain c) : escape c = [c] := by
  obtain ⟨hquote, hslash, hcontrol⟩ := h
  have hne : ∀ d : Char, IsControl d → c ≠ d := by
    rintro d hd rfl
    exact hcontrol hd
  have hnat : ∀ n < 0x20, c.toNat ≠ n := fun n hn hc => hcontrol (by rw [IsControl, hc]; exact hn)
  rw [escape, if_neg hquote, if_neg hslash, if_neg (hne _ (by decide)), if_neg (hne _ (by decide)),
    if_neg (hne _ (by decide)), if_neg (hnat _ (by decide)), if_neg (hnat _ (by decide)),
    if_neg hcontrol]

/-- What is escaped is longer. -/
theorem one_lt_length_escape {c : Char} (h : ¬Plain c) : 1 < (escape c).length := by
  rw [escape]
  split_ifs with hquote hslash hn hr ht hb hf hcontrol
  · decide
  · decide
  · decide
  · decide
  · decide
  · decide
  · decide
  · exact Nat.lt_of_sub_eq_succ rfl
  · exact absurd ⟨hquote, hslash, hcontrol⟩ h

/-! ### Values -/

/-- What may stand between two tokens. -/
def IsSpace (c : Char) : Bool := c = ' ' || c = '\n' || c = '\r' || c = '\t'

/-- Without the spaces in front. -/
def skip (text : List Char) : List Char := text.dropWhile IsSpace

/-- What follows the digits, if there are any. -/
def digits (text : List Char) : Option (List Char) :=
  if text.takeWhile Char.isDigit = [] then none else some (text.dropWhile Char.isDigit)

/-- Whether there is a fraction, and what follows. -/
def readFraction : List Char → Option (Bool × List Char)
  | [] => some (false, [])
  | c :: rest => if c = '.' then (digits rest).map (true, ·) else some (false, c :: rest)

/-- Whether there is an exponent, and what follows. -/
def readExponent : List Char → Option (Bool × List Char)
  | [] => some (false, [])
  | c :: rest =>
    if c = 'e' ∨ c = 'E' then
      match rest with
      | [] => none
      | sign :: rest =>
        (digits (if sign = '+' ∨ sign = '-' then rest else sign :: rest)).map (true, ·)
    else some (false, c :: rest)

/-- A number without its sign. -/
def readUnsigned (negative : Bool) (text : List Char) : Option (Json × List Char) :=
  let whole := text.takeWhile Char.isDigit
  if whole = [] ∨ (whole.head? = some '0' ∧ whole ≠ ['0']) then none
  else do
    let (fraction, rest) ← readFraction (text.dropWhile Char.isDigit)
    let (exponent, rest) ← readExponent rest
    let n : ℤ := Nat.ofDigitChars 10 whole 0
    return (if fraction || exponent then .real else .int (if negative then -n else n), rest)

/-- A number with its sign, off the front. -/
def readNumber : List Char → Option (Json × List Char)
  | [] => none
  | c :: rest => if c = '-' then readUnsigned true rest else readUnsigned false (c :: rest)

section

variable {α : Type} (close : Char) (one : List Char → Option (α × List Char))

/-- One or more, with commas between them, up to the bracket. -/
def readSequence : ℕ → List Char → Option (List α × List Char)
  | 0, _ => none
  | n + 1, text => do
    let (a, rest) ← one text
    match skip rest with
    | [] => none
    | c :: rest =>
      if c = ',' then (readSequence n rest).map fun (more, rest) => (a :: more, rest)
      else if c = close then some ([a], rest)
      else none

/-- What stands between brackets, behind the first. -/
def readList (n : ℕ) (text : List Char) : Option (List α × List Char) :=
  match skip text with
  | [] => none
  | c :: rest => if c = close then some ([], rest) else readSequence close one n (c :: rest)

/-- A key and what it has. -/
def readField (text : List Char) : Option ((String × α) × List Char) :=
  match skip text with
  | [] => none
  | c :: rest =>
    if c = '"' then do
      let (key, rest) ← readString .plain rest
      match skip rest with
      | [] => none
      | c :: rest =>
        if c = ':' then (one rest).map fun (a, rest) => ((String.ofList key, a), rest) else none
    else none

end

/-- A word, and what follows. -/
def readWord (word : List Char) (value : Json) (text : List Char) : Option (Json × List Char) :=
  if word.isPrefixOf text then some (value, text.drop word.length) else none

/-- A value and what follows, for texts up to a length. -/
def readValue : ℕ → List Char → Option (Json × List Char)
  | 0, _ => none
  | n + 1, text =>
    match skip text with
    | [] => none
    | c :: rest =>
      if c = '"' then (readString .plain rest).map fun (s, rest) => (.str (String.ofList s), rest)
      else if c = '[' then
        (readList ']' (readValue n) n rest).map fun (items, rest) => (.arr items, rest)
      else if c = '\x7b' then
        (readList '\x7d' (readField (readValue n)) n rest).map fun (fields, rest) =>
          (.obj fields, rest)
      else if c = 'n' then readWord ['u', 'l', 'l'] .null rest
      else if c = 't' then readWord ['r', 'u', 'e'] (.bool true) rest
      else if c = 'f' then readWord ['a', 'l', 's', 'e'] (.bool false) rest
      else readNumber (c :: rest)

/-- What a text says, if it is the text of a value. -/
def read (text : List Char) : Option Json :=
  match readValue (text.length + 1) text with
  | some (value, rest) => if skip rest = [] then some value else none
  | none => none

/-- Texts with commas between them. -/
def commas (texts : List (List Char)) : List Char := [','].intercalate texts

/-- A whole number in decimal. -/
def writeInt (n : ℤ) : List Char :=
  if n < 0 then '-' :: Nat.toDigits 10 n.natAbs else Nat.toDigits 10 n.natAbs

mutual

/-- The compact text of a value; one of them, for a number that is no integer. -/
def write : Json → List Char
  | .null => ['n', 'u', 'l', 'l']
  | .bool true => ['t', 'r', 'u', 'e']
  | .bool false => ['f', 'a', 'l', 's', 'e']
  | .int n => writeInt n
  | .real => ['0', '.', '5']
  | .str s => quoted s.toList
  | .arr items => '[' :: commas (writeItems items) ++ [']']
  | .obj fields => '\x7b' :: commas (writeFields fields) ++ ['\x7d']

/-- Each item of an array, written. -/
def writeItems : List Json → List (List Char)
  | [] => []
  | item :: items => write item :: writeItems items

/-- Each field of an object, written, under its quoted key. -/
def writeFields : List (String × Json) → List (List Char)
  | [] => []
  | (key, value) :: fields => (quoted key.toList ++ ':' :: write value) :: writeFields fields

end

/-- What may follow a number: nothing that could be part of it. -/
def Ends (rest : List Char) : Prop :=
  ∀ c ∈ rest.head?, c.isDigit = false ∧ c ≠ '.' ∧ c ≠ 'e' ∧ c ≠ 'E'

theorem readFraction_of_ends {rest : List Char} (h : Ends rest) :
    readFraction rest = some (false, rest) := by
  cases rest with
  | nil => rfl
  | cons c rest => exact if_neg (h c rfl).2.1

theorem readExponent_of_ends {rest : List Char} (h : Ends rest) :
    readExponent rest = some (false, rest) := by
  cases rest with
  | nil => rfl
  | cons c rest => exact if_neg (not_or.mpr (h c rfl).2.2)

theorem takeWhile_digits {ds rest : List Char} (hds : ∀ c ∈ ds, c.isDigit) (h : Ends rest) :
    (ds ++ rest).takeWhile Char.isDigit = ds ∧ (ds ++ rest).dropWhile Char.isDigit = rest := by
  rw [List.takeWhile_append_of_pos hds, List.dropWhile_append_of_pos hds]
  cases rest with
  | nil => exact ⟨List.append_nil ds, rfl⟩
  | cons c rest =>
    have hc : ¬c.isDigit = true := by rw [(h c rfl).1]; decide
    rw [List.takeWhile_cons_of_neg hc, List.dropWhile_cons_of_neg hc]
    exact ⟨List.append_nil ds, rfl⟩

/-- The digits of a number do not start with a zero, except for zero. -/
theorem head?_toDigits {n : ℕ} (h : 0 < n) : (Nat.toDigits 10 n).head? ≠ some '0' := by
  induction n using Nat.strongRecOn with
  | ind n ih =>
    by_cases hsmall : n < 10
    · rw [Nat.toDigits_of_lt_base hsmall]
      have hdigit : ∀ n < 10, 0 < n → Nat.digitChar n ≠ '0' := by decide
      exact fun heq => hdigit n hsmall h (Option.some.inj heq)
    · have hlarge : 10 ≤ n := Nat.not_lt.mp hsmall
      rw [Nat.toDigits_of_base_le (by decide) hlarge,
        List.head?_append_of_ne_nil _ Nat.toDigits_ne_nil]
      exact ih (n / 10) (by omega) (by omega)

theorem readUnsigned_write (negative : Bool) (n : ℕ) {rest : List Char} (h : Ends rest) :
    readUnsigned negative (Nat.toDigits 10 n ++ rest) =
      some (.int (if negative then -n else n), rest) := by
  have hdigits : ∀ c ∈ Nat.toDigits 10 n, c.isDigit := fun c hc =>
    Nat.isDigit_of_mem_toDigits (by decide) (by decide) hc
  obtain ⟨htake, hdrop⟩ := takeWhile_digits hdigits h
  have hwhole : ¬(Nat.toDigits 10 n = [] ∨
      ((Nat.toDigits 10 n).head? = some '0' ∧ Nat.toDigits 10 n ≠ ['0'])) := by
    rintro (hnil | ⟨hhead, hne⟩)
    · exact Nat.toDigits_ne_nil hnil
    · rcases Nat.eq_zero_or_pos n with rfl | hpos
      · exact hne (Nat.toDigits_zero 10)
      · exact head?_toDigits hpos hhead
  rw [readUnsigned]
  dsimp only
  rw [htake, hdrop, if_neg hwhole, readFraction_of_ends h]
  dsimp only [Option.bind_eq_bind, Option.bind_some]
  rw [readExponent_of_ends h, Nat.ofDigitChars_ten_toDigits]
  rfl

theorem readNumber_write (n : ℤ) {rest : List Char} (h : Ends rest) :
    readNumber (writeInt n ++ rest) = some (.int n, rest) := by
  rw [writeInt]
  split_ifs with hneg
  · rw [List.cons_append, readNumber, if_pos rfl, readUnsigned_write true _ h, if_pos rfl]
    have habs : -(n.natAbs : ℤ) = n := by omega
    rw [habs]
  · have habs : (n.natAbs : ℤ) = n := by omega
    cases hdigits : Nat.toDigits 10 n.natAbs with
    | nil => exact absurd hdigits Nat.toDigits_ne_nil
    | cons c more =>
      have hc : c.isDigit := Nat.isDigit_of_mem_toDigits (by decide) (by decide)
        (hdigits ▸ List.mem_cons_self (a := c) (l := more))
      have hne : c ≠ '-' := by
        rintro rfl
        exact absurd hc (by decide)
      rw [List.cons_append, readNumber, if_neg hne, ← List.cons_append, ← hdigits,
        readUnsigned_write false _ h, habs]
      rfl

theorem commas_singleton (text : List Char) : commas [text] = text := List.intercalate_singleton

theorem commas_cons {text : List Char} {texts : List (List Char)} (h : texts ≠ []) :
    commas (text :: texts) = text ++ ',' :: commas texts := by
  cases texts with
  | nil => exact absurd rfl h
  | cons next more => rfl

theorem length_le_commas {text : List Char} {texts : List (List Char)} (h : text ∈ texts) :
    text.length ≤ (commas texts).length := by
  induction texts with
  | nil => cases h
  | cons head texts ih =>
    cases texts with
    | nil =>
      have hself : text = commas [head] :=
        (List.mem_singleton.mp h).trans (commas_singleton head).symm
      exact Nat.le_of_eq (congrArg List.length hself)
    | cons next more =>
      rw [commas_cons (List.cons_ne_nil next more), List.length_append, List.length_cons]
      rcases List.mem_cons.mp h with rfl | hmem
      · omega
      · have hmore := ih hmem
        omega

theorem length_texts_le_commas {texts : List (List Char)} (h : ∀ text ∈ texts, text ≠ []) :
    texts.length ≤ (commas texts).length := by
  induction texts with
  | nil => exact Nat.zero_le _
  | cons head texts ih =>
    obtain ⟨hhead, htexts⟩ := List.forall_mem_cons.mp h
    have hpos := List.length_pos_iff.mpr hhead
    cases texts with
    | nil =>
      rw [commas_singleton]
      exact hpos
    | cons next more =>
      have hmore := ih htexts
      rw [commas_cons (List.cons_ne_nil next more), List.length_append,
        List.length_cons (a := ','), List.length_cons]
      omega

/-- A text that starts like a value: neither with a space nor with what ends a list. -/
def Starts (text : List Char) : Prop :=
  ∃ c more, text = c :: more ∧ IsSpace c = false ∧ c ≠ ']' ∧ c ≠ '\x7d'

theorem Starts.ne_nil {text : List Char} (h : Starts text) : text ≠ [] := by
  obtain ⟨c, more, rfl, -⟩ := h
  exact List.cons_ne_nil c more

theorem Starts.skip {text : List Char} (h : Starts text) (rest : List Char) :
    Json.skip (text ++ rest) = text ++ rest := by
  obtain ⟨c, more, rfl, hspace, -⟩ := h
  exact List.dropWhile_cons_of_neg (by rw [hspace]; decide)

section

variable {α : Type} {close : Char} {one : List Char → Option (α × List Char)}
  {text : α → List Char}

/-- What is written between brackets is read off, one after the other. -/
theorem readSequence_write (hclose : close = ']' ∨ close = '\x7d') {items : List α} {n : ℕ}
    (hn : items.length ≤ n) (hitems : items ≠ [])
    (hone : ∀ a ∈ items, ∀ rest, Ends rest → one (text a ++ rest) = some (a, rest))
    (rest : List Char) :
    readSequence close one n (commas (items.map text) ++ close :: rest) = some (items, rest) := by
  have hskip : Json.skip (close :: rest) = close :: rest := by
    rcases hclose with rfl | rfl <;> rfl
  have hends : Ends (close :: rest) := by
    rintro c ⟨⟩
    rcases hclose with rfl | rfl <;> decide
  have hcomma : close ≠ ',' := by
    rcases hclose with rfl | rfl <;> decide
  induction items generalizing n with
  | nil => exact absurd rfl hitems
  | cons a items ih =>
    obtain ⟨ha, hmore⟩ := List.forall_mem_cons.mp hone
    obtain ⟨n, rfl⟩ := Nat.exists_eq_succ_of_ne_zero
      (Nat.ne_of_gt (Nat.lt_of_lt_of_le (Nat.succ_pos items.length) hn))
    cases items with
    | nil =>
      rw [List.map_singleton, commas_singleton, readSequence, ha _ hends]
      dsimp only [Option.bind_eq_bind, Option.bind_some]
      rw [hskip]
      dsimp only
      rw [if_neg hcomma, if_pos rfl]
    | cons next more =>
      have hrest := ih (n := n) (Nat.le_of_succ_le_succ hn) (List.cons_ne_nil next more) hmore
      have hcommaEnds : Ends (',' :: (commas ((next :: more).map text) ++ close :: rest)) := by
        rintro c ⟨⟩
        decide
      rw [List.map_cons, commas_cons (by simp), List.append_assoc, List.cons_append, readSequence,
        ha _ hcommaEnds]
      dsimp only [Option.bind_eq_bind, Option.bind_some]
      have hskipComma : Json.skip (',' :: (commas ((next :: more).map text) ++ close :: rest)) =
          ',' :: (commas ((next :: more).map text) ++ close :: rest) := rfl
      rw [hskipComma]
      dsimp only
      rw [if_pos rfl, hrest]
      rfl

theorem starts_commas {texts : List (List Char)} (hne : texts ≠ [])
    (h : ∀ text ∈ texts, Starts text) : Starts (commas texts) := by
  cases texts with
  | nil => exact absurd rfl hne
  | cons text more =>
    obtain ⟨c, rest, rfl, hc⟩ := h _ List.mem_cons_self
    cases more with
    | nil => exact ⟨c, rest, commas_singleton _, hc⟩
    | cons next more => exact ⟨c, _, commas_cons (List.cons_ne_nil next more), hc⟩

theorem readList_write (hclose : close = ']' ∨ close = '\x7d') {items : List α} {n : ℕ}
    (hn : items.length ≤ n) (hstarts : ∀ a ∈ items, Starts (text a))
    (hone : ∀ a ∈ items, ∀ rest, Ends rest → one (text a ++ rest) = some (a, rest))
    (rest : List Char) :
    readList close one n (commas (items.map text) ++ close :: rest) = some (items, rest) := by
  rcases List.eq_nil_or_concat' items with rfl | ⟨_, _, hitems⟩
  · have hskip : Json.skip (close :: rest) = close :: rest := by
      rcases hclose with rfl | rfl <;> rfl
    rw [List.map_nil, commas, List.intercalate_nil, List.nil_append, readList, hskip]
    exact if_pos rfl
  · have hne : items ≠ [] := by rw [hitems]; simp
    have hfirst : Starts (commas (items.map text)) :=
      starts_commas (by simpa using hne) (by simpa using hstarts)
    rw [readList, hfirst.skip]
    obtain ⟨c, more, htext, -, hbracket, hbrace⟩ := hfirst
    have hnot : c ≠ close := by rcases hclose with rfl | rfl <;> assumption
    have hread := readSequence_write hclose hn hne hone rest
    rw [htext, List.cons_append] at hread ⊢
    dsimp only
    rw [if_neg hnot, hread]

end

theorem writeItems_eq_map (items : List Json) : writeItems items = items.map write := by
  induction items with
  | nil => rfl
  | cons item items ih => rw [writeItems, ih, List.map_cons]

/-- A key and its value, as they are written. -/
def writeField (field : String × Json) : List Char :=
  quoted field.1.toList ++ ':' :: write field.2

theorem writeFields_eq_map (fields : List (String × Json)) :
    writeFields fields = fields.map writeField := by
  induction fields with
  | nil => rfl
  | cons field fields ih => rw [writeFields, ih, List.map_cons, writeField]

/-- An integer starts with its sign or with a digit. -/
theorem writeInt_eq_cons (n : ℤ) :
    ∃ c more, writeInt n = c :: more ∧ ∀ d : Char, d.isDigit = false → d ≠ '-' → c ≠ d := by
  rw [writeInt]
  split_ifs
  · exact ⟨'-', _, rfl, fun d _ hd => hd.symm⟩
  · cases hdigits : Nat.toDigits 10 n.natAbs with
    | nil => exact absurd hdigits Nat.toDigits_ne_nil
    | cons c more =>
      have hc : c.isDigit := Nat.isDigit_of_mem_toDigits (by decide) (by decide)
        (hdigits ▸ List.mem_cons_self (a := c) (l := more))
      refine ⟨c, more, rfl, ?_⟩
      rintro d hd - rfl
      rw [hd] at hc
      cases hc

theorem starts_writeInt (n : ℤ) : Starts (writeInt n) := by
  obtain ⟨c, more, htext, hne⟩ := writeInt_eq_cons n
  refine ⟨c, more, htext, ?_, hne _ (by decide) (by decide), hne _ (by decide) (by decide)⟩
  simp [IsSpace, hne ' ' (by decide) (by decide), hne '\n' (by decide) (by decide),
    hne '\r' (by decide) (by decide), hne '\t' (by decide) (by decide)]

theorem starts_write (value : Json) : Starts (write value) := by
  cases value with
  | bool b => cases b <;> exact ⟨_, _, rfl, by decide⟩
  | int n => exact starts_writeInt n
  | _ => exact ⟨_, _, rfl, by decide⟩

theorem starts_writeField (field : String × Json) : Starts (writeField field) :=
  ⟨'"', _, rfl, by decide⟩

theorem readField_write {one : List Char → Option (Json × List Char)} {field : String × Json}
    {rest : List Char} (h : one (write field.2 ++ rest) = some (field.2, rest)) :
    readField one (writeField field ++ rest) = some (field, rest) := by
  obtain ⟨key, value⟩ := field
  have htext : writeField (key, value) ++ rest =
      '"' :: (key.toList.flatMap escape ++ '"' :: (':' :: (write value ++ rest))) := by
    simp [writeField, quoted]
  have hquote : ∀ text, Json.skip ('"' :: text) = '"' :: text := fun _ => rfl
  have hcolon : ∀ text, Json.skip (':' :: text) = ':' :: text := fun _ => rfl
  rw [htext, readField, hquote]
  dsimp only
  rw [if_pos rfl, readString_write]
  dsimp only [Option.bind_eq_bind, Option.bind_some]
  rw [hcolon]
  dsimp only
  rw [if_pos rfl, h, Option.map_some, String.ofList_toList]

theorem readValue_writeInt (n : ℕ) (m : ℤ) {rest : List Char} (h : Ends rest) :
    readValue (n + 1) (writeInt m ++ rest) = some (.int m, rest) := by
  obtain ⟨c, more, htext, hne⟩ := writeInt_eq_cons m
  have hread := readNumber_write m h
  rw [readValue, (starts_writeInt m).skip]
  rw [htext, List.cons_append] at hread ⊢
  dsimp only
  rw [if_neg (hne _ (by decide) (by decide)), if_neg (hne _ (by decide) (by decide)),
    if_neg (hne _ (by decide) (by decide)), if_neg (hne _ (by decide) (by decide)),
    if_neg (hne _ (by decide) (by decide)), if_neg (hne _ (by decide) (by decide)), hread]

/-- The text of a number that is no integer is read as one. -/
theorem readNumber_real {rest : List Char} (h : Ends rest) :
    readNumber ('0' :: '.' :: '5' :: rest) = some (.real, rest) := by
  have hfive : ∀ c ∈ ['5'], c.isDigit := List.forall_mem_singleton.mpr rfl
  obtain ⟨-, hdrop⟩ := takeWhile_digits hfive h
  have hfraction : readFraction ('.' :: '5' :: rest) = some (true, rest) := by
    have hsome : ('5' :: rest).takeWhile Char.isDigit ≠ [] := List.cons_ne_nil _ _
    rw [readFraction, if_pos rfl, digits, if_neg hsome]
    exact congrArg (fun rest => some (true, rest)) hdrop
  have hwhole : ('0' :: '.' :: '5' :: rest).takeWhile Char.isDigit = ['0'] := rfl
  have hafter : ('0' :: '.' :: '5' :: rest).dropWhile Char.isDigit = '.' :: '5' :: rest := rfl
  rw [readNumber, if_neg (by decide), readUnsigned]
  dsimp only
  rw [hwhole, hafter, if_neg (by decide), hfraction]
  dsimp only [Option.bind_eq_bind, Option.bind_some]
  rw [readExponent_of_ends h]
  rfl

theorem readValue_str (n : ℕ) (s : String) (rest : List Char) :
    readValue (n + 1) (write (.str s) ++ rest) = some (.str s, rest) := by
  have htext : write (.str s) ++ rest = '"' :: (s.toList.flatMap escape ++ '"' :: rest) := by
    simp [write, quoted]
  have hquote : ∀ text, Json.skip ('"' :: text) = '"' :: text := fun _ => rfl
  rw [htext, readValue, hquote]
  dsimp only
  rw [if_pos rfl, readString_write, Option.map_some, String.ofList_toList]

theorem readValue_arr {n : ℕ} {items : List Json} (hn : items.length ≤ n)
    (hitems : ∀ value ∈ items, ∀ rest, Ends rest →
      readValue n (write value ++ rest) = some (value, rest)) (rest : List Char) :
    readValue (n + 1) (write (.arr items) ++ rest) = some (.arr items, rest) := by
  have htext : write (.arr items) ++ rest = '[' :: (commas (items.map write) ++ ']' :: rest) := by
    simp [write, writeItems_eq_map]
  have hbracket : ∀ text, Json.skip ('[' :: text) = '[' :: text := fun _ => rfl
  have hlist := readList_write (.inl rfl) hn (fun value _ => starts_write value) hitems rest
  rw [htext, readValue, hbracket]
  dsimp only
  rw [if_neg (by decide), if_pos rfl, hlist]
  rfl

theorem readValue_obj {n : ℕ} {fields : List (String × Json)} (hn : fields.length ≤ n)
    (hfields : ∀ field ∈ fields, ∀ rest, Ends rest →
      readValue n (write field.2 ++ rest) = some (field.2, rest)) (rest : List Char) :
    readValue (n + 1) (write (.obj fields) ++ rest) = some (.obj fields, rest) := by
  have htext : write (.obj fields) ++ rest =
      '\x7b' :: (commas (fields.map writeField) ++ '\x7d' :: rest) := by
    simp [write, writeFields_eq_map]
  have hbrace : ∀ text, Json.skip ('\x7b' :: text) = '\x7b' :: text := fun _ => rfl
  have hlist := readList_write (.inr rfl) hn (fun field _ => starts_writeField field)
    (fun field hfield rest hrest => readField_write (hfields field hfield rest hrest)) rest
  rw [htext, readValue, hbrace]
  dsimp only
  rw [if_neg (by decide), if_neg (by decide), if_pos rfl, hlist]
  rfl

/-- What stands between brackets is as long as each of it, and has as many parts at most. -/
theorem parts_le {α : Type} {text : α → List Char} (hstarts : ∀ a, Starts (text a))
    {items : List α} {n : ℕ} (hn : (commas (items.map text)).length + 2 < n + 1) :
    items.length ≤ n ∧ ∀ a ∈ items, (text a).length < n := by
  have hne : ∀ part ∈ items.map text, part ≠ [] :=
    List.forall_mem_map.mpr fun a _ => (hstarts a).ne_nil
  have hcount := length_texts_le_commas hne
  rw [List.length_map] at hcount
  refine ⟨by omega, fun a ha => ?_⟩
  have hle := length_le_commas (List.mem_map_of_mem (f := text) ha)
  omega

/-- What is written of a value is read as it, whatever follows. -/
theorem readValue_write {n : ℕ} {value : Json} {rest : List Char} (hn : (write value).length < n)
    (h : Ends rest) : readValue n (write value ++ rest) = some (value, rest) := by
  induction n generalizing value rest with
  | zero => exact absurd hn (Nat.not_lt_zero _)
  | succ n ih =>
    cases value with
    | null => rfl
    | bool b => cases b <;> rfl
    | real => exact readNumber_real h
    | int m => exact readValue_writeInt n m h
    | str s => exact readValue_str n s rest
    | arr items =>
      rw [write, writeItems_eq_map, List.length_append, List.length_cons, List.length_singleton]
        at hn
      obtain ⟨hcount, hlength⟩ := parts_le starts_write hn
      exact readValue_arr hcount (fun value hvalue _ hrest => ih (hlength value hvalue) hrest) rest
    | obj fields =>
      rw [write, writeFields_eq_map, List.length_append, List.length_cons, List.length_singleton]
        at hn
      obtain ⟨hcount, hlength⟩ := parts_le starts_writeField hn
      refine readValue_obj hcount (fun field hfield _ hrest => ih ?_ hrest) rest
      have hfieldLength := hlength field hfield
      rw [writeField, List.length_append, List.length_cons] at hfieldLength
      omega

/-- **A text that was written is read as what it was written of.** -/
theorem read_write (value : Json) : read (write value) = some value := by
  have hends : Ends [] := nofun
  have hread := readValue_write (Nat.lt_succ_self (write value).length) hends
  rw [List.append_nil] at hread
  rw [read, hread]
  rfl

/-! ### Strings written as they are -/

theorem flatMap_escape_of_plain {s : List Char} (h : ∀ c ∈ s, Plain c) : s.flatMap escape = s := by
  rw [List.flatMap_congr fun c hc => escape_of_plain (h c hc)]
  exact List.flatMap_singleton' s

theorem quoted_of_plain {s : List Char} (h : ∀ c ∈ s, Plain c) : quoted s = '"' :: s ++ ['"'] := by
  rw [quoted, flatMap_escape_of_plain h]

/-- A string is written at least as long as it is, and longer if something had to be escaped. -/
theorem length_escaped (s : List Char) : s.length ≤ (s.flatMap escape).length ∧
    ((s.flatMap escape).length ≤ s.length → ∀ c ∈ s, Plain c) := by
  induction s with
  | nil => exact ⟨Nat.le_refl _, fun _ => nofun⟩
  | cons c s ih =>
    obtain ⟨hle, hplain⟩ := ih
    rw [List.flatMap_cons, List.length_append, List.length_cons]
    by_cases hc : Plain c
    · rw [escape_of_plain hc, List.length_singleton]
      exact ⟨by omega, fun h => List.forall_mem_cons.mpr ⟨hc, hplain (by omega)⟩⟩
    · have hlong := one_lt_length_escape hc
      exact ⟨by omega, fun h => absurd h (by omega)⟩

end Json

end MoonCore
