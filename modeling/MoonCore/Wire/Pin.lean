import Mathlib.Data.List.DropRight
import MoonCore.ForMathlib.Hex
import MoonCore.ForMathlib.Reader

/-!
# Trusting the core's key

`wire::pin`. A pin is the SHA-256 of the public key of a certificate; the operator copies it as
hexadecimal text, and the terminal accepts the certificates of the pinned keys and no others.

X.509, SHA-256 and the package for hexadecimal text (`HexCrate`) are parameters. Of the last it is
assumed that it writes and reads digits as documented (`HexCrate.Documented`);
`PinnedVerifier.verified_iff` goes from the texts of a configuration to the certificates that are
accepted.
-/

namespace MoonCore

/-- White space, as Unicode has it. -/
def isWhiteSpace (c : Char) : Bool :=
  (9 ≤ c.toNat && c.toNat ≤ 13) || c.toNat = 0x20 || c.toNat = 0x85 || c.toNat = 0xa0 ||
    c.toNat = 0x1680 || (0x2000 ≤ c.toNat && c.toNat ≤ 0x200a) || c.toNat = 0x2028 ||
    c.toNat = 0x2029 || c.toNat = 0x202f || c.toNat = 0x205f || c.toNat = 0x3000

/-- `str::trim`. -/
def trim (text : List Char) : List Char := (text.dropWhile isWhiteSpace).rdropWhile isWhiteSpace

/-- The package for hexadecimal text. Errors are what they say. -/
structure HexCrate where
  /-- `hex::encode` -/
  encode : List UInt8 → List Char
  /-- `hex::decode` -/
  decode : List Char → Except String (List UInt8)

/-- What is documented of it: two digits a byte, written in lower case and read in either. -/
structure HexCrate.Documented (hex : HexCrate) : Prop where
  encode : ∀ bytes, hex.encode bytes = Hex.encode bytes
  decode : ∀ text bytes, hex.decode text = .ok bytes ↔ Hex.decode text = some bytes

/-- SHA-256 of a certificate's `SubjectPublicKeyInfo`. -/
@[ext]
structure SpkiPin where
  bytes : Vector UInt8 32
  deriving DecidableEq

/-- Why there is no pin. -/
inductive PinError where
  | notACertificate (reason : String)
  | badHex (reason : String)
  | wrongLength (length : ℕ)
  deriving DecidableEq

/-- What such an error says. -/
def PinError.text : PinError → String
  | .notACertificate reason => "not a parsable X.509 certificate: " ++ reason
  | .badHex reason => "pin is not valid hex: " ++ reason
  | .wrongLength length => "pin is " ++ toString length ++ " bytes, expected 32"

/-- The array of 32 bytes that a slice is. -/
def toArray32 (bytes : List UInt8) : Option (Vector UInt8 32) :=
  if h : bytes.length = 32 then some ⟨bytes.toArray, List.size_toArray.trans h⟩ else none

section

-- The raw `SubjectPublicKeyInfo` of a certificate, or what is wrong with it.
variable (x509 : List UInt8 → Except String (List UInt8))

variable (sha256 : List UInt8 → Vector UInt8 32)

variable (hex : HexCrate)

namespace SpkiPin

/-- The pin of a public key. -/
def ofSpki (spki : List UInt8) : SpkiPin := ⟨sha256 spki⟩

/-- The pin of a certificate. -/
def ofCertificate (der : List UInt8) : Except PinError SpkiPin :=
  match x509 der with
  | .error reason => .error (.notACertificate reason)
  | .ok spki => .ok (ofSpki sha256 spki)

/-- What an operator copies. -/
def toHex (pin : SpkiPin) : List Char := hex.encode pin.bytes.toList

/-- The pin an operator typed. -/
def fromHex (s : List Char) : Except PinError SpkiPin :=
  match hex.decode (trim s) with
  | .error reason => .error (.badHex reason)
  | .ok bytes =>
    match toArray32 bytes with
    | none => .error (.wrongLength bytes.length)
    | some array => .ok ⟨array⟩

/-- The text of a pin in a configuration. -/
def serialize (pin : SpkiPin) : List Char := hex.encode pin.bytes.toList

/-- A pin of a configuration; its faults are told apart by their texts only. -/
def deserialize (text : List Char) : Except String SpkiPin :=
  match hex.decode (trim text) with
  | .error reason => .error reason
  | .ok bytes =>
    match toArray32 bytes with
    | none => .error ("pin is " ++ toString bytes.length ++ " bytes, expected 32")
    | some array => .ok ⟨array⟩

end SpkiPin

/-- Accepts exactly the pinned keys. -/
structure PinnedVerifier where
  accepted : List SpkiPin

namespace PinnedVerifier

/-- Whether a pin is one of the configured ones. -/
def accepts (verifier : PinnedVerifier) (pin : SpkiPin) : Bool := verifier.accepted.contains pin

/-- Whether a certificate is accepted, or the text of the TLS error. Neither the name of the server
nor the time is looked at. -/
def verifyServerCert (verifier : PinnedVerifier) (der : List UInt8) : Except String Unit :=
  match SpkiPin.ofCertificate x509 sha256 der with
  | .error e => .error ("cannot pin this certificate: " ++ e.text)
  | .ok pin =>
    if verifier.accepts pin then .ok ()
    else .error ("certificate key " ++ String.ofList (pin.toHex hex) ++
      " is not pinned; expected one of [" ++
      ", ".intercalate (verifier.accepted.map fun p => String.ofList (p.toHex hex)) ++ "]")

end PinnedVerifier

/-! ### Pins and their texts -/

variable {x509 sha256 hex}

theorem toArray32_eq_some_iff {bytes : List UInt8} {array : Vector UInt8 32} :
    toArray32 bytes = some array ↔ bytes = array.toList := by
  rw [toArray32]
  constructor
  · intro h
    split_ifs at h with hlength
    cases h
    rfl
  · rintro rfl
    rw [dif_pos array.length_toList]
    rfl

/-- Nothing is lost of a text that holds no white space. -/
theorem trim_padded {before text after : List Char} (hbefore : ∀ c ∈ before, isWhiteSpace c)
    (htext : ∀ c ∈ text, isWhiteSpace c = false) (hafter : ∀ c ∈ after, isWhiteSpace c) :
    trim (before ++ text ++ after) = text := by
  have hkeep : ∀ l rest : List Char, l ≠ [] → (∀ c ∈ l, isWhiteSpace c = false) →
      (l ++ rest).dropWhile isWhiteSpace = l ++ rest := by
    intro l rest hne hl
    obtain ⟨c, l, rfl⟩ := List.exists_cons_of_ne_nil hne
    rw [List.cons_append, List.dropWhile_cons_of_neg]
    simp [hl c List.mem_cons_self]
  rw [trim, List.append_assoc, List.dropWhile_append_of_pos hbefore, List.rdropWhile]
  rcases eq_or_ne text [] with rfl | hne
  · rw [List.nil_append, List.dropWhile_eq_nil_iff.mpr hafter]
    rfl
  · rw [hkeep text after hne htext, List.reverse_append,
      List.dropWhile_append_of_pos fun c hc => hafter c (List.mem_reverse.mp hc)]
    have hrest := hkeep text.reverse [] (List.reverse_ne_nil_iff.mpr hne)
      fun c hc => htext c (List.mem_reverse.mp hc)
    rw [List.append_nil] at hrest
    rw [hrest, List.reverse_reverse]

namespace SpkiPin

/-- A text is read as the pin whose text it is, but for white space around it and case. -/
theorem fromHex_eq_ok_iff (hhex : hex.Documented) {text : List Char} {pin : SpkiPin} :
    fromHex hex text = .ok pin ↔ (trim text).map Char.toLower = pin.toHex hex := by
  rw [toHex, hhex.encode, ← Hex.decode_eq_some_iff, ← hhex.decode, fromHex]
  cases hex.decode (trim text) with
  | error reason => simp
  | ok bytes =>
    dsimp only
    rw [Except.ok.injEq, ← toArray32_eq_some_iff]
    cases toArray32 bytes with
    | none => simp
    | some array =>
      rw [Except.ok.injEq, Option.some.injEq]
      exact SpkiPin.ext_iff

theorem toHex_inj (hhex : hex.Documented) {pin pin' : SpkiPin} :
    pin.toHex hex = pin'.toHex hex ↔ pin = pin' := by
  constructor
  · intro h
    rw [toHex, toHex, hhex.encode, hhex.encode] at h
    have hread := Hex.decode_encode pin.bytes.toList
    rw [h, Hex.decode_encode, Option.some.injEq, Vector.toList_inj] at hread
    exact SpkiPin.ext hread.symm
  · rintro rfl
    rfl

/-- A configuration holds the same texts. -/
theorem deserialize_eq_ok_iff {text : List Char} {pin : SpkiPin} :
    deserialize hex text = .ok pin ↔ fromHex hex text = .ok pin := by
  rw [deserialize, fromHex]
  cases hex.decode (trim text) with
  | error reason => simp
  | ok bytes =>
    dsimp only
    cases toArray32 bytes <;> simp

/-- A pin that is copied survives white space around it. -/
theorem fromHex_padded (hhex : hex.Documented) (pin : SpkiPin) {before after : List Char}
    (hbefore : ∀ c ∈ before, isWhiteSpace c) (hafter : ∀ c ∈ after, isWhiteSpace c) :
    fromHex hex (before ++ pin.toHex hex ++ after) = .ok pin := by
  -- No digit is white space, so trimming stops at the text.
  have hdigit : ∀ n < 16, isWhiteSpace (Hex.digit n) = false := by decide
  have htoHex : pin.toHex hex = Hex.encode pin.bytes.toList := hhex.encode _
  have htext : ∀ c ∈ pin.toHex hex, isWhiteSpace c = false := by
    intro c hc
    rw [htoHex] at hc
    obtain ⟨n, hn, rfl⟩ := Hex.exists_digit_of_mem hc
    exact hdigit n hn
  rw [fromHex_eq_ok_iff hhex, trim_padded hbefore htext hafter, htoHex]
  exact Hex.map_toLower_encode _

end SpkiPin

/-! ### The certificates that are accepted -/

namespace PinnedVerifier

theorem verifyServerCert_eq_ok_iff {verifier : PinnedVerifier} {der : List UInt8} :
    verifier.verifyServerCert x509 sha256 hex der = .ok () ↔
      ∃ spki, x509 der = .ok spki ∧ SpkiPin.ofSpki sha256 spki ∈ verifier.accepted := by
  rw [verifyServerCert, SpkiPin.ofCertificate]
  cases x509 der with
  | error reason => simp
  | ok spki =>
    have haccepts : verifier.accepts (SpkiPin.ofSpki sha256 spki) = true ↔
        SpkiPin.ofSpki sha256 spki ∈ verifier.accepted := List.contains_iff_mem
    simp only [Except.ok.injEq, exists_eq_left']
    rw [← haccepts]
    split_ifs with h <;> simp [h]

/-- **Exactly the keys whose pins are configured are accepted.** Whatever the texts of the
configuration are, once all of them are read as pins a certificate is accepted if and only if
it is one, and one of the texts is the SHA-256 of its public key: in digits of either case, with
white space around them or without. -/
theorem verified_iff (hhex : hex.Documented) {texts : List (List Char)} {pins : List SpkiPin}
    (hread : List.Forall₂ (fun text pin => SpkiPin.deserialize hex text = .ok pin) texts pins)
    (der : List UInt8) :
    (PinnedVerifier.mk pins).verifyServerCert x509 sha256 hex der = .ok () ↔
      ∃ spki, x509 der = .ok spki ∧
        ∃ text ∈ texts, (trim text).map Char.toLower = Hex.encode (sha256 spki).toList := by
  -- A pin is configured exactly if one of the texts is its text, but for case and white space.
  have hpins : ∀ pin, pin ∈ pins ↔
      ∃ text ∈ texts, (trim text).map Char.toLower = pin.toHex hex := by
    intro pin
    induction hread with
    | nil => simp
    | cons htext _ ih =>
      rw [SpkiPin.deserialize_eq_ok_iff, SpkiPin.fromHex_eq_ok_iff hhex] at htext
      rw [List.mem_cons, ih, List.exists_mem_cons_iff, htext, SpkiPin.toHex_inj hhex, eq_comm]
  rw [verifyServerCert_eq_ok_iff]
  refine exists_congr fun spki => and_congr_right fun _ => (hpins _).trans ?_
  rw [SpkiPin.toHex, hhex.encode]
  rfl

/-- A package for hexadecimal text. -/
def plainHex : HexCrate where
  encode := Hex.encode
  decode text :=
    match Hex.decode text with
    | some bytes => .ok bytes
    | none => .error "Invalid string"

theorem documented_plainHex : plainHex.Documented where
  encode _ := rfl
  decode text bytes := by
    rw [plainHex]
    dsimp only
    cases Hex.decode text <;> simp

/-- A certificate a core signed itself, of the name `core` and an Ed25519 key. -/
def certificate (serial key r s : ℕ) : List UInt8 :=
  beBytes 8 0x3081d830818b0214 ++ beBytes 20 serial ++ beBytes 7 0x300506032b6570 ++
    beBytes 17 0x300f310d300b06035504030c04636f7265 ++
    beBytes 32 0x301e170d3236313131393138303732335a170d3336313131363138303732335a ++
    beBytes 17 0x300f310d300b06035504030c04636f7265 ++
    beBytes 12 0x302a300506032b6570032100 ++ beBytes 32 key ++
    beBytes 10 0x300506032b6570034100 ++ beBytes 32 r ++ beBytes 32 s

/-- The certificate of the core that is set up. -/
def pinnedCertificate : List UInt8 :=
  certificate 0x3f8ef56beb91c7a6a1a604a754293c3aee19e631
    0xaf41b069d53199e43afb0987135d9ab4948d7422b3398cac787e9dd5f2088d63
    0xafd6f7b339eea998c444557940139699785260fb375305439cef69a994e4d37d
    0x554d7a488db65c11224bf0e3afcbea57652d449d0ddd9af983555e0c5b825d03

/-- The certificate of another core of the same name. -/
def otherCertificate : List UInt8 :=
  certificate 0x5af3f204b7fdbbc43e5ad5eec94060a754f2b9da
    0x9d1d648a76909b6c3648ef074d059bac1c2a735cef5ba1b27367a3f96efb9572
    0x6ab201cdc4683ac6b34a1b52f687da09e618444d851a28f665e01105467fc8d9
    0x8f87ecd32500863dc4f32310cd75223ff3673be84e22c7763fc6379686ba6400

/-- The public key of a certificate of this form. -/
def publicKey (der : List UInt8) : List UInt8 := (der.drop 101).take 44

/-- The parser of certificates, at these. -/
def spkiOf (der : List UInt8) : Except String (List UInt8) :=
  if der.length = 219 then .ok (publicKey der) else .error "Parsing Error: Incomplete"

/-- The SHA-256 of the two public keys. -/
def digestOf (spki : List UInt8) : Vector UInt8 32 :=
  let digest :=
    if spki = publicKey pinnedCertificate then
      0x1669a0d8e33dcdd823f9f71f78d1c790f23dc9fb4325756ce046859633b462c2
    else 0x8a247ddbaea883b5320bbfe3b152c62bfbe6a126e4daf88d06bd12cf281bd99d
  (toArray32 (beBytes 32 digest)).getD (Vector.replicate 32 0)

/-- The pin of the first. -/
def pinned : SpkiPin := ⟨digestOf (publicKey pinnedCertificate)⟩

/-- Its text, in upper case and with white space around it. -/
def pinnedText : List Char := ' ' :: (pinned.toHex plainHex).map Char.toUpper ++ ['\n']

/-- Where that text is configured, that core is accepted, and the other one is not. -/
theorem verified_iff_pinned :
    SpkiPin.deserialize plainHex pinnedText = .ok pinned ∧
      (PinnedVerifier.mk [pinned]).verifyServerCert spkiOf digestOf plainHex pinnedCertificate =
        .ok () ∧
      (PinnedVerifier.mk [pinned]).verifyServerCert spkiOf digestOf plainHex otherCertificate ≠
        .ok () := by
  have htext : SpkiPin.deserialize plainHex pinnedText = .ok pinned := by decide +kernel
  have hiff := @verified_iff spkiOf digestOf plainHex documented_plainHex [pinnedText] [pinned]
    (.cons htext .nil)
  refine ⟨htext, ?_, fun h => ?_⟩
  · have hspki : spkiOf pinnedCertificate = .ok (publicKey pinnedCertificate) := by
      decide +kernel
    have hsame : (trim pinnedText).map Char.toLower =
        Hex.encode (digestOf (publicKey pinnedCertificate)).toList := by decide +kernel
    exact (hiff pinnedCertificate).mpr ⟨_, hspki, _, List.mem_singleton_self _, hsame⟩
  · have hspki : spkiOf otherCertificate = .ok (publicKey otherCertificate) := by
      decide +kernel
    have hnot : (trim pinnedText).map Char.toLower ≠
        Hex.encode (digestOf (publicKey otherCertificate)).toList := by decide +kernel
    obtain ⟨spki, hread, text, hmem, hsame⟩ := (hiff otherCertificate).mp h
    rw [hspki, Except.ok.injEq] at hread
    rw [List.mem_singleton.mp hmem, ← hread] at hsame
    exact hnot hsame

end PinnedVerifier

end

end MoonCore
