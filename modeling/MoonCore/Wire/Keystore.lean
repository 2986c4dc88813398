import Mathlib.Data.List.Basic
import Mathlib.Data.List.TakeDrop
import Mathlib.Data.Nat.Notation
import Mathlib.Data.UInt

/-!
# The only copy of a key

The encrypted file of `wire::keystore`. `store` seals the key, opens the file for truncation and
writes over what was there. `Fault` says where it stops, by an error of the system or because the
process dies; what the file holds then is part of the result. `EncryptedFile.store_atomic_iff` says
which of these places leave a key to load: every one but those after the file has been emptied and
before its last byte is back.

Key derivation and encryption are a library's: `Aead`, with what is relied on in `Aead.Lawful`.
-/

namespace MoonCore

/-- Encryption with a key derived from a passphrase and a salt. The salt is authenticated with the
sealed bytes. -/
structure Aead where
  sealBytes : (passphrase : String) → (salt nonce plain : List UInt8) → List UInt8
  openBytes : (passphrase : String) → (salt nonce sealed_ : List UInt8) → Option (List UInt8)

/-- Exactly what was sealed under the same passphrase opens, and a tag of 16 bytes is appended. -/
structure Aead.Lawful (aead : Aead) : Prop where
  open_eq_some_iff : ∀ passphrase salt nonce sealed_ plain,
    aead.openBytes passphrase salt nonce sealed_ = some plain ↔
      sealed_ = aead.sealBytes passphrase salt nonce plain
  length_seal : ∀ passphrase salt nonce plain,
    (aead.sealBytes passphrase salt nonce plain).length = plain.length + 16

/-- The secret half of a device's key. -/
structure DeviceKey where
  secret : Vector UInt8 32
  deriving DecidableEq

/-- Why a key is not stored or not read. -/
inductive KeystoreError where
  /-- "no key stored" -/
  | notFound
  /-- "wrong passphrase, or the file has been tampered with" -/
  | cannotDecrypt
  /-- "not a moon-own key file" -/
  | wrongFormat
  /-- "key file is {0} bytes, expected 84" -/
  | wrongLength (bytes : ℕ)
  /-- "passphrase is empty" -/
  | emptyPassphrase
  | io (message : String)
  deriving DecidableEq

/-- `b"MOONKEY1"` -/
def MAGIC : List UInt8 := [77, 79, 79, 78, 75, 69, 89, 49]

/-- Bytes of salt in a key file. -/
def saltLen : ℕ := 16

/-- Bytes of the nonce in a key file. -/
def nonceLen : ℕ := 12

/-- Ed25519 secret plus the AEAD tag. -/
def sealedLen : ℕ := 32 + 16

/-- What a key file has to have. -/
def keyFileLen : ℕ := MAGIC.length + saltLen + nonceLen + sealedLen

/-- A passphrase-encrypted file. -/
structure EncryptedFile where
  passphrase : String
  passphrase_ne : passphrase ≠ ""

/-- `EncryptedFile::new` -/
def EncryptedFile.new (passphrase : String) : Except KeystoreError EncryptedFile :=
  if h : passphrase = "" then .error .emptyPassphrase else .ok ⟨passphrase, h⟩

/-! ### Where a store can stop -/

/-- What `store` is doing when it stops. -/
inductive StorePoint where
  /-- Filling the salt or the nonce. -/
  | randomness
  | sealing
  /-- `create_dir_all` of the parent. -/
  | createDir
  | opening
  /-- So many bytes have reached the file. -/
  | writing (written : ℕ)
  | syncing

/-- Where a store stops: the system reports an error, or the process dies. -/
structure Fault where
  point : StorePoint
  message : Option String

/-- What the caller is told; a dead process tells nothing. -/
abbrev StoreAnswer := Option (Except KeystoreError Unit)

/-- What `store` says, if the fault ends it. -/
def Fault.answer (fault : Fault) : StoreAnswer := fault.message.map fun e => .error (.io e)

namespace EncryptedFile

variable (aead : Aead) (keystore : EncryptedFile)

/-- The bytes of a key file. -/
def fileBytes (key : DeviceKey) (salt : Vector UInt8 16) (nonce : Vector UInt8 12) : List UInt8 :=
  MAGIC ++ salt.toList ++ nonce.toList ++
    aead.sealBytes keystore.passphrase salt.toList nonce.toList key.secret.toList

/-- `write_private`: the file is created, or emptied, by the call that opens it. -/
def writePrivate (bytes : List UInt8) (fault : Option Fault) (file : Option (List UInt8)) :
    StoreAnswer × Option (List UInt8) :=
  match fault with
  | some ⟨.opening, message⟩ => (Fault.answer ⟨.opening, message⟩, file)
  | some ⟨.writing written, message⟩ =>
    (Fault.answer ⟨.writing written, message⟩, some (bytes.take written))
  | some ⟨.syncing, message⟩ => (Fault.answer ⟨.syncing, message⟩, some bytes)
  | _ => (some (.ok ()), some bytes)

/-- `store`, with the salt and the nonce it draws. -/
def store (key : DeviceKey) (salt : Vector UInt8 16) (nonce : Vector UInt8 12)
    (fault : Option Fault) (file : Option (List UInt8)) : StoreAnswer × Option (List UInt8) :=
  match fault with
  | some ⟨.randomness, message⟩ =>
    (message.map fun _ => .error (.io "no system randomness"), file)
  | some ⟨.sealing, message⟩ => (message.map fun _ => .error (.io "sealing failed"), file)
  | some ⟨.createDir, message⟩ => (Fault.answer ⟨.createDir, message⟩, file)
  | _ => writePrivate (keystore.fileBytes aead key salt nonce) fault file

/-- `load`, of what is at the path; the file can be read if it is there. -/
def load (file : Option (List UInt8)) : Except KeystoreError DeviceKey :=
  match file with
  | none => .error .notFound
  | some bytes =>
    if ¬ MAGIC <+: bytes then .error .wrongFormat
    else if bytes.length ≠ keyFileLen then .error (.wrongLength bytes.length)
    else
      let salt := (bytes.drop MAGIC.length).take saltLen
      let nonceStart := MAGIC.length + saltLen
      let nonce := (bytes.drop nonceStart).take nonceLen
      match aead.openBytes keystore.passphrase salt nonce (bytes.drop (nonceStart + nonceLen)) with
      | none => .error .cannotDecrypt
      | some opened =>
        if h : opened.length = 32 then .ok ⟨⟨opened.toArray, h⟩⟩ else .error .cannotDecrypt

variable {aead : Aead} {keystore : EncryptedFile}

/-! ### What is loaded -/

variable (keystore) in
theorem length_fileBytes (haead : aead.Lawful) (key : DeviceKey) (salt : Vector UInt8 16)
    (nonce : Vector UInt8 12) : (keystore.fileBytes aead key salt nonce).length = keyFileLen := by
  simp only [fileBytes, List.length_append, haead.length_seal, Vector.length_toList]
  rfl

/-- A whole file holds the key that was sealed into it. -/
theorem load_fileBytes (haead : aead.Lawful) (key : DeviceKey) (salt : Vector UInt8 16)
    (nonce : Vector UInt8 12) :
    keystore.load aead (some (keystore.fileBytes aead key salt nonce)) = .ok key := by
  have hlength := length_fileBytes keystore haead key salt nonce
  have hmagic : MAGIC <+: keystore.fileBytes aead key salt nonce := by
    rw [fileBytes, List.append_assoc, List.append_assoc]
    exact List.prefix_append _ _
  have hsalt : ((keystore.fileBytes aead key salt nonce).drop MAGIC.length).take saltLen =
      salt.toList := by
    rw [fileBytes, List.append_assoc, List.append_assoc, List.drop_left]
    exact List.take_left' salt.length_toList
  have hnonce : ((keystore.fileBytes aead key salt nonce).drop (MAGIC.length + saltLen)).take
      nonceLen = nonce.toList := by
    have hsplit : (MAGIC ++ salt.toList).length = MAGIC.length + saltLen := by
      rw [List.length_append, salt.length_toList]
      rfl
    rw [fileBytes, List.append_assoc, ← hsplit, List.drop_left]
    exact List.take_left' nonce.length_toList
  have hsealed : (keystore.fileBytes aead key salt nonce).drop
      (MAGIC.length + saltLen + nonceLen) =
        aead.sealBytes keystore.passphrase salt.toList nonce.toList key.secret.toList := by
    have hsplit : (MAGIC ++ salt.toList ++ nonce.toList).length =
        MAGIC.length + saltLen + nonceLen := by
      rw [List.length_append, List.length_append, salt.length_toList, nonce.length_toList]
      rfl
    rw [fileBytes, ← hsplit, List.drop_left]
  have hopen := (haead.open_eq_some_iff keystore.passphrase salt.toList nonce.toList
    (aead.sealBytes keystore.passphrase salt.toList nonce.toList key.secret.toList)
    key.secret.toList).mpr rfl
  simp only [load, hmagic, hlength, hsalt, hnonce, hsealed, hopen, not_true_eq_false, ne_eq,
    if_false, Vector.length_toList, dif_pos]
  rfl

/-- A file of any other length holds no key. -/
theorem load_of_length_ne {bytes : List UInt8} (h : bytes.length ≠ keyFileLen) (key : DeviceKey) :
    keystore.load aead (some bytes) ≠ .ok key := by
  simp only [load, h, ne_eq, not_false_eq_true, if_true]
  split_ifs <;> exact nofun

/-! ### What a store leaves -/

/-- The file is emptied and not whole again. -/
def Torn (fault : Option Fault) : Prop :=
  ∃ written message, fault = some ⟨.writing written, message⟩ ∧ written < keyFileLen

theorem map_error_ne_ok (message : Option String) (e : String → KeystoreError) :
    (message.map fun text => (.error (e text) : Except KeystoreError Unit)) ≠ some (.ok ()) := by
  cases message <;> exact nofun

variable (aead keystore) in
/-- What is in the file when a store stops: all of the new file, or what was there, or as much of
the new file as has been written. Only in the first case can it have returned Ok. -/
theorem store_cases (key : DeviceKey) (salt : Vector UInt8 16) (nonce : Vector UInt8 12)
    (fault : Option Fault) (file : Option (List UInt8)) :
    ((keystore.store aead key salt nonce fault file).2 =
        some (keystore.fileBytes aead key salt nonce) ∧ ¬ Torn fault) ∨
      ((keystore.store aead key salt nonce fault file).1 ≠ some (.ok ()) ∧
        ((keystore.store aead key salt nonce fault file).2 = file ∧ ¬ Torn fault ∨
          ∃ written message, fault = some ⟨.writing written, message⟩ ∧
            (keystore.store aead key salt nonce fault file).2 =
              some ((keystore.fileBytes aead key salt nonce).take written))) := by
  have hnot {point : StorePoint} {message : Option String}
      (hpoint : ∀ written, point ≠ .writing written) : ¬ Torn (some ⟨point, message⟩) := by
    rintro ⟨written, other, hfault, -⟩
    exact hpoint written (congrArg Fault.point (Option.some.inj hfault))
  rcases fault with - | ⟨point, message⟩
  · exact .inl ⟨rfl, nofun⟩
  · cases point with
    | randomness => exact .inr ⟨map_error_ne_ok message _, .inl ⟨rfl, hnot nofun⟩⟩
    | sealing => exact .inr ⟨map_error_ne_ok message _, .inl ⟨rfl, hnot nofun⟩⟩
    | createDir => exact .inr ⟨map_error_ne_ok message _, .inl ⟨rfl, hnot nofun⟩⟩
    | opening => exact .inr ⟨map_error_ne_ok message _, .inl ⟨rfl, hnot nofun⟩⟩
    | writing written =>
      exact .inr ⟨map_error_ne_ok message _, .inr ⟨written, message, rfl, rfl⟩⟩
    | syncing => exact .inl ⟨rfl, hnot nofun⟩

/-- **Where storing a key is atomic.** For every key stored before and every new one, and wherever
the store stops: what is loaded next is the old key or the new one, and the new one if the store
returned Ok, if and only if it does not stop after the file was emptied and before its last byte
was written. -/
theorem store_atomic_iff (haead : aead.Lawful) (keystore : EncryptedFile) (old key : DeviceKey)
    (oldSalt salt : Vector UInt8 16) (oldNonce nonce : Vector UInt8 12) (fault : Option Fault) :
    let stored := keystore.store aead key salt nonce fault
      (some (keystore.fileBytes aead old oldSalt oldNonce))
    ((keystore.load aead stored.2 = .ok old ∨ keystore.load aead stored.2 = .ok key) ∧
        (stored.1 = some (.ok ()) → keystore.load aead stored.2 = .ok key)) ↔
      ¬ Torn fault := by
  intro stored
  have hlength := length_fileBytes keystore haead key salt nonce
  obtain ⟨hnew, hnot⟩ | ⟨hanswer, ⟨hold, hnot⟩ | ⟨written, message, rfl, htaken⟩⟩ :=
    store_cases aead keystore key salt nonce fault
      (some (keystore.fileBytes aead old oldSalt oldNonce))
  · have hload : keystore.load aead stored.2 = .ok key := by
      rw [hnew, load_fileBytes haead]
    exact iff_of_true ⟨.inr hload, fun _ => hload⟩ hnot
  · have hload : keystore.load aead stored.2 = .ok old := by
      rw [hold, load_fileBytes haead]
    exact iff_of_true ⟨.inl hload, fun hok => absurd hok hanswer⟩ hnot
  · rcases lt_or_ge written keyFileLen with htorn | hwhole
    · -- a file cut short is no key file
      have hshort : ((keystore.fileBytes aead key salt nonce).take written).length ≠
          keyFileLen := by
        rw [List.length_take, hlength]
        omega
      refine iff_of_false ?_ (not_not.mpr ⟨written, message, rfl, htorn⟩)
      rintro ⟨hload, -⟩
      rw [htaken] at hload
      exact hload.elim (load_of_length_ne hshort old) (load_of_length_ne hshort key)
    · have hload : keystore.load aead stored.2 = .ok key := by
        rw [htaken, List.take_of_length_le (by rw [hlength]; exact hwhole), load_fileBytes haead]
      refine iff_of_true ⟨.inr hload, fun _ => hload⟩ ?_
      rintro ⟨other, otherMessage, hfault, hlt⟩
      obtain rfl := StorePoint.writing.inj (congrArg Fault.point (Option.some.inj hfault))
      omega

/-- Encryption that hides nothing, with a tag of zeros. -/
def clearAead : Aead where
  sealBytes _ _ _ plain := plain ++ List.replicate 16 0
  openBytes _ _ _ sealed_ :=
    if sealed_ = sealed_.take (sealed_.length - 16) ++ List.replicate 16 0 then
      some (sealed_.take (sealed_.length - 16))
    else none

theorem clearAead_lawful : clearAead.Lawful where
  open_eq_some_iff passphrase salt nonce sealed_ plain := by
    change (if sealed_ = sealed_.take (sealed_.length - 16) ++ List.replicate 16 0 then
      some (sealed_.take (sealed_.length - 16)) else none) = some plain ↔
        sealed_ = plain ++ List.replicate 16 0
    constructor
    · intro h
      split_ifs at h with htag
      rwa [Option.some.inj h] at htag
    · rintro rfl
      have htake : (plain ++ List.replicate 16 0).take
          ((plain ++ List.replicate 16 (0 : UInt8)).length - 16) = plain := by
        rw [List.length_append, List.length_replicate, Nat.add_sub_cancel, List.take_left]
      rw [htake, if_pos rfl]
  length_seal passphrase salt nonce plain := by
    rw [clearAead, List.length_append, List.length_replicate]

/-- A keystore, the key in it and the one that is to replace it. -/
def demoFile : EncryptedFile := ⟨"correct horse", by decide⟩

/-- A key of the same byte throughout. -/
def demoKey (byte : UInt8) : DeviceKey := ⟨Vector.replicate 32 byte⟩

theorem store_atomic_iff_demo :
    let stored := demoFile.store clearAead (demoKey 2) (Vector.replicate 16 7)
      (Vector.replicate 12 8) none (some (demoFile.fileBytes clearAead (demoKey 1)
        (Vector.replicate 16 5) (Vector.replicate 12 6)))
    ((demoFile.load clearAead stored.2 = .ok (demoKey 1) ∨
          demoFile.load clearAead stored.2 = .ok (demoKey 2)) ∧
        (stored.1 = some (.ok ()) → demoFile.load clearAead stored.2 = .ok (demoKey 2))) ↔
      ¬ Torn none :=
  store_atomic_iff clearAead_lawful demoFile (demoKey 1) (demoKey 2) _ _ _ _ none

/-- The process dies when the file has been emptied: neither key is left. -/
theorem not_store_atomic_emptied :
    let stored := demoFile.store clearAead (demoKey 2) (Vector.replicate 16 7)
      (Vector.replicate 12 8) (some ⟨.writing 0, none⟩)
      (some (demoFile.fileBytes clearAead (demoKey 1) (Vector.replicate 16 5)
        (Vector.replicate 12 6)))
    stored.2 = some [] ∧ demoFile.load clearAead stored.2 = .error .wrongFormat :=
  ⟨rfl, rfl⟩

end EncryptedFile

end MoonCore
