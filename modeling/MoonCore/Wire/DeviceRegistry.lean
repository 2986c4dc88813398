import Mathlib.Data.Vector.Basic
import MoonCore.ForMathlib.AList
import MoonCore.ForMathlib.Reader
import MoonCore.Machine.Run
import MoonCore.Wire.Command
import MoonCore.Wire.Frame

/-!
# Which terminals may connect

`wire::auth`. The operator issues a code, a terminal redeems it with its public key, and from
then on proves possession of the private key; a lost terminal is revoked. Ed25519 and SHA-256
are parameters (`Ed25519`), and nothing is assumed about them: what is proved of a device is
proved of the key that a signature was checked against. Instants are nanoseconds.

`DeviceRegistry.History` says where in a run each pending code and each device comes from, and
`DeviceRegistry.authorized` what that makes of the registry's answers.
-/

namespace MoonCore

/-- Stable identity of one terminal installation. -/
abbrev DeviceId := Vector UInt8 16

/-- How long an enrolment code is good for, ten minutes. -/
def enrollCodeTtl : ℕ := 600 * 1000000000

/-- `"moon-own/device-auth/v1\0"` -/
def transcriptDomain : Bytes := "moon-own/device-auth/v1".toUTF8.toList ++ [0]

/-- Exactly what gets signed. -/
def transcript (serverNonce clientNonce : Vector UInt8 32) (device : DeviceId) (protocol : UInt16)
    (tlsExporter : Vector UInt8 32) : Bytes :=
  transcriptDomain ++ serverNonce.toList ++ clientNonce.toList ++ device.toList ++
    beBytes 2 protocol.toNat ++ tlsExporter.toList

/-- The signature scheme and the hash. `κ` are the keys. -/
structure Ed25519 (κ : Type*) where
  /-- `VerifyingKey::from_bytes`: not every 32 bytes are a point. -/
  fromBytes : Vector UInt8 32 → Option κ
  /-- `VerifyingKey::as_bytes` -/
  asBytes : κ → Vector UInt8 32
  sha256 : Bytes → Vector UInt8 32
  verify : κ → Bytes → Vector UInt8 64 → Bool

/-- Derived from the public key rather than assigned. -/
def DeviceId.ofKey {κ : Type*} (crypto : Ed25519 κ) (public_ : κ) : DeviceId :=
  let digest := crypto.sha256 (crypto.asBytes public_).toList
  .ofFn fun i => digest[i]

/-- One enrolled terminal. -/
structure Device (κ : Type*) where
  id : DeviceId
  public_ : κ
  label : String
  role : Role
  enrolledAtMs : ℤ
  revoked : Bool

/-- Why a device is not let in, or not enrolled. -/
inductive AuthError where
  /-- "device {0} is not enrolled" -/
  | unknownDevice (device : DeviceId)
  /-- "device {0} has been revoked" -/
  | revoked (device : DeviceId)
  /-- "signature does not verify" -/
  | badSignature
  /-- "signature is {0} bytes, expected 64" -/
  | malformedSignature (length : ℕ)
  /-- "enrolment code is not recognised" -/
  | unknownCode
  /-- "enrolment code has expired" -/
  | expiredCode
  /-- "public key is not a valid Ed25519 point" -/
  | badPublicKey
  /-- "device {0} is already enrolled" -/
  | alreadyEnrolled (device : DeviceId)
  deriving DecidableEq

/-- A code that was issued and that nobody has tried yet. -/
structure Pending where
  issuedAt : ℕ
  role : Role
  deriving DecidableEq

/-- What the core knows about the terminals allowed to connect. -/
structure DeviceRegistry (κ : Type*) where
  devices : AList fun _ : DeviceId => Device κ
  codes : AList fun _ : String => Pending

/-- What can be asked of a registry. -/
inductive RegistryCall where
  | issueCode (code : String) (role : Role) (now : ℕ)
  | enroll (code : String) (public_ : Vector UInt8 32) (label : String) (now : ℕ) (nowMs : ℤ)
  | verify (device : DeviceId) (transcript signature : Bytes)
  | revoke (device : DeviceId)
  | expireCodes (now : ℕ)
  deriving DecidableEq

/-- What it answers. -/
inductive RegistryReply (κ : Type*) where
  | issued
  | enrolled (outcome : Except AuthError (Device κ))
  | verified (outcome : Except AuthError (Device κ))
  | revoked (known : Bool)
  | expired (dropped : ℕ)

namespace DeviceRegistry

variable {κ : Type*}

/-- A registry that knows nobody. -/
def new : DeviceRegistry κ := ⟨∅, ∅⟩

/-- Issue a one-time enrolment code. -/
def issueCode (registry : DeviceRegistry κ) (code : String) (role : Role) (now : ℕ) :
    DeviceRegistry κ :=
  { registry with codes := registry.codes.insert code ⟨now, role⟩ }

/-- Redeem a code, enrolling the key that came with it. The code is consumed whether or not the
rest succeeds. -/
def enroll (crypto : Ed25519 κ) (registry : DeviceRegistry κ) (code : String)
    (public_ : Vector UInt8 32) (label : String) (now : ℕ) (nowMs : ℤ) :
    DeviceRegistry κ × Except AuthError (Device κ) :=
  match registry.codes.lookup code with
  | none => (registry, .error .unknownCode)
  | some pending =>
    let registry := { registry with codes := registry.codes.erase code }
    if enrollCodeTtl < now - pending.issuedAt then (registry, .error .expiredCode)
    else
      match crypto.fromBytes public_ with
      | none => (registry, .error .badPublicKey)
      | some public_ =>
        let id := DeviceId.ofKey crypto public_
        if (registry.devices.lookup id).isSome then (registry, .error (.alreadyEnrolled id))
        else
          let device : Device κ := ⟨id, public_, label, pending.role, nowMs, false⟩
          ({ registry with devices := registry.devices.insert id device }, .ok device)

/-- Verify a `Hello` signature against the enrolled key. -/
def verify (crypto : Ed25519 κ) (registry : DeviceRegistry κ) (device : DeviceId)
    (transcript signature : Bytes) : Except AuthError (Device κ) :=
  match registry.devices.lookup device with
  | none => .error (.unknownDevice device)
  | some entry =>
    if entry.revoked then .error (.revoked device)
    else if hlength : signature.length = 64 then
      if crypto.verify entry.public_ transcript ⟨signature.toArray, hlength⟩ then .ok entry
      else .error .badSignature
    else .error (.malformedSignature signature.length)

/-- Stop accepting a device. -/
def revoke (registry : DeviceRegistry κ) (device : DeviceId) : DeviceRegistry κ × Bool :=
  match registry.devices.lookup device with
  | some entry =>
    ({ registry with devices := registry.devices.insert device { entry with revoked := true } },
      true)
  | none => (registry, false)

/-- Drop codes nobody redeemed. -/
def expireCodes (registry : DeviceRegistry κ) (now : ℕ) : DeviceRegistry κ × ℕ :=
  let codes := registry.codes.retain fun _ pending => now - pending.issuedAt ≤ enrollCodeTtl
  ({ registry with codes := codes },
    registry.codes.entries.length - codes.entries.length)

/-- One call on the registry. -/
def step (crypto : Ed25519 κ) (registry : DeviceRegistry κ) :
    RegistryCall → DeviceRegistry κ × RegistryReply κ
  | .issueCode code role now => (registry.issueCode code role now, .issued)
  | .enroll code public_ label now nowMs =>
    let (registry, outcome) := registry.enroll crypto code public_ label now nowMs
    (registry, .enrolled outcome)
  | .verify device transcript signature =>
    (registry, .verified (registry.verify crypto device transcript signature))
  | .revoke device =>
    let (registry, known) := registry.revoke device
    (registry, .revoked known)
  | .expireCodes now =>
    let (registry, dropped) := registry.expireCodes now
    (registry, .expired dropped)

/-- A registry, stepping on the calls made to it. -/
def machine (crypto : Ed25519 κ) : Machine (DeviceRegistry κ) RegistryCall (RegistryReply κ) :=
  ⟨step crypto⟩

end DeviceRegistry

/-! ### What is signed -/

/-- Parts of fixed lengths are found again in what they are put together to. -/
theorem transcript_inj {serverNonce serverNonce' clientNonce clientNonce' : Vector UInt8 32}
    {device device' : DeviceId} {protocol protocol' : UInt16}
    {tlsExporter tlsExporter' : Vector UInt8 32}
    (h : transcript serverNonce clientNonce device protocol tlsExporter =
      transcript serverNonce' clientNonce' device' protocol' tlsExporter') :
    serverNonce = serverNonce' ∧ clientNonce = clientNonce' ∧ device = device' ∧
      protocol = protocol' ∧ tlsExporter = tlsExporter' := by
  have hlength {n : ℕ} (v w : Vector UInt8 n) : v.toList.length = w.toList.length := by
    rw [Vector.length_toList, Vector.length_toList]
  simp only [transcript, List.append_assoc] at h
  have h := List.append_cancel_left h
  obtain ⟨hserver, h⟩ := List.append_inj h (hlength _ _)
  obtain ⟨hclient, h⟩ := List.append_inj h (hlength _ _)
  obtain ⟨hdevice, h⟩ := List.append_inj h (hlength _ _)
  obtain ⟨hprotocol, hexporter⟩ := List.append_inj h (by rw [length_beBytes, length_beBytes])
  exact ⟨Vector.toList_inj.mp hserver, Vector.toList_inj.mp hclient, Vector.toList_inj.mp hdevice,
    UInt16.toNat_inj.mp (beBytes_inj protocol.toNat_lt protocol'.toNat_lt hprotocol),
    Vector.toList_inj.mp hexporter⟩

/-! ### Where codes and devices come from -/

/-- The call issues a code, or tries to redeem it. -/
def RegistryCall.Touches (code : String) : RegistryCall → Prop
  | .issueCode issued _ _ => issued = code
  | .enroll tried _ _ _ _ => tried = code
  | _ => False

/-- After these calls a code stands as it was issued at `issuedAt` for `role`: since then nobody
has issued it again or tried to redeem it. -/
def Pends (calls : List RegistryCall) (code : String) (role : Role) (issuedAt : ℕ) : Prop :=
  ∃ before after, calls = before ++ .issueCode code role issuedAt :: after ∧
    ∀ call ∈ after, ¬ call.Touches code

theorem Pends.concat {calls : List RegistryCall} {code : String} {role : Role} {issuedAt : ℕ}
    (h : Pends calls code role issuedAt) {call : RegistryCall} (hcall : ¬ call.Touches code) :
    Pends (calls ++ [call]) code role issuedAt := by
  obtain ⟨before, after, rfl, hafter⟩ := h
  refine ⟨before, after ++ [call], by rw [List.append_assoc, List.cons_append], ?_⟩
  exact List.forall_mem_append.mpr ⟨hafter, List.forall_mem_singleton.mpr hcall⟩

theorem pends_concat_issueCode (calls : List RegistryCall) (code : String) (role : Role)
    (now : ℕ) : Pends (calls ++ [.issueCode code role now]) code role now :=
  ⟨calls, [], rfl, by simp⟩

namespace DeviceRegistry

variable {κ : Type*} {crypto : Ed25519 κ}

/-- Redeeming this code, after these calls, enrolled this device. -/
structure Enrols (crypto : Ed25519 κ) (before : List RegistryCall) (code : String)
    (public_ : Vector UInt8 32) (label : String) (now : ℕ) (nowMs : ℤ) (device : Device κ) :
    Prop where
  answer : (machine crypto).out ((machine crypto).run new before)
    (.enroll code public_ label now nowMs) = .enrolled (.ok device)
  key : crypto.fromBytes public_ = some device.public_
  id_eq : device.id = DeviceId.ofKey crypto device.public_
  /-- The code had been issued for the device's role, nobody had tried it, and it was not too
  old. -/
  pends : ∃ issuedAt, Pends before code device.role issuedAt ∧ now ≤ issuedAt + enrollCodeTtl
  not_revoked : device.revoked = false

/-- The device was enrolled in the course of these calls, and carries what it was enrolled with:
only whether it was revoked has to be looked up. -/
def Came (crypto : Ed25519 κ) (calls : List RegistryCall) (device : Device κ) : Prop :=
  ∃ before code public_ label now nowMs after, ∃ enrolled : Device κ,
    calls = before ++ .enroll code public_ label now nowMs :: after ∧
      Enrols crypto before code public_ label now nowMs enrolled ∧
      device = { enrolled with revoked := decide (RegistryCall.revoke enrolled.id ∈ after) }

theorem Came.concat {calls : List RegistryCall} {device : Device κ}
    (h : Came crypto calls device) {call : RegistryCall} (hcall : call ≠ .revoke device.id) :
    Came crypto (calls ++ [call]) device := by
  obtain ⟨before, code, public_, label, now, nowMs, after, enrolled, rfl, henrols, rfl⟩ := h
  refine ⟨before, code, public_, label, now, nowMs, after ++ [call], enrolled,
    by rw [List.append_assoc, List.cons_append], henrols, ?_⟩
  have hsame : RegistryCall.revoke enrolled.id ∈ after ++ [call] ↔
      RegistryCall.revoke enrolled.id ∈ after := by
    rw [List.mem_append, List.mem_singleton]
    exact or_iff_left fun hrevoke => hcall hrevoke.symm
  rw [decide_eq_decide.mpr hsame]

theorem Came.concat_revoke {calls : List RegistryCall} {device : Device κ}
    (h : Came crypto calls device) :
    Came crypto (calls ++ [.revoke device.id]) { device with revoked := true } := by
  obtain ⟨before, code, public_, label, now, nowMs, after, enrolled, rfl, henrols, rfl⟩ := h
  refine ⟨before, code, public_, label, now, nowMs, after ++ [.revoke enrolled.id], enrolled,
    by rw [List.append_assoc, List.cons_append], henrols, ?_⟩
  have hrevoked : RegistryCall.revoke enrolled.id ∈ after ++ [.revoke enrolled.id] :=
    List.mem_append_right _ (List.mem_singleton_self _)
  rw [decide_eq_true hrevoked]

/-- Where the pending codes and the devices of a registry come from. -/
structure History (crypto : Ed25519 κ) (calls : List RegistryCall) (registry : DeviceRegistry κ) :
    Prop where
  codes : ∀ code pending, registry.codes.lookup code = some pending →
    Pends calls code pending.role pending.issuedAt
  devices : ∀ id device, registry.devices.lookup id = some device →
    device.id = id ∧ Came crypto calls device

/-! ### What redeeming a code can do -/

/-- It fails on a code that is not pending, it uses a pending code up and fails, or it uses it up
and enrols a device that was not known. -/
inductive Redeems (crypto : Ed25519 κ) (registry : DeviceRegistry κ) (code : String)
    (public_ : Vector UInt8 32) (label : String) (now : ℕ) (nowMs : ℤ) :
    DeviceRegistry κ × Except AuthError (Device κ) → Prop where
  | unknown (hcode : registry.codes.lookup code = none) :
    Redeems crypto registry code public_ label now nowMs (registry, .error .unknownCode)
  | refused (e : AuthError) :
    Redeems crypto registry code public_ label now nowMs
      ({ registry with codes := registry.codes.erase code }, .error e)
  | enrolled {pending : Pending} {key : κ} (hcode : registry.codes.lookup code = some pending)
      (hage : now - pending.issuedAt ≤ enrollCodeTtl) (hkey : crypto.fromBytes public_ = some key)
      (hnew : registry.devices.lookup (DeviceId.ofKey crypto key) = none) :
    Redeems crypto registry code public_ label now nowMs
      ({ codes := registry.codes.erase code
         devices := registry.devices.insert (DeviceId.ofKey crypto key)
           ⟨DeviceId.ofKey crypto key, key, label, pending.role, nowMs, false⟩ },
        .ok ⟨DeviceId.ofKey crypto key, key, label, pending.role, nowMs, false⟩)

theorem redeems_enroll (crypto : Ed25519 κ) (registry : DeviceRegistry κ) (code : String)
    (public_ : Vector UInt8 32) (label : String) (now : ℕ) (nowMs : ℤ) :
    Redeems crypto registry code public_ label now nowMs
      (registry.enroll crypto code public_ label now nowMs) := by
  rw [enroll]
  cases hcode : registry.codes.lookup code with
  | none => exact .unknown hcode
  | some pending =>
    dsimp only
    split_ifs with hage
    · exact .refused _
    · cases hkey : crypto.fromBytes public_ with
      | none => exact .refused _
      | some key =>
        dsimp only
        split_ifs with hknown
        · exact .refused _
        · exact .enrolled hcode (not_lt.mp hage) hkey (by simpa using hknown)

/-! ### Every run has a history -/

variable {calls : List RegistryCall} {registry : DeviceRegistry κ}

theorem history_new (crypto : Ed25519 κ) : History crypto [] (new : DeviceRegistry κ) where
  codes := fun code pending h => by cases h
  devices := fun id device h => by cases h

theorem History.issueCode (h : History crypto calls registry) (code : String) (role : Role)
    (now : ℕ) : History crypto (calls ++ [.issueCode code role now])
      (registry.issueCode code role now) where
  codes := by
    intro other pending hlookup
    rw [DeviceRegistry.issueCode] at hlookup
    by_cases hother : other = code
    · subst hother
      rw [AList.lookup_insert] at hlookup
      obtain rfl := Option.some.inj hlookup
      exact pends_concat_issueCode calls other role now
    · rw [AList.lookup_insert_ne hother] at hlookup
      exact (h.codes other pending hlookup).concat fun htouch => hother htouch.symm
  devices := by
    intro id device hlookup
    obtain ⟨hid, hcame⟩ := h.devices id device hlookup
    exact ⟨hid, hcame.concat nofun⟩

/-- A code that is still pending after another one was tried was pending before. -/
theorem History.codes_erase (h : History crypto calls registry) {code : String}
    (public_ : Vector UInt8 32) (label : String) (now : ℕ) (nowMs : ℤ) {other : String}
    {pending : Pending} (hlookup : (registry.codes.erase code).lookup other = some pending) :
    Pends (calls ++ [.enroll code public_ label now nowMs]) other pending.role
      pending.issuedAt := by
  by_cases hother : other = code
  · subst hother
    rw [AList.lookup_erase] at hlookup
    cases hlookup
  · rw [AList.lookup_erase_ne hother] at hlookup
    exact (h.codes other pending hlookup).concat fun htouch => hother htouch.symm

theorem History.enroll (h : History crypto calls ((machine crypto).run new calls)) (code : String)
    (public_ : Vector UInt8 32) (label : String) (now : ℕ) (nowMs : ℤ) :
    History crypto (calls ++ [.enroll code public_ label now nowMs])
      (((machine crypto).run new calls).enroll crypto code public_ label now nowMs).1 := by
  have hanswer : (machine crypto).out ((machine crypto).run new calls)
      (.enroll code public_ label now nowMs) = .enrolled
        (((machine crypto).run new calls).enroll crypto code public_ label now nowMs).2 := rfl
  have hredeems := redeems_enroll crypto ((machine crypto).run new calls) code public_ label now
    nowMs
  -- Redeeming a code revokes nobody.
  have hkept : ∀ id device, ((machine crypto).run new calls).devices.lookup id = some device →
      device.id = id ∧ Came crypto (calls ++ [.enroll code public_ label now nowMs]) device := by
    intro id device hlookup
    obtain ⟨hid, hcame⟩ := h.devices id device hlookup
    exact ⟨hid, hcame.concat nofun⟩
  generalize ((machine crypto).run new calls).enroll crypto code public_ label now nowMs =
    redeemed at hanswer hredeems
  cases hredeems with
  | unknown hcode =>
    refine ⟨fun other pending hlookup => ?_, hkept⟩
    -- the code that was tried is not pending, so every pending one is another
    have hother : other ≠ code := by
      rintro rfl
      rw [hcode] at hlookup
      cases hlookup
    exact (h.codes other pending hlookup).concat fun htouch => hother htouch.symm
  | refused e =>
    exact ⟨fun other pending hlookup => h.codes_erase public_ label now nowMs hlookup, hkept⟩
  | @enrolled pending key hcode hage hkey hnew =>
    refine ⟨fun other pending hlookup => h.codes_erase public_ label now nowMs hlookup, ?_⟩
    intro id device hlookup
    by_cases hid : id = DeviceId.ofKey crypto key
    · subst hid
      rw [AList.lookup_insert] at hlookup
      obtain rfl := Option.some.inj hlookup
      refine ⟨rfl, calls, code, public_, label, now, nowMs, [],
        ⟨DeviceId.ofKey crypto key, key, label, pending.role, nowMs, false⟩, rfl, ?_, rfl⟩
      exact
        { answer := hanswer
          key := hkey
          id_eq := rfl
          pends := ⟨pending.issuedAt, h.codes code pending hcode, by omega⟩
          not_revoked := rfl }
    · rw [AList.lookup_insert_ne hid] at hlookup
      exact hkept id device hlookup

theorem History.verify (h : History crypto calls registry) (device : DeviceId)
    (transcript signature : Bytes) :
    History crypto (calls ++ [.verify device transcript signature]) registry where
  codes := fun code pending hlookup => (h.codes code pending hlookup).concat id
  devices := fun id entry hlookup =>
    (h.devices id entry hlookup).imp_right fun hcame => hcame.concat nofun

theorem History.revoke (h : History crypto calls registry) (device : DeviceId) :
    History crypto (calls ++ [.revoke device]) (registry.revoke device).1 := by
  have hcodes : ∀ code pending, registry.codes.lookup code = some pending →
      Pends (calls ++ [.revoke device]) code pending.role pending.issuedAt :=
    fun code pending hlookup => (h.codes code pending hlookup).concat id
  have hother : ∀ id entry, id ≠ device → registry.devices.lookup id = some entry →
      entry.id = id ∧ Came crypto (calls ++ [.revoke device]) entry := by
    intro id entry hne hlookup
    obtain ⟨hid, hcame⟩ := h.devices id entry hlookup
    refine ⟨hid, hcame.concat fun hrevoke => hne ?_⟩
    rw [← hid]
    exact (RegistryCall.revoke.inj hrevoke).symm
  rw [DeviceRegistry.revoke]
  cases hdevice : registry.devices.lookup device with
  | none =>
    refine ⟨hcodes, fun id entry hlookup => hother id entry ?_ hlookup⟩
    rintro rfl
    rw [hdevice] at hlookup
    cases hlookup
  | some found =>
    refine ⟨hcodes, fun id entry hlookup => ?_⟩
    by_cases hid : id = device
    · subst hid
      rw [AList.lookup_insert] at hlookup
      obtain rfl := Option.some.inj hlookup
      obtain ⟨rfl, hcame⟩ := h.devices id found hdevice
      exact ⟨rfl, hcame.concat_revoke⟩
    · rw [AList.lookup_insert_ne hid] at hlookup
      exact hother id entry hid hlookup

theorem History.expireCodes (h : History crypto calls registry) (now : ℕ) :
    History crypto (calls ++ [.expireCodes now]) (registry.expireCodes now).1 where
  codes := by
    intro code pending hlookup
    rw [DeviceRegistry.expireCodes, AList.lookup_retain, Option.filter_eq_some_iff] at hlookup
    exact (h.codes code pending hlookup.1).concat id
  devices := fun id entry hlookup =>
    (h.devices id entry hlookup).imp_right fun hcame => hcame.concat nofun

/-- Every registry a run leaves has the history of that run. -/
theorem history (crypto : Ed25519 κ) (calls : List RegistryCall) :
    History crypto calls ((machine crypto).run new calls) := by
  induction calls using List.reverseRecOn with
  | nil => exact history_new crypto
  | append_singleton calls call ih =>
    rw [Machine.run_concat]
    cases call with
    | issueCode code role now => exact ih.issueCode code role now
    | enroll code public_ label now nowMs => exact ih.enroll code public_ label now nowMs
    | verify device transcript signature => exact ih.verify device transcript signature
    | revoke device => exact ih.revoke device
    | expireCodes now => exact ih.expireCodes now

/-! ### What is used up, and what is revoked -/

theorem enroll_of_not_pending {code : String} (h : registry.codes.lookup code = none)
    (public_ : Vector UInt8 32) (label : String) (now : ℕ) (nowMs : ℤ) :
    (registry.enroll crypto code public_ label now nowMs).2 = .error .unknownCode := by
  rw [enroll, h]

/-- A code that was tried is gone. -/
theorem codes_enroll (crypto : Ed25519 κ) (registry : DeviceRegistry κ) (code : String)
    (public_ : Vector UInt8 32) (label : String) (now : ℕ) (nowMs : ℤ) :
    (registry.enroll crypto code public_ label now nowMs).1.codes.lookup code = none := by
  have hredeems := redeems_enroll crypto registry code public_ label now nowMs
  generalize registry.enroll crypto code public_ label now nowMs = redeemed at hredeems
  cases hredeems with
  | unknown hcode => exact hcode
  | refused e => exact AList.lookup_erase code registry.codes
  | enrolled => exact AList.lookup_erase code registry.codes

/-- A code that is not pending stays so until it is issued. -/
theorem codes_next (crypto : Ed25519 κ) {registry : DeviceRegistry κ} {code : String}
    (h : registry.codes.lookup code = none) {call : RegistryCall}
    (hcall : ∀ role now, call ≠ .issueCode code role now) :
    ((machine crypto).next registry call).codes.lookup code = none := by
  have herase : ∀ other, (registry.codes.erase other).lookup code = none := by
    intro other
    by_cases hother : code = other
    · rw [hother, AList.lookup_erase]
    · rwa [AList.lookup_erase_ne hother]
  cases call with
  | issueCode other role now =>
    have hother : code ≠ other := fun heq => hcall role now (by rw [heq])
    change (registry.codes.insert other ⟨now, role⟩).lookup code = none
    rwa [AList.lookup_insert_ne hother]
  | enroll other public_ label now nowMs =>
    change (registry.enroll crypto other public_ label now nowMs).1.codes.lookup code = none
    have hredeems := redeems_enroll crypto registry other public_ label now nowMs
    generalize registry.enroll crypto other public_ label now nowMs = redeemed at hredeems
    cases hredeems with
    | unknown => exact h
    | refused e => exact herase other
    | enrolled => exact herase other
  | verify device transcript signature => exact h
  | revoke device =>
    change (registry.revoke device).1.codes.lookup code = none
    fun_cases DeviceRegistry.revoke with
    | case1 => exact h
    | case2 => exact h
  | expireCodes now =>
    change (registry.expireCodes now).1.codes.lookup code = none
    rw [DeviceRegistry.expireCodes, AList.lookup_retain, h]
    rfl

/-- The device is known, and revoked. -/
def IsRevoked (device : DeviceId) (registry : DeviceRegistry κ) : Prop :=
  ∃ entry, registry.devices.lookup device = some entry ∧ entry.revoked = true

theorem isRevoked_revoke {registry : DeviceRegistry κ} {device : DeviceId}
    (h : (registry.revoke device).2 = true) : IsRevoked device (registry.revoke device).1 := by
  rw [revoke] at h ⊢
  cases hdevice : registry.devices.lookup device with
  | none =>
    rw [hdevice] at h
    cases h
  | some entry => exact ⟨{ entry with revoked := true }, AList.lookup_insert _, rfl⟩

/-- A revoked device stays revoked. -/
theorem IsRevoked.next {device : DeviceId} (h : IsRevoked device registry)
    (call : RegistryCall) : IsRevoked device ((machine crypto).next registry call) := by
  obtain ⟨entry, hlookup, hrevoked⟩ := h
  cases call with
  | issueCode code role now => exact ⟨entry, hlookup, hrevoked⟩
  | enroll code public_ label now nowMs =>
    change IsRevoked device (registry.enroll crypto code public_ label now nowMs).1
    have hredeems := redeems_enroll crypto registry code public_ label now nowMs
    generalize registry.enroll crypto code public_ label now nowMs = redeemed at hredeems
    cases hredeems with
    | unknown => exact ⟨entry, hlookup, hrevoked⟩
    | refused e => exact ⟨entry, hlookup, hrevoked⟩
    | @enrolled pending key hcode hage hkey hnew =>
      have hne : device ≠ DeviceId.ofKey crypto key := by
        rintro rfl
        rw [hnew] at hlookup
        cases hlookup
      exact ⟨entry, by rw [AList.lookup_insert_ne hne, hlookup], hrevoked⟩
  | verify other transcript signature => exact ⟨entry, hlookup, hrevoked⟩
  | revoke other =>
    change IsRevoked device (registry.revoke other).1
    rw [revoke]
    cases hother : registry.devices.lookup other with
    | none => exact ⟨entry, hlookup, hrevoked⟩
    | some found =>
      by_cases hsame : device = other
      · subst hsame
        exact ⟨{ found with revoked := true }, AList.lookup_insert _, rfl⟩
      · exact ⟨entry, by rw [AList.lookup_insert_ne hsame, hlookup], hrevoked⟩
  | expireCodes now => exact ⟨entry, hlookup, hrevoked⟩

/-- A revoked device is refused before its signature is looked at. -/
theorem IsRevoked.verify {device : DeviceId} (h : IsRevoked device registry)
    (transcript signature : Bytes) :
    registry.verify crypto device transcript signature = .error (.revoked device) := by
  obtain ⟨entry, hlookup, hrevoked⟩ := h
  rw [DeviceRegistry.verify, hlookup]
  dsimp only
  rw [if_pos hrevoked]

/-- A device that is enrolled was not known. -/
theorem IsRevoked.id_ne {device : DeviceId} (h : IsRevoked device registry) {code : String}
    {public_ : Vector UInt8 32} {label : String} {now : ℕ} {nowMs : ℤ} {enrolled : Device κ}
    (henroll : (registry.enroll crypto code public_ label now nowMs).2 = .ok enrolled) :
    enrolled.id ≠ device := by
  obtain ⟨entry, hlookup, -⟩ := h
  have hredeems := redeems_enroll crypto registry code public_ label now nowMs
  generalize registry.enroll crypto code public_ label now nowMs = redeemed at henroll hredeems
  cases hredeems with
  | unknown => cases henroll
  | refused e => cases henroll
  | enrolled hcode hage hkey hnew =>
    obtain rfl := Except.ok.inj henroll
    rintro rfl
    rw [hnew] at hlookup
    cases hlookup

/-- A device that verifies is known, not revoked, and its key verifies the signature. -/
theorem verify_eq_ok {device : DeviceId} {transcript signature : Bytes} {entry : Device κ}
    (h : registry.verify crypto device transcript signature = .ok entry) :
    registry.devices.lookup device = some entry ∧ entry.revoked = false ∧
      ∃ hlength, crypto.verify entry.public_ transcript ⟨signature.toArray, hlength⟩ = true := by
  rw [verify] at h
  cases hlookup : registry.devices.lookup device with
  | none =>
    rw [hlookup] at h
    cases h
  | some found =>
    rw [hlookup] at h
    dsimp only at h
    split_ifs at h with hrevoked hlength hverify
    obtain rfl := Except.ok.inj h
    exact ⟨rfl, by simpa using hrevoked, hlength, hverify⟩

/-! ### The result -/

/-- A device that verifies after a run was enrolled in it, and has not been revoked since. -/
theorem enrols_of_verified {calls : List RegistryCall} {device : DeviceId}
    {transcript signature : Bytes} {entry : Device κ}
    (h : ((machine crypto).run new calls).verify crypto device transcript signature =
      .ok entry) :
    entry.id = device ∧
      (∃ hlength, crypto.verify entry.public_ transcript ⟨signature.toArray, hlength⟩ = true) ∧
      ∃ before code public_ label now nowMs after,
        calls = before ++ .enroll code public_ label now nowMs :: after ∧
          Enrols crypto before code public_ label now nowMs entry ∧
          RegistryCall.revoke device ∉ after := by
  obtain ⟨hlookup, hrevoked, hsignature⟩ := verify_eq_ok h
  obtain ⟨rfl, hcame⟩ := (history crypto calls).devices device entry hlookup
  obtain ⟨before, code, public_, label, now, nowMs, after, enrolled, hcalls, henrols, rfl⟩ :=
    hcame
  have hnever : RegistryCall.revoke enrolled.id ∉ after := of_decide_eq_false hrevoked
  have hsame : { enrolled with
      revoked := decide (RegistryCall.revoke enrolled.id ∈ after) } = enrolled := by
    rw [decide_eq_false hnever, ← henrols.not_revoked]
  rw [hsame] at hsignature ⊢
  exact ⟨rfl, hsignature, before, code, public_, label, now, nowMs, after, hcalls, henrols,
    hnever⟩

/-- A code that was tried is not pending until it is issued again. -/
theorem codes_run_enroll (crypto : Ed25519 κ) (calls : List RegistryCall) (code : String)
    (public_ : Vector UInt8 32) (label : String) (now : ℕ) (nowMs : ℤ)
    {later : List RegistryCall}
    (hlater : ∀ role issuedAt, RegistryCall.issueCode code role issuedAt ∉ later) :
    ((machine crypto).run new
      (calls ++ .enroll code public_ label now nowMs :: later)).codes.lookup code = none := by
  rw [Machine.run_append, Machine.run_cons]
  have hfirst := codes_enroll crypto ((machine crypto).run new calls) code public_ label now nowMs
  have halong := Machine.along_of_forall_mem (M := machine crypto)
    (Q := fun call => ∀ role now, call ≠ .issueCode code role now)
    (fun call hcall role now heq => hlater role now (heq ▸ hcall))
    ((machine crypto).next ((machine crypto).run new calls)
      (.enroll code public_ label now nowMs))
  exact halong.run_invariant (I := fun registry => registry.codes.lookup code = none)
    (fun registry call hcall h => codes_next crypto h hcall) hfirst

/-- A device that was revoked stays so for the rest of the run. -/
theorem isRevoked_run {calls : List RegistryCall} {device : DeviceId}
    (h : (((machine crypto).run new calls).revoke device).2 = true) (later : List RegistryCall) :
    IsRevoked device ((machine crypto).run new (calls ++ .revoke device :: later)) := by
  rw [Machine.run_append, Machine.run_cons]
  exact Machine.run_invariant (fun registry call h => h.next call) (isRevoked_revoke h) later

/-- After any run: a device verifies only if an earlier call enrolled the very key that verifies
the signature, with a code that had been issued for the role it carries, that nobody had tried
since, and that was not too old, and only if nobody has revoked it since; a code that was tried
is unknown until it is issued again; a device that was revoked is never verified nor enrolled
again. And what is signed determines everything it was made from. -/
theorem authorized (crypto : Ed25519 κ) :
    (∀ calls device transcript signature entry,
      (machine crypto).out ((machine crypto).run new calls)
          (.verify device transcript signature) = .verified (.ok entry) →
        entry.id = device ∧
          (∃ hlength, crypto.verify entry.public_ transcript ⟨signature.toArray, hlength⟩ = true) ∧
          ∃ before code public_ label now nowMs after,
            calls = before ++ .enroll code public_ label now nowMs :: after ∧
              Enrols crypto before code public_ label now nowMs entry ∧
              RegistryCall.revoke device ∉ after) ∧
      (∀ calls code public_ label now nowMs later public_' label' now' nowMs',
        (∀ role issuedAt, RegistryCall.issueCode code role issuedAt ∉ later) →
          (machine crypto).out
              ((machine crypto).run new
                (calls ++ .enroll code public_ label now nowMs :: later))
              (.enroll code public_' label' now' nowMs') = .enrolled (.error .unknownCode)) ∧
      (∀ calls device later,
        (machine crypto).out ((machine crypto).run new calls) (.revoke device) =
            .revoked true →
          let registry := (machine crypto).run new (calls ++ .revoke device :: later)
          (∀ transcript signature,
              (machine crypto).out registry (.verify device transcript signature) =
                .verified (.error (.revoked device))) ∧
            ∀ code public_ label now nowMs entry,
              (machine crypto).out registry (.enroll code public_ label now nowMs) =
                  .enrolled (.ok entry) → entry.id ≠ device) ∧
      ∀ serverNonce clientNonce device protocol tlsExporter serverNonce' clientNonce' device'
        protocol' tlsExporter',
        transcript serverNonce clientNonce device protocol tlsExporter =
            transcript serverNonce' clientNonce' device' protocol' tlsExporter' →
          (serverNonce, clientNonce, device, protocol, tlsExporter) =
            (serverNonce', clientNonce', device', protocol', tlsExporter') := by
  refine ⟨?_, ?_, ?_, ?_⟩
  · intro calls device transcript signature entry hverified
    exact enrols_of_verified (RegistryReply.verified.inj hverified)
  · intro calls code public_ label now nowMs later public_' label' now' nowMs' hlater
    have hgone := codes_run_enroll crypto calls code public_ label now nowMs hlater
    exact congrArg RegistryReply.enrolled
      (enroll_of_not_pending hgone public_' label' now' nowMs')
  · intro calls device later hrevoke
    have hrevoked : IsRevoked device
        ((machine crypto).run new (calls ++ .revoke device :: later)) :=
      isRevoked_run (RegistryReply.revoked.inj hrevoke) later
    exact ⟨fun transcript signature => congrArg RegistryReply.verified
        (hrevoked.verify transcript signature),
      fun code public_ label now nowMs entry henroll =>
        hrevoked.id_ne (RegistryReply.enrolled.inj henroll)⟩
  · intro serverNonce clientNonce device protocol tlsExporter serverNonce' clientNonce' device'
      protocol' tlsExporter' h
    obtain ⟨rfl, rfl, rfl, rfl, rfl⟩ := transcript_inj h
    rfl

/-- A number, as that many bytes. -/
private def bytesOf (n number : ℕ) : Vector UInt8 n :=
  .ofFn fun i => .ofNat (number / 256 ^ (n - 1 - i))

/-- The public key of the terminal on the desk. -/
def deskKey : Vector UInt8 32 :=
  bytesOf 32 0xd75a980182b10ab7d54bfed3c964073a0ee172f3daa62325af021a68f707511a

/-- Its signature under the empty message. -/
def deskSignature : Vector UInt8 64 :=
  bytesOf 64 (0xe5564300c360ac729086e2cc806e828a84877f1eb8e5d974d873e06522490155 * 256 ^ 32 +
    0x5fb8821590a33bacc61e39701cf9b46bd25bf5f0595bbe24655141438e7a100b)

/-- The scheme and the hash, at this key and signature. -/
def deskCrypto : Ed25519 (Vector UInt8 32) where
  fromBytes := some
  asBytes := id
  sha256 _ := bytesOf 32 0x21fe31dfa154a261626bf854046fd2271b7bed4b6abe45aa58877ef47f9721b9
  verify key message signature := key = deskKey ∧ message = [] ∧ signature = deskSignature

/-- A code is issued and redeemed. -/
def deskEnrolled : List RegistryCall :=
  [.issueCode "7F2K-QX" .trader 0, .enroll "7F2K-QX" deskKey "desk" 1 1700000000000]

/-- The terminal verifies, for it was enrolled; its code enrols nobody a second time; and once it
is revoked the very same signature is refused. -/
theorem authorized_desk :
    let device := DeviceId.ofKey deskCrypto deskKey
    (∃ entry, (machine deskCrypto).out ((machine deskCrypto).run new deskEnrolled)
        (.verify device [] deskSignature.toList) = .verified (.ok entry) ∧ entry.id = device ∧
      ∃ before code public_ label now nowMs after,
        deskEnrolled = before ++ .enroll code public_ label now nowMs :: after ∧
          Enrols deskCrypto before code public_ label now nowMs entry ∧
          RegistryCall.revoke device ∉ after) ∧
      (machine deskCrypto).out ((machine deskCrypto).run new deskEnrolled)
          (.enroll "7F2K-QX" deskKey "another desk" 2 1700000000001) =
        .enrolled (.error .unknownCode) ∧
      (machine deskCrypto).out
          ((machine deskCrypto).run new (deskEnrolled ++ [.revoke device]))
          (.verify device [] deskSignature.toList) = .verified (.error (.revoked device)) := by
  intro device
  have hverified : (machine deskCrypto).out ((machine deskCrypto).run new deskEnrolled)
      (.verify device [] deskSignature.toList) =
        .verified (.ok ⟨device, deskKey, "desk", .trader, 1700000000000, false⟩) := rfl
  have hrevoke : (machine deskCrypto).out ((machine deskCrypto).run new deskEnrolled)
      (.revoke device) = .revoked true := rfl
  obtain ⟨hverify, htried, hrevoked, -⟩ := authorized deskCrypto
  obtain ⟨hid, -, henrolled⟩ := hverify _ _ _ _ _ hverified
  refine ⟨⟨_, hverified, hid, henrolled⟩, ?_, ?_⟩
  · exact htried [.issueCode "7F2K-QX" .trader 0] "7F2K-QX" deskKey "desk" 1 1700000000000 []
      deskKey "another desk" 2 1700000000001 (by simp)
  · exact (hrevoked deskEnrolled device [] hrevoke).1 [] deskSignature.toList

end DeviceRegistry

end MoonCore
