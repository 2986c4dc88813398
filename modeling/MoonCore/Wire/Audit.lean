import MoonCore.Wire.Admission
import MoonCore.Wire.Command

/-!
# What was done, by whom, from where

`wire::audit`. A row of the trail holds the body of a command, encoded, read back as a value, and
redacted by the names of its fields. Encoding and reading back are a parameter (`recode`); what
comes back is the value that went in, except that a string that is not UTF-8 comes back as bytes
(`Value.reread`).

`Audit.hidden_iff` says exactly which commands leave none of their credentials in a row.
-/

namespace MoonCore

open MsgPack

/-- Fields whose value must never be written down. -/
def neverRecord : List String := ["code", "passphrase", "secret", "token", "sig", "sig_new"]

/-- Replacement text. -/
def redacted : String := "<redacted>"

/-- What happened to the command. -/
inductive Audit.Outcome where
  /-- Accepted and started. -/
  | started
  | succeeded
  /-- Refused before it ran, with why. -/
  | refused (why : String)
  | failed (why : String)
  deriving DecidableEq

/-- One line of the trail. -/
structure AuditRecord where
  atMs : ℤ
  session : SessionId
  device : DeviceId
  peer : IpAddr
  /-- The role the session actually held. -/
  role : Role
  req : ReqId
  /-- The command's tag. -/
  command : String
  /-- The body, with anything sensitive removed. -/
  body : Value
  outcome : Audit.Outcome

/-- Whether a command belongs in the trail: the authentication events, and everything that
changes state. -/
def shouldAudit : Command → Bool
  | .enroll .. | .rotateDeviceKey .. | .resume .. => true
  | command => Role.viewer.rank < command.minRole.rank

/-- Whether a key is one of the names. -/
def isSensitive (key : Value) : Bool := key.text.any fun name => name ∈ neverRecord

mutual

/-- Remove anything from a body that must not be stored. -/
def redact : Value → Value
  | .map entries => .map (redactEntries entries)
  | .array items => .array (redactItems items)
  | other => other

/-- Each entry of a map, with what a sensitive key names taken out. -/
def redactEntries : List (Value × Value) → List (Value × Value)
  | [] => []
  | (k, v) :: entries =>
    (k, if isSensitive k then .string redacted else redact v) :: redactEntries entries

/-- Each item of an array, redacted. -/
def redactItems : List Value → List Value
  | [] => []
  | item :: items => redact item :: redactItems items

end

/-- Pull the `t`/`d` pair apart. -/
def splitTagged : Value → Option String × Value
  | .map entries =>
    entries.foldl (fun (tag, body) (k, v) =>
      if k.text = some "t" then (v.text, body)
      else if k.text = some "d" then (tag, v)
      else (tag, body)) (none, .nil)
  | value => (none, value)

/-- The tags of the catalogue. -/
def internedTags : List String :=
  ["hello", "enroll", "resume", "rotate_device_key", "ping", "pong", "bye", "subscribe",
    "unsubscribe", "subscriptions_get", "book_resync_request", "tape_backfill", "candle_history",
    "place_order", "cancel_order", "amend_order", "cancel_all", "move_orders", "split_order",
    "orders_snapshot_request", "order_status_request", "close_position", "flatten_all",
    "set_protection", "set_volume_stop", "set_panic", "set_immune", "account_snapshot_request",
    "set_leverage", "set_margin_mode", "set_position_mode", "transfer_asset",
    "transferable_assets_refresh", "confirm_risk_limit", "api_key_status_request", "convert_dust",
    "settings_get", "settings_set", "auto_leverage_set", "profit_reset", "emu_trades",
    "core_restart", "alert_upsert", "alert_delete", "alerts_snapshot_request",
    "chart_annotations_request", "news_history_request", "report_schema_request",
    "report_sync_request", "report_page_ack", "report_check_rows", "report_set_rows_deleted",
    "report_query"]

/-- Intern the tag. -/
def staticTag (tag : String) : String := if tag ∈ internedTags then tag else "unknown"

/-- Build a record for a command, redacting as it goes. -/
def record (recode : Value → Option Value) (command : Command) (atMs : ℤ) (session : SessionId)
    (device : DeviceId) (peer : IpAddr) (role : Role) (req : ReqId) (outcome : Audit.Outcome) :
    Option AuditRecord :=
  if ¬ shouldAudit command then none
  else
    (recode command.toValue).map fun value =>
      let (tag, body) := splitTagged value
      { atMs := atMs
        session := session
        device := device
        peer := peer
        role := role
        req := req
        command := staticTag (tag.getD "unknown")
        body := redact body
        outcome := outcome }

/-! ### What comes back -/

namespace MsgPack.Value

mutual

/-- A value after it was written and read. -/
def reread : Value → Value
  | .malformed bytes => .binary bytes
  | .array items => .array (rereadItems items)
  | .map entries => .map (rereadEntries entries)
  | other => other

/-- Each item, read back. -/
def rereadItems : List Value → List Value
  | [] => []
  | item :: items => reread item :: rereadItems items

/-- Each entry, read back. -/
def rereadEntries : List (Value × Value) → List (Value × Value)
  | [] => []
  | (k, v) :: entries => (reread k, reread v) :: rereadEntries entries

end

theorem rereadItems_eq_map (items : List Value) : rereadItems items = items.map reread := by
  induction items with
  | nil => rfl
  | cons item items ih => exact congrArg (reread item :: ·) ih

/-- Only a string comes back as that string. -/
theorem reread_eq_string {value : Value} {text : String} :
    reread value = .string text ↔ value = .string text := by
  cases value <;> simp [reread]

end MsgPack.Value

theorem redactItems_eq_map (items : List Value) : redactItems items = items.map redact := by
  induction items with
  | nil => rfl
  | cons item items ih => exact congrArg (redact item :: ·) ih

/-- Only a string is left as that string. -/
theorem redact_eq_string {value : Value} {text : String} :
    redact value = .string text ↔ value = .string text := by
  cases value <;> simp [redact]

/-- Where `recode` succeeds, the value comes back. -/
def Rereads (recode : Value → Option Value) : Prop :=
  ∀ value back, recode value = some back → back = value.reread

/-- The body of a command, as it is stored. -/
def storedBody (command : Command) : Value :=
  redact ((command.content.map Value.reread).getD .nil)

/-- A row holds the body of its command. -/
theorem body_of_record {recode : Value → Option Value} (hrecode : Rereads recode)
    {command : Command} {atMs : ℤ} {session : SessionId} {device : DeviceId} {peer : IpAddr}
    {role : Role} {req : ReqId} {outcome : Audit.Outcome} {row : AuditRecord}
    (h : record recode command atMs session device peer role req outcome = some row) :
    shouldAudit command = true ∧ row.body = storedBody command := by
  rw [record] at h
  split_ifs at h with haudit
  obtain ⟨value, hvalue, rfl⟩ := Option.map_eq_some_iff.mp h
  obtain rfl := hrecode _ _ hvalue
  refine ⟨by simpa using haudit, ?_⟩
  rw [storedBody, Command.toValue]
  cases command.content <;> rfl

/-! ### Where the credentials of a command are -/

/-- The last segment of a dotted path. -/
def lastSegment (path : String) : String := (path.splitOn ".").getLastD path

/-- Where the body of a command holds a credential: the enrolment code, the resume token, a
signature, or what a patch assigns to a path whose last segment is never to be recorded. -/
inductive Credential : Command → List Value.Step → Prop where
  | helloSig {protocol deviceId clientNonce sig caps terminalVersion} :
    Credential (.hello protocol deviceId clientNonce sig caps terminalVersion) [.key "sig"]
  | code {code pubkey label} : Credential (.enroll code pubkey label) [.key "code"]
  | resumeToken {sessionId resumeToken sig acks} :
    Credential (.resume sessionId resumeToken sig acks) [.key "resume_token"]
  | resumeSig {sessionId resumeToken sig acks} :
    Credential (.resume sessionId resumeToken sig acks) [.key "sig"]
  | sigNew {newPubkey sigNew} : Credential (.rotateDeviceKey newPubkey sigNew) [.key "sig_new"]
  | setting {patch : SettingsPatch} {baseRev : UInt64} {i : ℕ} {path : String} {value : Value}
      (hset : patch.set[i]? = some (path, value)) (hpath : lastSegment path ∈ neverRecord) :
    Credential (.settingsSet patch baseRev) [.key "patch", .key "set", .index i, .index 1]

/-- Every credential of the command is replaced in this body. -/
def Hides (command : Command) (body : Value) : Prop :=
  ∀ path, Credential command path → body.at_ path = some (.string redacted)

/-- A command none of whose credentials is in a field of another name, or in a pair: not a
`Resume`, nor a patch that assigns anything to a path that is never to be recorded. -/
def Command.Covered : Command → Prop
  | .resume .. => False
  | .settingsSet patch _ => ∀ entry ∈ patch.set, lastSegment entry.1 ∈ neverRecord →
      entry.2 = .string redacted
  | _ => True

/-- What is stored of the value a patch assigns. -/
theorem at_storedBody_settingsSet (patch : SettingsPatch) (baseRev : UInt64) (i : ℕ) :
    (storedBody (.settingsSet patch baseRev)).at_
        [.key "patch", .key "set", .index i, .index 1] =
      patch.set[i]?.map fun entry => redact entry.2.reread := by
  have hset : (storedBody (.settingsSet patch baseRev)).at_ [.key "patch", .key "set"] =
      some (redact (Value.reread (.array
        (patch.set.map fun entry => .array [.string entry.1, entry.2])))) := rfl
  have hsplit : (storedBody (.settingsSet patch baseRev)).at_
        [.key "patch", .key "set", .index i, .index 1] =
      ((storedBody (.settingsSet patch baseRev)).at_ [.key "patch", .key "set"]).bind
        fun set => set.at_ [.index i, .index 1] := rfl
  rw [hsplit, hset, Option.bind_some, Value.reread, Value.rereadItems_eq_map, redact,
    redactItems_eq_map, List.map_map, List.map_map]
  have hget (items : List Value) :
      (Value.array items).at_ [.index i, .index 1] =
        items[i]?.bind fun item => item.get (.index 1) := by
    rw [Value.at_, List.foldlM_cons, Value.get]
    cases items[i]? with
    | none => rfl
    | some item =>
      change (item.get (.index 1)).bind some = item.get (.index 1)
      exact Option.bind_fun_some _
  rw [hget, List.getElem?_map]
  cases patch.set[i]? <;> rfl

/-- A row hides its command's credentials exactly if the names of the fields cover them. -/
theorem hides_storedBody_iff {command : Command} (haudit : shouldAudit command = true) :
    Hides command (storedBody command) ↔ command.Covered := by
  cases command with
  | hello => cases haudit
  | enroll code pubkey label =>
    refine iff_of_true (fun path hpath => ?_) trivial
    cases hpath
    rfl
  | resume sessionId resumeToken sig acks =>
    refine iff_of_false (fun h => ?_) id
    have htoken := h _ .resumeToken
    cases htoken
  | rotateDeviceKey newPubkey sigNew =>
    refine iff_of_true (fun path hpath => ?_) trivial
    cases hpath
    rfl
  | settingsSet patch baseRev =>
    constructor
    · rintro h ⟨path, value⟩ hmem hpath
      obtain ⟨i, hi⟩ := List.mem_iff_getElem?.mp hmem
      have hstored := h _ (.setting hi hpath)
      rw [at_storedBody_settingsSet, hi, Option.map_some] at hstored
      exact Value.reread_eq_string.mp (redact_eq_string.mp (Option.some.inj hstored))
    · intro h path hcredential
      cases hcredential with
      | @setting _ _ i path value hi hpath =>
        obtain rfl : value = .string redacted := h _ (List.mem_of_getElem? hi) hpath
        rw [at_storedBody_settingsSet, hi]
        rfl
  | plain name content =>
    refine iff_of_true (fun path hpath => ?_) trivial
    cases hpath

/-- A row that is written for a command holds none of its credentials exactly if no row can be
written, or the command is no `Resume` and no patch that assigns something to a path that is
never to be recorded. -/
theorem Audit.hidden_iff (recode : Value → Option Value) (hrecode : Rereads recode)
    (command : Command) (atMs : ℤ) (session : SessionId) (device : DeviceId) (peer : IpAddr)
    (role : Role) (req : ReqId) (outcome : Audit.Outcome) :
    (∀ row, record recode command atMs session device peer role req outcome = some row →
        Hides command row.body) ↔
      recode command.toValue = none ∨ command.Covered := by
  constructor
  · intro h
    cases hvalue : recode command.toValue with
    | none => exact .inl rfl
    | some value =>
      refine .inr ?_
      by_cases haudit : shouldAudit command = true
      · have hrow : ∃ row, record recode command atMs session device peer role req outcome =
            some row := by
          rw [record, if_neg (by simpa using haudit), hvalue]
          exact ⟨_, rfl⟩
        obtain ⟨row, hrow⟩ := hrow
        have hhides := h row hrow
        rw [(body_of_record hrecode hrow).2] at hhides
        exact (hides_storedBody_iff haudit).mp hhides
      · cases command with
        | resume => exact absurd rfl haudit
        | settingsSet => exact absurd rfl haudit
        | _ => trivial
  · intro h row hrow
    obtain ⟨haudit, hbody⟩ := body_of_record hrecode hrow
    rw [hbody]
    rcases h with hnone | hcovered
    · rw [record, if_neg (by simpa using haudit), hnone] at hrow
      cases hrow
    · exact (hides_storedBody_iff haudit).mpr hcovered

/-- An enrolment is recorded without its code. -/
theorem Audit.hidden_iff_enroll :
    ∃ row, record (fun value => some value.reread)
        (.enroll "correct-horse-battery" (.replicate 32 1) "laptop") 1700000000000 ⟨9⟩
        (.replicate 16 1) (.v4 #v[203, 0, 113, 7]) .trader 42 .succeeded = some row ∧
      Hides (.enroll "correct-horse-battery" (.replicate 32 1) "laptop") row.body :=
  ⟨_, rfl, (Audit.hidden_iff (fun value => some value.reread)
    (fun _ _ h => (Option.some.inj h).symm) (.enroll "correct-horse-battery" _ "laptop")
    _ _ _ _ _ _ _).mpr (.inr trivial) _ rfl⟩

/-- A session that was resumed is recorded with its token. -/
theorem Audit.not_hidden_resume :
    ∃ row, record (fun value => some value.reread)
        (.resume 9 (.replicate 32 5) (List.replicate 64 6) [(.tape, 1000)]) 1700000000000 ⟨9⟩
        (.replicate 16 1) (.v4 #v[203, 0, 113, 7]) .trader 42 .succeeded = some row ∧
      row.body.at_ [.key "resume_token"] = some (Command.byteItems (.replicate 32 5)) ∧
      ¬ Hides (.resume 9 (.replicate 32 5) (List.replicate 64 6) [(.tape, 1000)]) row.body := by
  refine ⟨_, rfl, rfl, fun h => ?_⟩
  have htoken := h _ .resumeToken
  cases htoken

end MoonCore
