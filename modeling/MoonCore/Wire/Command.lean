import Mathlib.Data.Vector.Basic
import MoonCore.ForMathlib.MsgPack
import MoonCore.Wire.Event

/-!
# What a terminal can ask for

`wire::command`: the catalogue with its tags and roles, and how a command is encoded. serde
writes a command as a map of its tag and its content, a struct as a map from field names, a
tuple or a fixed-size array as an array. The commands that carry a credential are spelled out
field by field; of the others (`PlainCommand`) the content is any value.
-/

namespace MoonCore

open MsgPack

/-- What a session is allowed to do. -/
inductive Role where
  | viewer
  | trader
  | admin
  deriving DecidableEq

/-- The roles in their order. -/
def Role.rank : Role → ℕ
  | viewer => 0
  | trader => 1
  | admin => 2

/-- A change to core settings, as a sparse patch. -/
structure SettingsPatch where
  /-- Dotted paths to values, in the order they should be applied. -/
  set : List (String × Value)
  /-- Paths to reset to their default. -/
  clear : List String

/-- The commands none of whose fields is a credential. -/
inductive PlainCommand where
  | ping | pong | bye
  | subscribe | unsubscribe | subscriptionsGet | bookResyncRequest | tapeBackfill | candleHistory
  | placeOrder | cancelOrder | amendOrder | cancelAll | moveOrders | splitOrder
  | ordersSnapshotRequest | orderStatusRequest
  | closePosition | flattenAll | setProtection | setVolumeStop | setPanic | setImmune
  | accountSnapshotRequest | setLeverage | setMarginMode | setPositionMode | transferAsset
  | transferableAssetsRefresh | confirmRiskLimit | apiKeyStatusRequest | convertDust
  | settingsGet | autoLeverageSet | profitReset | emuTrades | coreRestart
  | alertUpsert | alertDelete | alertsSnapshotRequest | chartAnnotationsRequest
  | newsHistoryRequest
  | reportSchemaRequest | reportSyncRequest | reportPageAck | reportCheckRows
  | reportSetRowsDeleted | reportQuery
  deriving DecidableEq

/-- Terminal → core. -/
inductive Command where
  | hello (protocol : UInt16) (deviceId : Vector UInt8 16) (clientNonce : Vector UInt8 32)
      (sig : List UInt8) (caps : List String) (terminalVersion : String)
  | enroll (code : String) (pubkey : Vector UInt8 32) (label : String)
  | resume (sessionId : UInt64) (resumeToken : Vector UInt8 32) (sig : List UInt8)
      (acks : List (Channel × UInt64))
  | rotateDeviceKey (newPubkey : Vector UInt8 32) (sigNew : List UInt8)
  | settingsSet (patch : SettingsPatch) (baseRev : UInt64)
  /-- Any other command, with its content, which a unit variant does not have. -/
  | plain (name : PlainCommand) (content : Option Value)

namespace PlainCommand

/-- The variant's name in snake case. -/
def tag : PlainCommand → String
  | ping => "ping"
  | pong => "pong"
  | bye => "bye"
  | subscribe => "subscribe"
  | unsubscribe => "unsubscribe"
  | subscriptionsGet => "subscriptions_get"
  | bookResyncRequest => "book_resync_request"
  | tapeBackfill => "tape_backfill"
  | candleHistory => "candle_history"
  | placeOrder => "place_order"
  | cancelOrder => "cancel_order"
  | amendOrder => "amend_order"
  | cancelAll => "cancel_all"
  | moveOrders => "move_orders"
  | splitOrder => "split_order"
  | ordersSnapshotRequest => "orders_snapshot_request"
  | orderStatusRequest => "order_status_request"
  | closePosition => "close_position"
  | flattenAll => "flatten_all"
  | setProtection => "set_protection"
  | setVolumeStop => "set_volume_stop"
  | setPanic => "set_panic"
  | setImmune => "set_immune"
  | accountSnapshotRequest => "account_snapshot_request"
  | setLeverage => "set_leverage"
  | setMarginMode => "set_margin_mode"
  | setPositionMode => "set_position_mode"
  | transferAsset => "transfer_asset"
  | transferableAssetsRefresh => "transferable_assets_refresh"
  | confirmRiskLimit => "confirm_risk_limit"
  | apiKeyStatusRequest => "api_key_status_request"
  | convertDust => "convert_dust"
  | settingsGet => "settings_get"
  | autoLeverageSet => "auto_leverage_set"
  | profitReset => "profit_reset"
  | emuTrades => "emu_trades"
  | coreRestart => "core_restart"
  | alertUpsert => "alert_upsert"
  | alertDelete => "alert_delete"
  | alertsSnapshotRequest => "alerts_snapshot_request"
  | chartAnnotationsRequest => "chart_annotations_request"
  | newsHistoryRequest => "news_history_request"
  | reportSchemaRequest => "report_schema_request"
  | reportSyncRequest => "report_sync_request"
  | reportPageAck => "report_page_ack"
  | reportCheckRows => "report_check_rows"
  | reportSetRowsDeleted => "report_set_rows_deleted"
  | reportQuery => "report_query"

/-- Lowest role that may send it. -/
def minRole : PlainCommand → Role
  -- read-only requests and the handshake
  | ping | pong | bye | subscribe | unsubscribe | subscriptionsGet | bookResyncRequest
  | tapeBackfill | candleHistory | ordersSnapshotRequest | orderStatusRequest
  | accountSnapshotRequest | transferableAssetsRefresh | settingsGet | alertsSnapshotRequest
  | chartAnnotationsRequest | newsHistoryRequest | reportSchemaRequest | reportSyncRequest
  | reportPageAck | reportCheckRows | reportQuery => .viewer
  -- anything that touches money or the venue account
  | setPositionMode | transferAsset | apiKeyStatusRequest | convertDust | profitReset
  | coreRestart => .admin
  | _ => .trader

end PlainCommand

namespace Command

/-- The command's tag. -/
def tag : Command → String
  | hello .. => "hello"
  | enroll .. => "enroll"
  | resume .. => "resume"
  | rotateDeviceKey .. => "rotate_device_key"
  | settingsSet .. => "settings_set"
  | plain name _ => name.tag

/-- Lowest role that may send it. -/
def minRole : Command → Role
  | hello .. | enroll .. | resume .. => .viewer
  | rotateDeviceKey .. | settingsSet .. => .trader
  | plain name _ => name.minRole

/-- A struct: its fields under their names. -/
def struct (fields : List (String × Value)) : Value :=
  .map (fields.map fun field => (.string field.1, field.2))

/-- A fixed-size array of bytes is an array of numbers. -/
def byteItems {n : ℕ} (bytes : Vector UInt8 n) : Value :=
  .array (bytes.toList.map fun byte => .integer byte.toNat)

/-- The content of a command, where its variant has one. -/
def content : Command → Option Value
  | hello protocol deviceId clientNonce sig caps terminalVersion =>
    some (struct [("protocol", .integer protocol.toNat), ("device_id", byteItems deviceId),
      ("client_nonce", byteItems clientNonce), ("sig", .binary sig),
      ("caps", .array (caps.map .string)), ("terminal_version", .string terminalVersion)])
  | enroll code pubkey label =>
    some (struct [("code", .string code), ("pubkey", byteItems pubkey), ("label", .string label)])
  | resume sessionId resumeToken sig acks =>
    some (struct [("session_id", .integer sessionId.toNat),
      ("resume_token", byteItems resumeToken), ("sig", .binary sig),
      ("acks", .array (acks.map fun ack =>
        .array [.integer ack.1.number.toNat, .integer ack.2.toNat]))])
  | rotateDeviceKey newPubkey sigNew =>
    some (struct [("new_pubkey", byteItems newPubkey), ("sig_new", .binary sigNew)])
  | settingsSet patch baseRev =>
    some (struct [("patch", struct [
        ("set", .array (patch.set.map fun entry => .array [.string entry.1, entry.2])),
        ("clear", .array (patch.clear.map .string))]),
      ("base_rev", .integer baseRev.toNat)])
  | plain _ content => content

/-- Adjacent tagging. -/
def toValue (command : Command) : Value :=
  .map ((.string "t", .string command.tag) ::
    command.content.toList.map fun content => (.string "d", content))

end Command

end MoonCore
