import MoonCore.Binance.Lifecycle
import MoonCore.Binance.Socket
import MoonCore.Binance.Streams
import MoonCore.Core.BookReplica
import MoonCore.Core.CandleReplica
import MoonCore.Core.Charts
import MoonCore.Core.Config
import MoonCore.Core.LateSubscriber
import MoonCore.Core.Markets
import MoonCore.Core.TapeOnce
import MoonCore.Core.Truth
import MoonCore.Domain.BookMap
import MoonCore.Domain.Grid
import MoonCore.Domain.Registry
import MoonCore.Domain.RoundsDown
import MoonCore.Domain.Scaled
import MoonCore.Exchange.Rejections
import MoonCore.ForMathlib.MsgPackFormats
import MoonCore.MarketData.BookTruth
import MoonCore.MarketData.ReplayedPrints
import MoonCore.MarketData.Requests
import MoonCore.Storage.Batching
import MoonCore.Storage.Lasting
import MoonCore.Storage.OpenTransaction
import MoonCore.Storage.Orders
import MoonCore.Storage.Reconcile
import MoonCore.Storage.Recovery
import MoonCore.Storage.Reports
import MoonCore.Storage.RetentionRace
import MoonCore.Storage.Schema
import MoonCore.Storage.SweepAlone
import MoonCore.Storage.UpdateRecorded
import MoonCore.Terminal.Client
import MoonCore.Wire.BanKept
import MoonCore.Wire.BatchArray
import MoonCore.Wire.BatchBounds
import MoonCore.Wire.BatchFrame
import MoonCore.Wire.DeadPeer
import MoonCore.Wire.DeviceRegistry
import MoonCore.Wire.EnvelopeBytes
import MoonCore.Wire.Idempotency
import MoonCore.Wire.Keystore
import MoonCore.Wire.Paging
import MoonCore.Wire.Pin
import MoonCore.Wire.Redaction
import MoonCore.Wire.Refresh
import MoonCore.Wire.ReplayFidelity
import MoonCore.Wire.ResumeAge
import MoonCore.Wire.SessionGate
import MoonCore.Wire.SessionTable
import MoonCore.Wire.SubscriptionHub
