import LowLatencyPipeline.Library.Machine
import LowLatencyPipeline.Library.LinearProbe
import LowLatencyPipeline.Library.WrapInt
import LowLatencyPipeline.Library.Truncation
import LowLatencyPipeline.Library.Checked
import LowLatencyPipeline.Library.SplitDiv
import LowLatencyPipeline.Library.SumIf
import LowLatencyPipeline.Library.SortedWalk
import LowLatencyPipeline.Library.Cut
import LowLatencyPipeline.Library.LastWins
import LowLatencyPipeline.Library.Quantile
import LowLatencyPipeline.Library.Drawdown
import LowLatencyPipeline.Library.Bytes
import LowLatencyPipeline.Library.Reading
import LowLatencyPipeline.Library.Smoothing
import LowLatencyPipeline.Library.Fnv
import LowLatencyPipeline.Library.Strtol
import LowLatencyPipeline.Common.SpscRing
import LowLatencyPipeline.Common.PushCalls
import LowLatencyPipeline.Common.RingCalls
import LowLatencyPipeline.Common.Seqlock
import LowLatencyPipeline.Common.Messages
import LowLatencyPipeline.Common.Event
import LowLatencyPipeline.Common.MarketData
import LowLatencyPipeline.Common.ConfigFile
import LowLatencyPipeline.Common.ConfigText
import LowLatencyPipeline.Common.Histogram
import LowLatencyPipeline.Common.InstrumentTable
import LowLatencyPipeline.Common.Attach
import LowLatencyPipeline.Exchange.ItchParser
import LowLatencyPipeline.Exchange.FrameReads
import LowLatencyPipeline.Core.LevelBitmap
import LowLatencyPipeline.Core.OrderMap
import LowLatencyPipeline.Core.OrderBook
import LowLatencyPipeline.Core.PriceWindow
import LowLatencyPipeline.Core.BookInvariant
import LowLatencyPipeline.Core.TopOfBook
import LowLatencyPipeline.Core.Depth
import LowLatencyPipeline.Core.PrimaryFeed
import LowLatencyPipeline.Core.Reference
import LowLatencyPipeline.Core.Replace
import LowLatencyPipeline.Core.Published
import LowLatencyPipeline.Core.DashboardPublisher
import LowLatencyPipeline.Exec.RawTable
import LowLatencyPipeline.Exec.OrderTable
import LowLatencyPipeline.Exec.Account
import LowLatencyPipeline.Exec.ProfitLoss
import LowLatencyPipeline.Exec.Reservation
import LowLatencyPipeline.Exec.RateModel
import LowLatencyPipeline.Exec.Risk
import LowLatencyPipeline.Exec.MarketView
import LowLatencyPipeline.Exec.Router
import LowLatencyPipeline.Exec.Context
import LowLatencyPipeline.Exec.Strategy
import LowLatencyPipeline.Exec.Engine
import LowLatencyPipeline.Exec.PositionLimit
import LowLatencyPipeline.Exec.Funds
import LowLatencyPipeline.Exec.SizeChecks
import LowLatencyPipeline.Exec.Assets
import LowLatencyPipeline.Exec.Drawdown
import LowLatencyPipeline.Exec.Conversions
import LowLatencyPipeline.Exec.SpotFunds
import LowLatencyPipeline.Exec.Runner
import LowLatencyPipeline.Exec.NullMode
import LowLatencyPipeline.Exec.Generation
import LowLatencyPipeline.Exec.OpenRows
import LowLatencyPipeline.Exec.Hosted
import LowLatencyPipeline.Exec.DummyQuoter
import LowLatencyPipeline.Exec.ImbalanceTaker
import LowLatencyPipeline.Exec.Halted
import LowLatencyPipeline.Exec.LiveLimits
import LowLatencyPipeline.Exec.Settings
import LowLatencyPipeline.Exec.Dialogue
import LowLatencyPipeline.Exec.Shutdown
import LowLatencyPipeline.Exec.ReportQueue
import LowLatencyPipeline.Exec.FailedRequests
import LowLatencyPipeline.Exec.DivisionSafety
import LowLatencyPipeline.Exec.ModuleImage
import LowLatencyPipeline.Exec.ModuleState
import LowLatencyPipeline.Exec.Loader
import LowLatencyPipeline.Manager.Supervisor
import LowLatencyPipeline.Manager.Workers
import LowLatencyPipeline.Pipeline.FrameFeed
import LowLatencyPipeline.Pipeline.DashboardFeed
import LowLatencyPipeline.Pipeline.StaleSlots
import LowLatencyPipeline.Pipeline.FileEvents
import LowLatencyPipeline.Pipeline.EventFeed
import LowLatencyPipeline.Pipeline.EndToEnd
