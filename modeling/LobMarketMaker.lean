import LobMarketMaker.Foundation.Runs
import LobMarketMaker.Foundation.SortedTable
import LobMarketMaker.OrderBook.Model
import LobMarketMaker.OrderBook.LastWriter
import LobMarketMaker.Foundation.Bytes
import LobMarketMaker.Replay.EventCodec
import LobMarketMaker.Replay.RoundTrip
import LobMarketMaker.Concurrency.Refinement
import LobMarketMaker.Execution.Order
import LobMarketMaker.Metrics.LatencyStats
import LobMarketMaker.Metrics.Microstructure
import LobMarketMaker.Portfolio.Portfolio
import LobMarketMaker.Risk.RiskEngine
import LobMarketMaker.Strategy.MarketMaker
import LobMarketMaker.Execution.PaperExecutionEngine
import LobMarketMaker.Pipeline.Model
import LobMarketMaker.Pipeline.Desk
import LobMarketMaker.Pipeline.Stages
import LobMarketMaker.Pipeline.Simulation
import LobMarketMaker.Pipeline.History
import LobMarketMaker.Pipeline.Slots
import LobMarketMaker.Pipeline.Health
import LobMarketMaker.Pipeline.Pnl
import LobMarketMaker.Foundation.Binary64
import LobMarketMaker.Pipeline.Accounts
import LobMarketMaker.Pipeline.Delivery
import LobMarketMaker.Foundation.RoundAway
import LobMarketMaker.MarketData.TradeTapeAdapter
import LobMarketMaker.Portfolio.CashIdentity
import LobMarketMaker.MarketData.Overlay
import LobMarketMaker.Execution.PrintedQuantity
import LobMarketMaker.Execution.Lifecycle
import LobMarketMaker.Strategy.RoundedQuotes
import LobMarketMaker.Pipeline.Redelivery
import LobMarketMaker.Pipeline.Resync
import LobMarketMaker.Tools.SyntheticBook
import LobMarketMaker.Tools.Consistency
import LobMarketMaker.Pipeline.Hysteresis
import LobMarketMaker.OrderBook.Repeats
import LobMarketMaker.Metrics.Windows
import LobMarketMaker.Pipeline.ForeignSymbol
import LobMarketMaker.Strategy.RiskResponse
import LobMarketMaker.Portfolio.CostBasis
import LobMarketMaker.Portfolio.TotalPnl
import LobMarketMaker.Replay.RecordLayout
import LobMarketMaker.Replay.ReplayedBooks
import LobMarketMaker.Execution.MarketSweep
import LobMarketMaker.MarketData.FinnhubParser
import LobMarketMaker.MarketData.TickRange
import LobMarketMaker.Pipeline.LivePath
import LobMarketMaker.Pipeline.QuoteSizes
import LobMarketMaker.Foundation.LogBuckets
import LobMarketMaker.Metrics.BucketMap
import LobMarketMaker.Foundation.NearestRank
import LobMarketMaker.Metrics.PercentileAccuracy
import LobMarketMaker.Common.FreeList
import LobMarketMaker.Metrics.Coherence
import LobMarketMaker.Concurrency.Calls
import LobMarketMaker.Foundation.AdjacentPairs
import LobMarketMaker.Pipeline.Telemetry
import LobMarketMaker.MarketData.FinnhubClient
import LobMarketMaker.Live.Accounts
import LobMarketMaker.Live.Progress
import LobMarketMaker.Live.Book
import LobMarketMaker.Live.Recording
import LobMarketMaker.Tools.SyntheticDataGen
import LobMarketMaker.Pipeline.Epoch
import LobMarketMaker.Pipeline.OrderRecord
import LobMarketMaker.Pipeline.OrderPnl
import LobMarketMaker.Portfolio.PartialFills
import LobMarketMaker.Pipeline.Recovery
import LobMarketMaker.Pipeline.Alarms
import LobMarketMaker.Pipeline.RiskInputs
import LobMarketMaker.Common.MachinePrices
import LobMarketMaker.Execution.MachineSweep
import LobMarketMaker.Portfolio.MachineAccounting
