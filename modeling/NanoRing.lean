import NanoRing.Common.BlockLoop
import NanoRing.Common.BoundedFifo
import NanoRing.Common.ByteOrder
import NanoRing.Common.CheckedPrefix
import NanoRing.Common.Fairness
import NanoRing.Common.Framing
import NanoRing.Common.MemoryOrder
import NanoRing.Common.OrderStatistics
import NanoRing.Common.ProbeGrow
import NanoRing.Common.ProbeLoop
import NanoRing.Common.ProbeTable
import NanoRing.Common.ProbeUpdate
import NanoRing.Common.Publication
import NanoRing.Common.RingWindow
import NanoRing.Common.Schedule
import NanoRing.Common.Simulation
import NanoRing.Common.SortedPrefix
import NanoRing.Common.VectorIntrinsics
import NanoRing.Common.VectorLanes
import NanoRing.Feed.BatchDecoder
import NanoRing.Feed.FeedFraming
import NanoRing.Feed.FeedGenerator
import NanoRing.Feed.ItchMessages
import NanoRing.Feed.ItchRoundTrip
import NanoRing.Feed.SimdDecoder
import NanoRing.Feed.SoaScan
import NanoRing.Feed.StreamChunks
import NanoRing.Feed.TestData
import NanoRing.Feed.TestOrders
import NanoRing.Feed.TestScan
import NanoRing.Feed.TickerFilter
import NanoRing.Book.BboChanges
import NanoRing.Book.BboSteps
import NanoRing.Book.BookRefinement
import NanoRing.Book.BookRuns
import NanoRing.Book.Capacity
import NanoRing.Book.FlatOrderMap
import NanoRing.Book.Growth
import NanoRing.Book.IdleMessages
import NanoRing.Book.LevelAccess
import NanoRing.Book.LevelCalls
import NanoRing.Book.LevelLimit
import NanoRing.Book.LevelTotals
import NanoRing.Book.ListedPrices
import NanoRing.Book.LiveOrders
import NanoRing.Book.OrderBook
import NanoRing.Book.OrderContents
import NanoRing.Book.OrderCounts
import NanoRing.Book.OrderHistory
import NanoRing.Book.OrderTable
import NanoRing.Book.PriceLevels
import NanoRing.Book.QuotedBook
import NanoRing.Book.ReplaceParts
import NanoRing.Book.RestingBook
import NanoRing.Book.ShardedBookManager
import NanoRing.Book.ShareFlow
import NanoRing.Book.ShareTotals
import NanoRing.Book.SmallHistories
import NanoRing.Book.Spread
import NanoRing.Book.SymbolBooks
import NanoRing.Book.SymbolTable
import NanoRing.Book.TableInvariant
import NanoRing.Book.TopOfBook
import NanoRing.Book.UsedSlots
import NanoRing.Journal.Backpressure
import NanoRing.Journal.BroadcastJournal
import NanoRing.Journal.JournalRun
import NanoRing.Journal.LargestReport
import NanoRing.Journal.MemoryOrders
import NanoRing.Queue.IndexWrap
import NanoRing.Queue.Linearization
import NanoRing.Queue.MemoryOrders
import NanoRing.Queue.OrderedQueue
import NanoRing.Queue.QueueCounts
import NanoRing.Queue.SpscFifo
import NanoRing.Queue.SpscQueue
import NanoRing.Queue.SpscRun
import NanoRing.Pipeline.Agreement
import NanoRing.Pipeline.Broadcast
import NanoRing.Pipeline.BroadcastAccesses
import NanoRing.Pipeline.BroadcastDelivery
import NanoRing.Pipeline.BroadcastInvariant
import NanoRing.Pipeline.BroadcastMemoryOrders
import NanoRing.Pipeline.BroadcastProgress
import NanoRing.Pipeline.BroadcastScaling
import NanoRing.Pipeline.BroadcastVisits
import NanoRing.Pipeline.FeedToBooks
import NanoRing.Pipeline.LatencyExperiment
import NanoRing.Pipeline.LatencySamples
import NanoRing.Pipeline.LatencyTracker
import NanoRing.Pipeline.MarketQuotes
import NanoRing.Pipeline.OrderedBroadcast
import NanoRing.Pipeline.OrderedBroadcastInvariant
import NanoRing.Pipeline.OrderedRouted
import NanoRing.Pipeline.OrderedRoutedInvariant
import NanoRing.Pipeline.Routed
import NanoRing.Pipeline.RoutedAccessProgress
import NanoRing.Pipeline.RoutedAccesses
import NanoRing.Pipeline.RoutedBatches
import NanoRing.Pipeline.RoutedDelivery
import NanoRing.Pipeline.RoutedInvariant
import NanoRing.Pipeline.RoutedMemoryOrders
import NanoRing.Pipeline.RoutedProgress
import NanoRing.Pipeline.RoutedSamples
import NanoRing.Pipeline.ShardThreads
import NanoRing.Pipeline.Shards
import NanoRing.Pipeline.TestRuns
