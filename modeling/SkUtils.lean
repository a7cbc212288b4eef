import SkUtils.Concurrency.ThreadPoolWakeup
import SkUtils.Coroutine.WhenAllResumption
import SkUtils.Containers.HeapOrder
import SkUtils.Containers.UnionFindSetInt
import SkUtils.Containers.UnionFindConnectivity
import SkUtils.Containers.SkipListOperations
import SkUtils.Containers.SkipListTowers
import SkUtils.Containers.SkipListMap
import SkUtils.Containers.SkipListChains
import SkUtils.Library.PriorityQueues
import SkUtils.Containers.TopkQueues
import SkUtils.Containers.TopkLaw
import SkUtils.Coroutine.Task
import SkUtils.Coroutine.SyncAwait
import SkUtils.Strings.StringUtils
import SkUtils.Arguments.ArgumentParser
import SkUtils.Arguments.ArgumentGrammar
import SkUtils.Arguments.ArgumentReading
import SkUtils.Arguments.ArgumentValues
import SkUtils.Concurrency.ThreadPoolShutdown
import SkUtils.Concurrency.ThreadPoolTasks
import SkUtils.Coroutine.WhenAllPair
import SkUtils.Coroutine.WhenAllStores
import SkUtils.Coroutine.WhenAllLifetime
import SkUtils.Concurrency.TaskQueue
import SkUtils.Concurrency.TaskQueueDelivery
import SkUtils.Concurrency.EventBus
import SkUtils.Concurrency.EventBusStop
import SkUtils.Library.LongestMatch
import SkUtils.Strings.StringSplit
import SkUtils.Strings.Formatter
import SkUtils.Arguments.ArgumentTotality
import SkUtils.Coroutine.TaskTrace
import SkUtils.Coroutine.EventLoop
import SkUtils.Coroutine.EventLoopOrder
import SkUtils.Containers.GraphComponents
import SkUtils.Coroutine.EventLoopStop
import SkUtils.Containers.UnionFindSetMap
import SkUtils.Containers.UnionFindClasses
import SkUtils.Library.UniqueReadability
import SkUtils.Strings.Printer
import SkUtils.Ducpp.Scan
import SkUtils.Arguments.ArgumentVariants
import SkUtils.Concurrency.PoolFutures
import SkUtils.Ducpp.Listing
import SkUtils.Ducpp.PooledScan
import SkUtils.Ducpp.Options
import SkUtils.Library.LockTraces
import SkUtils.Strings.LogLock
import SkUtils.Concurrency.EventSubscriptions
import SkUtils.Concurrency.EventBusTimer
import SkUtils.Concurrency.EventBusDelivery
import SkUtils.Containers.HeapElements
import SkUtils.Containers.HeapSort
import SkUtils.Containers.GraphMatrix
import SkUtils.Strings.SplitTermination
import SkUtils.Ducpp.Ranking
import SkUtils.Arguments.StringRoundTrip
import SkUtils.Ducpp.Capacity
import SkUtils.Coroutine.SyncAwaitHandover
import SkUtils.Coroutine.GeneratorResumption
import SkUtils.Coroutine.SyncAwaitRefinement
import SkUtils.Process.CommandTimeout
import SkUtils.Process.Reaping
import SkUtils.Process.CapturedOutput
import SkUtils.Files.FileReader
import SkUtils.Files.CombineFiles
import SkUtils.Ducpp.DiskUsage
import SkUtils.Ducpp.PooledUsage
import SkUtils.Strings.StackPrinter
import SkUtils.Arguments.NumericValues
import SkUtils.Containers.UnionFindFromGraph
import SkUtils.Coroutine.EventLoopThrow
import SkUtils.Strings.PathNames
import SkUtils.Library.GreedyPacking
import SkUtils.Strings.ExpandUser
import SkUtils.Strings.GreedyCount
import SkUtils.Containers.GraphEdges
import SkUtils.Containers.GraphPrinting
import SkUtils.Random.RandomUtil
import SkUtils.Containers.TreePrinting
import SkUtils.Containers.UnionFindPrinting
import SkUtils.Scripts.MergeHeaders
import SkUtils.Scripts.HeaderBalance
import SkUtils.Containers.ListNodes
import SkUtils.Concurrency.TypeIds
import SkUtils.Containers.TopkConcurrency
import SkUtils.Strings.LogOutput
import SkUtils.Coroutine.HandleOwnership
import SkUtils.Coroutine.IoUringStop
import SkUtils.Process.PosixPipes
import SkUtils.Scripts.MergedHeader
