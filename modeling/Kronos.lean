import Kronos.Lib.Transition
import Kronos.Lib.Window
import Kronos.Lib.Trace
import Kronos.Lib.RunningMinimum
import Kronos.Lib.Utf8
import Kronos.Lib.Binary64
import Kronos.Lib.NumberText
import Kronos.Lib.JsonText
import Kronos.Processing.Segment
import Kronos.Processing.SegmentPartition
import Kronos.Processing.TrackingToken
import Kronos.Processing.SharedStream
import Kronos.Processing.SharedStreamDense
import Kronos.Processing.SharedStreamCommitOrder
import Kronos.Processing.Worker
import Kronos.Processing.WorkerExactlyOnce
import Kronos.Processing.SplitMerge
import Kronos.Processing.SplitMergeExactlyOnce
import Kronos.Processing.Node
import Kronos.Processing.NodeHolds
import Kronos.Processing.NodeWorkers
import Kronos.Postgres.TokenStore
import Kronos.Postgres.ClaimTakeover
import Kronos.Postgres.Tailing
import Kronos.Postgres.TailingGapFree
import Kronos.EventSourcing.DcbQuery
import Kronos.EventSourcing.InMemory
import Kronos.EventSourcing.DecisionConsistency
import Kronos.Postgres.EventStore
import Kronos.Postgres.AppendConsistency
import Kronos.UnitOfWork.Phases
import Kronos.UnitOfWork.PhaseOrder
import Kronos.UnitOfWork.Rejection
import Kronos.Postgres.Locking
import Kronos.EventSourcing.InMemorySnapshotting
import Kronos.EventSourcing.OwnWrites
import Kronos.Postgres.Snapshotting
import Kronos.Postgres.StoredTokens
import Kronos.Processing.SharedStreamReset
import Kronos.Processing.ResetReplay
import Kronos.Processing.Replay
import Kronos.Processing.ReplayTruth
import Kronos.EventSourcing.InMemoryStreams
import Kronos.EventSourcing.StagedAppends
import Kronos.EventSourcing.Upcasting
import Kronos.Lib.Condition
import Kronos.Postgres.CriteriaSql
import Kronos.KronosDb.NativeEvents
import Kronos.Processing.DeadLetterQueue
import Kronos.Processing.DeadLetterOrder
import Kronos.Processing.DeadLetterLanes
import Kronos.Postgres.TransactionGlue
import Kronos.Postgres.TransactionContained
import Kronos.Composition.WrapperChain
import Kronos.Composition.Boot
import Kronos.Correlation.CausalTree
import Kronos.Lib.Slots
import Kronos.Postgres.Scheduling
import Kronos.Postgres.ScheduleFires
import Kronos.Postgres.DeadLetterLeases
import Kronos.Postgres.DeadLetterReplays
import Kronos.AxonServer.EventStore
import Kronos.AxonServer.Snapshotting
import Kronos.AxonServer.FlowControlledSender
import Kronos.Processing.InMemoryTokenStore
import Kronos.Processing.SegmentTree
import Kronos.Processing.TokenStorage
import Kronos.Processing.SideBySide
import Kronos.EventSourcing.GranularQuery
import Kronos.EventSourcing.StateIds
import Kronos.Processing.CautiousRetry
import Kronos.KronosDb.NativeTransport
import Kronos.KronosDb.TransportSettles
import Kronos.KronosDb.FrameReassembly
import Kronos.KronosDb.Writer
import Kronos.KronosDb.WriteCoalescing
import Kronos.KronosDb.Wire
import Kronos.KronosDb.NativeMessages
import Kronos.KronosDb.NativeRecords
import Kronos.KronosDb.Subscription
import Kronos.KronosDb.SubscriptionExact
import Kronos.KronosDb.HandlerStream
import Kronos.KronosDb.HandlerIncarnations
import Kronos.RabbitMq.SubscriberRegistry
import Kronos.RabbitMq.InstanceGossip
import Kronos.RabbitMq.MirrorsAgree
import Kronos.RabbitMq.CommandTransport
import Kronos.RabbitMq.DispatchSettles
import Kronos.EventScheduling.InMemory
import Kronos.EventScheduling.FiresOnce
import Kronos.EventScheduling.TimerRange
import Kronos.Otlp.Exporter
import Kronos.Otlp.Traceparent
import Kronos.Otlp.Tracing
import Kronos.Otlp.TraceWhole
import Kronos.Otlp.ExportAccounts
import Kronos.Otlp.FlushChain
import Kronos.Otlp.ExportSums
import Kronos.QueryHandling.UpdateHandler
import Kronos.KronosDb.ProvidedSubscription
import Kronos.KronosDb.SubscriptionQuery
import Kronos.Lib.EcmaScript
import Kronos.QueryHandling.SubscriptionFilter
import Kronos.Test.Compare
import Kronos.Test.CompareExact
import Kronos.Lib.Subsequence
import Kronos.Test.Align
import Kronos.Test.JudgeMessages
import Kronos.Messaging.Admission
import Kronos.AxonServer.OutboundStream
import Kronos.AxonServer.ShutdownLatch
import Kronos.AxonServer.ProviderStream
import Kronos.AxonServer.ProviderCredits
import Kronos.AxonServer.ProviderAborts
import Kronos.AxonServer.ProviderRuns
import Kronos.AxonServer.CommandBus
import Kronos.AxonServer.CommandBusDrain
import Kronos.QueryHandling.LocalQueryBus
import Kronos.QueryHandling.UpdatesReachSubscribers
import Kronos.QueryHandling.DeferredUpdates
import Kronos.RabbitMq.Deliveries
