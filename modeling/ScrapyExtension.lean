import ScrapyExtension.Backends.CodecImage
import ScrapyExtension.Backends.Kafka.Redelivery
import ScrapyExtension.Queue.SnapshotLeases
import ScrapyExtension.Queue.SnapshotMaintenance
import ScrapyExtension.Schedule.DeferredReplacementAck
import ScrapyExtension.Schedule.CommitOrder
import ScrapyExtension.Schedule.Backpressure
import ScrapyExtension.Backends.BreakerReports
import ScrapyExtension.Backends.ManagerRegistry
import ScrapyExtension.Backends.ConnectionLifecycle
import ScrapyExtension.Storage.AgeFlush
import ScrapyExtension.Queue.AckToken
import ScrapyExtension.Queue.Close
import ScrapyExtension.Dupefilter.Ledger
import ScrapyExtension.Backends.GenerationGate
import ScrapyExtension.Backends.Sqs.ClearBarrier
import ScrapyExtension.Pipeline.Retry
import ScrapyExtension.Dupefilter.Filters.Displacement
import ScrapyExtension.Dupefilter.Filters.Memory
import ScrapyExtension.Dupefilter.Filters.Sampling
import ScrapyExtension.Dupefilter.Filters.Sizing
import ScrapyExtension.Queue.Strategies.PhysicalNames
import ScrapyExtension.Queue.TimeWheel.Snapshot
import ScrapyExtension.Backends.PluginAckFence
import ScrapyExtension.Backends.RedisGenerations
import ScrapyExtension.Backends.RegistryKey
import ScrapyExtension.Spider.CloseReservation
import ScrapyExtension.Backends.Sqs.LifecycleGate
import ScrapyExtension.Backends.Redis.Queue
import ScrapyExtension.Backends.Elasticsearch.Pop
import ScrapyExtension.Backends.RabbitMq.PendingBarrier
import ScrapyExtension.Backends.RocketMq.ReceivePump
import ScrapyExtension.Backends.Pulsar.Delivery
import ScrapyExtension.Backends.Elasticsearch.Generations
import ScrapyExtension.Backends.Kafka.Bookkeeping
import ScrapyExtension.Backends.Kafka.Depth
import ScrapyExtension.Utils.Identity
import ScrapyExtension.Queue.SnapshotKeys
import ScrapyExtension.Queue.SnapshotTruncation
import ScrapyExtension.Queue.Pop
import ScrapyExtension.Queue.DepthProbe
import ScrapyExtension.Storage.LazyExpiry
import ScrapyExtension.Backends.DynamoDb.Clear
import ScrapyExtension.Settings.Seeds
import ScrapyExtension.Queue.Strategies.DelaySnapshot
import ScrapyExtension.Queue.Strategies.RoundRobinSnapshot
import ScrapyExtension.Queue.Strategies.RingBuffer
import ScrapyExtension.Queue.Strategies.Throttle
