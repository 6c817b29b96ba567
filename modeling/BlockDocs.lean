import BlockDocs.LexoRank
import BlockDocs.GuardedRun
import BlockDocs.ParentChain
import BlockDocs.InsertionMap
import BlockDocs.SortedListing
import BlockDocs.Wire
import BlockDocs.DocBlocks
import BlockDocs.ApplyOps
import BlockDocs.BlockForest
import BlockDocs.SiblingOrder
import BlockDocs.RankWidth
import BlockDocs.PositionCollision
import BlockDocs.PostOperations
import BlockDocs.Crdt
import BlockDocs.Consumer
import BlockDocs.ConsumerCursor
import BlockDocs.SnapshotCursor
import BlockDocs.Base64
import BlockDocs.DeltaPipeline
import BlockDocs.BlockStore
import BlockDocs.Reachability
import BlockDocs.ClientRun
import BlockDocs.ConflictReply
import BlockDocs.ReplicaTree
import BlockDocs.AppliedHistory
import BlockDocs.ReplicaVersion
import BlockDocs.ContentOwners
import BlockDocs.Acceptance
import BlockDocs.Redelivery
import BlockDocs.LoneWriter
import BlockDocs.Protocol
import BlockDocs.WsServer
import BlockDocs.Connections
import BlockDocs.ClientSocket
import BlockDocs.HandshakeFrames
import BlockDocs.InFlight
import BlockDocs.ReplayCoverage
import BlockDocs.ClientCursor
import BlockDocs.OrderedReading
import BlockDocs.HandlerOrder
import BlockDocs.Statements
import BlockDocs.Transactions
import BlockDocs.LockDiscipline
import BlockDocs.OptimisticLock
import BlockDocs.Requests
import BlockDocs.CommitOrder
import BlockDocs.CausalBuffer
import BlockDocs.YjsRegistry
import BlockDocs.CausalClosure
import BlockDocs.PlainYjs
import BlockDocs.PendingFlush
import BlockDocs.PendingEntries
import BlockDocs.SocketLifecycle
import BlockDocs.CachedDepth
import BlockDocs.RootPositions
import BlockDocs.DocumentFrame
import BlockDocs.JsonView
import BlockDocs.FailedRequests
import BlockDocs.NackRollback
import BlockDocs.EarlyRanks
import BlockDocs.OptimisticOrder
import BlockDocs.AttrPatches
import BlockDocs.Decimal
import BlockDocs.FanOut
import BlockDocs.InlineNodes
import BlockDocs.StreamIds
import BlockDocs.ReplayFrames
import BlockDocs.TrimDetection
import BlockDocs.RoomRegistry
import BlockDocs.ClosedSockets
import BlockDocs.ForestWalk
import BlockDocs.VisibleBlocks
import BlockDocs.RepeatedDelivery
import BlockDocs.ConsumedOnce
import BlockDocs.RepeatableEdits
import BlockDocs.RemoteBatch
import BlockDocs.FlatListing
import BlockDocs.StrictRanks
import BlockDocs.SiblingGap
import BlockDocs.InlineRoundTrip
import BlockDocs.PaddedDeltas
import BlockDocs.PastedBlocks
import BlockDocs.DroppedText
import BlockDocs.Reconciled
import BlockDocs.CaretEdits
import BlockDocs.ShortestRank
import BlockDocs.EvenRanks
import BlockDocs.MarkToggle
import BlockDocs.Fusion
import BlockDocs.JsonString
import BlockDocs.InlineDenotation
import BlockDocs.Ledger
import BlockDocs.Images
import BlockDocs.PlacedCaret
import BlockDocs.TypedText
import BlockDocs.TwoReaders
import BlockDocs.Heartbeat
import BlockDocs.Slices
import BlockDocs.ConsumedApart
import BlockDocs.LogReplicas
import BlockDocs.ConvergedPages
import BlockDocs.StreamDiscovery
import BlockDocs.Reloaded
import BlockDocs.StableOrder
import BlockDocs.LeafEdits
import BlockDocs.Outline
import BlockDocs.BlockOrder
import BlockDocs.BlockEditor
import BlockDocs.PageLines
import BlockDocs.PresignedImages
import BlockDocs.JsonExchange
