import RucDDBS.Library.Run
import RucDDBS.Transaction.Types
import RucDDBS.Transaction.LockQueue
import RucDDBS.Transaction.LockEffect
import RucDDBS.Transaction.LockCompatibility
import RucDDBS.Transaction.LockRetention
import RucDDBS.Transaction.TwoPhase
import RucDDBS.Transaction.LockBookkeeping
import RucDDBS.Transaction.CommitProtocol
import RucDDBS.Transaction.CommitAgreement
import RucDDBS.Library.Bytes
import RucDDBS.Library.SortedMap
import RucDDBS.Storage.Block
import RucDDBS.Storage.BlockFormat
import RucDDBS.Storage.SSTable
import RucDDBS.Storage.SSTableFormat
import RucDDBS.Storage.KVStore
import RucDDBS.Storage.KVStoreHistory
import RucDDBS.Recovery.LogRecord
import RucDDBS.Recovery.RecoveryManager
import RucDDBS.Transaction.AbortRestore
import RucDDBS.Recovery.Aries
import RucDDBS.MetaServer.Oracle
import RucDDBS.MetaServer.SavedTimestamp
import RucDDBS.Recovery.Durability
import RucDDBS.Recovery.Idempotence
import RucDDBS.Recovery.InDoubt
import RucDDBS.Transaction.FinishedTxn
import RucDDBS.Transaction.Takeover
import RucDDBS.Storage.DiskRestart
import RucDDBS.Transaction.CommitCleanup
import RucDDBS.Transaction.LatchBalance
import RucDDBS.Transaction.TxnIds
import RucDDBS.Engine.MetaData
import RucDDBS.Engine.PlanBuild
import RucDDBS.Engine.RemotePlan
import RucDDBS.Engine.Routing
import RucDDBS.Engine.Operators
import RucDDBS.Engine.StoredRows
import RucDDBS.Engine.OperatorLocks
import RucDDBS.MetaServer.Lookups
import RucDDBS.MetaServer.MetaStream
import RucDDBS.MetaServer.SavedState
import RucDDBS.MetaServer.Successor
import RucDDBS.Storage.BlockRoundTrip
import RucDDBS.Engine.PartitionScan
import RucDDBS.Engine.SqlSession
import RucDDBS.Recovery.LogChains
import RucDDBS.Storage.SkipList
import RucDDBS.Storage.SkipListLevels
import RucDDBS.Storage.SkipListMap
import RucDDBS.Storage.BlockSeek
import RucDDBS.Storage.KVStorePresence
import RucDDBS.Storage.SkipListIter
import RucDDBS.Transaction.RefusedRequests
import RucDDBS.Transaction.UpgradeFlag
import RucDDBS.Recovery.AppendWait
import RucDDBS.Recovery.FailedWrites
import RucDDBS.Recovery.Shutdown
import RucDDBS.Recovery.SizeAssertion
import RucDDBS.Transaction.CoveredRequests
import RucDDBS.Recovery.UndoRedo
import RucDDBS.Recovery.RedoVisits
import RucDDBS.Library.Follow
import RucDDBS.Recovery.RedoEnds
import RucDDBS.Recovery.UndoVisits
import RucDDBS.Engine.RangeLookup
import RucDDBS.Engine.SelectOperators
import RucDDBS.Engine.SelectionRows
import RucDDBS.Engine.PlanMessage
import RucDDBS.Engine.ParRange
import RucDDBS.Library.Decimal
import RucDDBS.MetaServer.TableReplicas
import RucDDBS.MetaServer.RangeRouting
import RucDDBS.Library.Balance
import RucDDBS.MetaServer.Placement
import RucDDBS.MetaServer.LeaderBalance
import RucDDBS.MetaServer.ReplicaSpread
import RucDDBS.MetaServer.CreatedTables
import RucDDBS.MetaServer.CreatedRouting
import RucDDBS.MetaServer.LeaderChange
import RucDDBS.Transaction.AbortReach
import RucDDBS.Transaction.OneTakeover
import RucDDBS.MetaServer.TimestampParts
import RucDDBS.Storage.SkipListStructure
import RucDDBS.Storage.SSTableLayout
import RucDDBS.Library.Words
import RucDDBS.Transaction.LockKey
import RucDDBS.Library.Grammar
import RucDDBS.Library.LR
import RucDDBS.Library.LRItems
import RucDDBS.Library.LRCheck
import RucDDBS.Library.LRViable
import RucDDBS.Library.Scanning
import RucDDBS.Parser.Ast
import RucDDBS.Parser.Syntax
import RucDDBS.Parser.Tables
import RucDDBS.Parser.Certificate
import RucDDBS.Parser.Yyparse
import RucDDBS.Parser.Refinement
import RucDDBS.Parser.Correctness
import RucDDBS.Parser.Trees
import RucDDBS.Parser.Unparse
import RucDDBS.Parser.Lexer
import RucDDBS.Parser.Lexemes
import RucDDBS.Parser.Spelling
import RucDDBS.Parser.SyntaxErrors
import RucDDBS.Engine.SqlText
import RucDDBS.Library.Sharding
import RucDDBS.Engine.Relational
import RucDDBS.Engine.SqlAnswer
import RucDDBS.Engine.PartitionRows
import RucDDBS.Engine.SqlWrites
import RucDDBS.Engine.SqlReads
import RucDDBS.Engine.SqlRefinement
import RucDDBS.Engine.SqlServer
