import SynapseMemory.Text
import SynapseMemory.Pack
import SynapseMemory.PackAccounting
import SynapseMemory.Closure
import SynapseMemory.Datalog
import SynapseMemory.DatalogModel
import SynapseMemory.ScoreTable
import SynapseMemory.Splade
import SynapseMemory.SpladePruning
import SynapseMemory.LockOrder
import SynapseMemory.Proto
import SynapseMemory.DaemonLocks
import SynapseMemory.Session
import SynapseMemory.Client
import SynapseMemory.ClientSession
import SynapseMemory.Transition
import SynapseMemory.DaemonState
import SynapseMemory.DaemonSteps
import SynapseMemory.QueryCache
import SynapseMemory.LiftedIndex
import SynapseMemory.StatsCache
import SynapseMemory.Agent
import SynapseMemory.AgentIsolation
import SynapseMemory.Table
import SynapseMemory.Store
import SynapseMemory.JsonText
import SynapseMemory.Search
import SynapseMemory.FullText
import SynapseMemory.Space
import SynapseMemory.Drawers
import SynapseMemory.AgentMemory
import SynapseMemory.Lru
import SynapseMemory.ContextPack
import SynapseMemory.PackCache
import SynapseMemory.PackRuns
import SynapseMemory.StableSort
import SynapseMemory.ContextState
import SynapseMemory.SynxIo
import SynapseMemory.TextRoundTrip
import SynapseMemory.Bytes
import SynapseMemory.HashChain
import SynapseMemory.Audit
import SynapseMemory.AuditWriters
import SynapseMemory.PointerWalk
import SynapseMemory.Provenance
import SynapseMemory.ProvenanceRuns
import SynapseMemory.Synx
import SynapseMemory.SynxRoundTrip
import SynapseMemory.SynxIntegrity
import SynapseMemory.AnnIndex
import SynapseMemory.TantivyMirror
import SynapseMemory.Memories
import SynapseMemory.MemoryStability
import SynapseMemory.LastWriter
import SynapseMemory.Gossip
import SynapseMemory.LwwMerge
import SynapseMemory.Rbac
import SynapseMemory.Tiered
import SynapseMemory.Joining
import SynapseMemory.ProvenanceBinding
import SynapseMemory.Events
import SynapseMemory.EventWriters
import SynapseMemory.EventBatch
import SynapseMemory.Crdt
import SynapseMemory.Federation
import SynapseMemory.FederationSync
import SynapseMemory.PackMerge
import SynapseMemory.Ingest
import SynapseMemory.EmbeddingCheck
import SynapseMemory.GraphHistory
import SynapseMemory.MemoryPipeline
import SynapseMemory.Supersession
import SynapseMemory.Extraction
import SynapseMemory.Files
import SynapseMemory.Bloom
import SynapseMemory.MetaLoop
import SynapseMemory.Shards
import SynapseMemory.SessionReplay
import SynapseMemory.ScopedSearch
import SynapseMemory.Gregorian
import SynapseMemory.Temporal
import SynapseMemory.TextFields
import SynapseMemory.Timestamps
import SynapseMemory.EventReaders
import SynapseMemory.Runs
import SynapseMemory.PackTokens
import SynapseMemory.PackOrder
import SynapseMemory.PackCompression
import SynapseMemory.PackRender
import SynapseMemory.Outcome
import SynapseMemory.RankFusion
import SynapseMemory.SynxLimits
import SynapseMemory.Snapshots
import SynapseMemory.Csv
import SynapseMemory.CsvExport
import SynapseMemory.Regex
import SynapseMemory.RegexParts
import SynapseMemory.PiiMasking
import SynapseMemory.ComplianceExport
import SynapseMemory.CheckedCalendar
import SynapseMemory.Pieces
import SynapseMemory.TemporalQuery
import SynapseMemory.TemporalRanges
import SynapseMemory.TemporalStamps
import SynapseMemory.TemporalPhrases
import SynapseMemory.TemporalTiles
import SynapseMemory.CorpusChunks
import SynapseMemory.BreadthFirst
import SynapseMemory.MultiHop
import SynapseMemory.GraphTraversal
import SynapseMemory.RawMemories
import SynapseMemory.DeferredFts
import SynapseMemory.Fts5
import SynapseMemory.FtsQuery
import SynapseMemory.Decompose
import SynapseMemory.PipelineRecall
import SynapseMemory.FilteredSearch
import SynapseMemory.Compaction
import SynapseMemory.Tags
import SynapseMemory.TagExchange
import SynapseMemory.EventArchive
import SynapseMemory.SessionBounds
import SynapseMemory.BoundedHeap
import SynapseMemory.CorpusStore
import SynapseMemory.HammingIndex
import SynapseMemory.EdgeTable
import SynapseMemory.ScoredTraversal
import SynapseMemory.ShortestPath
import SynapseMemory.HtmlText
import SynapseMemory.ConformalRecall
import SynapseMemory.KnowledgeGraph
import SynapseMemory.LearnedCounters
import SynapseMemory.SessionChunks
import SynapseMemory.Accumulators
import SynapseMemory.Communities
import SynapseMemory.PageRank
import SynapseMemory.CountingSort
import SynapseMemory.CsrGraph
import SynapseMemory.FastHybrid
import SynapseMemory.Blocks
import SynapseMemory.Spann
import SynapseMemory.PathWalk
import SynapseMemory.SnapPaths
import SynapseMemory.Quantization
import SynapseMemory.Colbert
import SynapseMemory.Broadcast
import SynapseMemory.LiveQuery
import SynapseMemory.PersonalizedPageRank
import SynapseMemory.FreshCache
