import Revix.LabelledRuns
import Revix.KeyedTables
import Revix.FencingTokens
import Revix.EffectPrograms
import Revix.EffectSessions
import Revix.GatheredPrograms
import Revix.EffectCosts
import Revix.AtomicObjects
import Revix.HandledPrograms
import Revix.GreedySelection
import Revix.StableSorting
import Revix.Infixes
import Revix.QueueSchema
import Revix.QueueTransactions
import Revix.QueueLookups
import Revix.QueueRuns
import Revix.QueueFencing
import Revix.QueueHeartbeats
import Revix.QueueRecords
import Revix.QueueVerdicts
import Revix.QueueRetries
import Revix.QueueReconciliation
import Revix.QueueReconcilers
import Revix.QueueDraining
import Revix.QueueIngestion
import Revix.QueueStatements
import Revix.EnqueueAtomicity
import Revix.QueueOwners
import Revix.QueueMarks
import Revix.ReviewData
import Revix.ReviewRendering
import Revix.InlineSelection
import Revix.WorkerProcess
import Revix.ExceptionHandlers
import Revix.ReviewPosting
import Revix.PostingAttempts
import Revix.PostingRetries
import Revix.ReviewChunks
import Revix.ChunkRanking
import Revix.SwarmReplies
import Revix.TextSearch
import Revix.JsonTexts
import Revix.ReplyExtraction
import Revix.ReviewSwarm
import Revix.AgentMessages
import Revix.SwarmVerdicts
import Revix.AgentRouting
import Revix.SwarmFindings
import Revix.ConcurrentSwarm
import Revix.SwarmBudget
import Revix.SandboxRuns
import Revix.HostedReviews
import Revix.PrivateKeys
import Revix.AppSettings
import Revix.WorkerConnections
import Revix.ClaimLeases
import Revix.ToolTranscripts
import Revix.SubmittedReviews
import Revix.WorkerFleet
import Revix.SourceFetching
import Revix.WorkerClaims
import Revix.WorkerCommits
import Revix.WorkerHeartbeats
import Revix.WorkerCheckRuns
import Revix.RateLimitedReviews
import Revix.WorkerLoop
import Revix.WorkerShutdown
import Revix.WorkerPermits
import Revix.CheckRunOwners
import Revix.WebhookOverrides
import Revix.WebhookRequests
import Revix.WebhookProvenance
import Revix.CheckRunTasks
import Revix.CheckRunBoard
import Revix.CheckRunOverrides
import Revix.SharedQueues
import Revix.ClaimDisposal
import Revix.InstallationTokens
import Revix.SyntaxTrees
import Revix.RepoIndexer
import Revix.QualifiedNames
import Revix.CalleeNames
import Revix.RepoGraph
import Revix.GraphReviews
import Revix.GraphIndexing
import Revix.ReadCommitted
import Revix.GraphTransactions
import Revix.ChangedLines
import Revix.GreedyPacking
import Revix.SyntaxChunks
import Revix.ChunkPartition
import Revix.ChunkCoverage
import Revix.ChunkBudget
import Revix.ChunkIndentation
import Revix.ScopedCosts
import Revix.UnifiedDiffs
import Revix.PatchReading
import Revix.StrayLines
import Revix.DiffScoping
import Revix.RetryClassification
import Revix.QueueSubjects
import Revix.PostedReviews
import Revix.ReviewSuppression
import Revix.SuggestionBlocks
import Revix.PostedSuggestions
import Revix.SubstantiveComments
