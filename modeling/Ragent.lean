import Ragent.RangeChunks
import Ragent.FixedChunks
import Ragent.RecursiveChunks
import Ragent.LayoutChunks
import Ragent.SemanticChunks
import Ragent.ChunkCoverage
import Ragent.TracedRun
import Ragent.ChunkProvenance
import Ragent.FlowBlocks
import Ragent.FlowCitations
import Ragent.Formats
import Ragent.PrefixSniffing
import Ragent.GuardedRuns
import Ragent.Runner
import Ragent.Consumer
import Ragent.StageLoss
import Ragent.LayeredDispatch
import Ragent.Dispatch
import Ragent.DocumentTables
import Ragent.StageHandlers
import Ragent.Executions
import Ragent.BlockLinks
import Ragent.IndexAgreement
import Ragent.TextSniffing
import Ragent.CitationViewer
import Ragent.Messages
import Ragent.Fusion
import Ragent.HybridSearch
import Ragent.Answers
import Ragent.AnswerSurfaces
import Ragent.EventStream
import Ragent.StreamCuts
import Ragent.Uploads
import Ragent.Amqp
import Ragent.BrokerTopology
import Ragent.Retries
import Ragent.FixedWindows
import Ragent.LayoutSections
import Ragent.ApproxTokens
import Ragent.ChunkOrder
import Ragent.OrderStatistics
import Ragent.RecursiveBudget
import Ragent.TopicCuts
import Ragent.PipelineProgress
import Ragent.Resume
import Ragent.DeadLetters
import Ragent.DocumentOutcomes
import Ragent.ConsumerHistories
import Ragent.PageExtraction
import Ragent.Agreement
import Ragent.SectionPaths
import Ragent.ProseCells
import Ragent.ParenthesisedCells
import Ragent.SuperscriptMarks
import Ragent.AccountingCells
import Ragent.WholeRecords
import Ragent.Embeddings
import Ragent.CollectionWidths
import Ragent.ContextPrefixes
import Ragent.CitationMarkers
import Ragent.RepeatedIds
import Ragent.MergedBoxes
import Ragent.OcrGate
import Ragent.MisplacedBoxes
import Ragent.StageOrder
import Ragent.StageContracts
import Ragent.ObjectStore
import Ragent.SourceObjects
import Ragent.UploadedObjects
import Ragent.Attempts
import Ragent.TableIntegrity
import Ragent.IndependentDocuments
import Ragent.IngestionEnds
import Ragent.EventFrames
import Ragent.AskPage
import Ragent.PagedHighlights
import Ragent.FlowDocuments
import Ragent.BlockRenaming
import Ragent.IngestedChunks
import Ragent.GreedyCuts
import Ragent.FewestChunks
import Ragent.Promotions
import Ragent.PipelineView
