import LoadBearing.Text.Pattern
import LoadBearing.Text.Blank
import LoadBearing.Decimal.Shortest
import LoadBearing.CallGraph.Build
import LoadBearing.CallGraph.Reach
import LoadBearing.Stats
import LoadBearing.Cluster
import LoadBearing.Archetype.Classify
import LoadBearing.Json.Writer
import LoadBearing.Json.Reader
import LoadBearing.Comparison.RevisionRange
import LoadBearing.Comparison.Compare
import LoadBearing.Source.Walk
import LoadBearing.Toml.Document
import LoadBearing.Settings
import LoadBearing.Report.Encode
import LoadBearing.Report.Terminal
import LoadBearing.History.Cache
import LoadBearing.Ignore.Filter
import LoadBearing.CommandLine.Run
import LoadBearing.Workspace.Document
import LoadBearing.Main
import LoadBearing.Json.Access
import LoadBearing.Proofs.Neighbourhood
import LoadBearing.Proofs.LabelPropagation
import LoadBearing.Proofs.Identity
import LoadBearing.Proofs.Integrity
import LoadBearing.Proofs.Activity
import LoadBearing.Proofs.Events
import LoadBearing.Proofs.Attribution
import LoadBearing.Proofs.Resolution
import LoadBearing.Proofs.ArrivalOrder
import LoadBearing.Proofs.AddedFile
import LoadBearing.Proofs.Codependence
import LoadBearing.Proofs.Bridges
import LoadBearing.Proofs.CacheRuns
import LoadBearing.Proofs.Comparison
import LoadBearing.Proofs.Reversal
import LoadBearing.Proofs.CallIndex
import LoadBearing.Proofs.Conservation
import LoadBearing.Proofs.ImportedFile
import LoadBearing.Proofs.CallCoverage
import LoadBearing.Proofs.RepositoryPath
import LoadBearing.Proofs.Reach
import LoadBearing.Proofs.SnapshotKeys
import LoadBearing.Proofs.Extensions
import LoadBearing.Proofs.Globs
import LoadBearing.Proofs.Pruning
import LoadBearing.Proofs.ClusterMeasure
import LoadBearing.Proofs.LabelSpread
import LoadBearing.Proofs.UndirectedView
import LoadBearing.Proofs.RangeGrammar
import LoadBearing.Proofs.ModuleProbing
import LoadBearing.Proofs.ListingOrder
import LoadBearing.Proofs.RelativeSpecifier
import LoadBearing.Proofs.Findings
import LoadBearing.Proofs.Boss
import LoadBearing.Proofs.Companion
import LoadBearing.Proofs.Percentiles
import LoadBearing.Proofs.SourceOrder
import LoadBearing.Proofs.Collisions
import LoadBearing.Proofs.FixMessages
import LoadBearing.Proofs.ClassOwners
