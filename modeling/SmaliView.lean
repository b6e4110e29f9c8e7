import SmaliView.Cache
import SmaliView.ClassName
import SmaliView.CommandLine.Arguments
import SmaliView.CommandLine.Run
import SmaliView.ContentHash
import SmaliView.Document
import SmaliView.Double
import SmaliView.FileTree
import SmaliView.Instant
import SmaliView.Json.Decode
import SmaliView.Json.Forms
import SmaliView.Json.Reader
import SmaliView.Json.Value
import SmaliView.Layout
import SmaliView.Logging
import SmaliView.Main
import SmaliView.Outcome
import SmaliView.Path
import SmaliView.Pipeline.Bench
import SmaliView.Pipeline.Plan
import SmaliView.Pipeline.Resolve
import SmaliView.Pipeline.Stages
import SmaliView.Report.Convert
import SmaliView.Report.Locate
import SmaliView.Report.Tools
import SmaliView.Scheduler
import SmaliView.Session
import SmaliView.Settings.Basic
import SmaliView.Settings.Check
import SmaliView.Settings.Decode
import SmaliView.Settings.Environment
import SmaliView.Settings.Load
import SmaliView.Shell.Lexeme
import SmaliView.Shell.Run
import SmaliView.Shell.Script
import SmaliView.Shell.State
import SmaliView.Shell.Utility
import SmaliView.Snapshot
import SmaliView.SystemError
import SmaliView.Table
import SmaliView.TaskTable
import SmaliView.Text.Blank
import SmaliView.Text.Digits
import SmaliView.Text.Offset
import SmaliView.Text.Pieces
import SmaliView.Text.Quoted
import SmaliView.Text.Utf8
import SmaliView.Token
import SmaliView.Tools.Basic
import SmaliView.Tools.Jadx
import SmaliView.Tools.Mock
import SmaliView.Tools.Prepared
import SmaliView.Tools.Process
import SmaliView.Tools.ProgramOutput
import SmaliView.Tools.Smali
import SmaliView.Update
import SmaliView.Word
import SmaliView.Yaml.Node
import SmaliView.Yaml.Read
import SmaliView.Yaml.Scan
import SmaliView.Yaml.Token
import SmaliView.Proofs.Scheduler.Steps
import SmaliView.Proofs.Scheduler.Runs
import SmaliView.Proofs.Scheduler.Delivery
import SmaliView.Proofs.Scheduler.CacheHistory
import SmaliView.Proofs.Pipeline.Moments
import SmaliView.Proofs.Pipeline.StageRuns
import SmaliView.Proofs.Pipeline.Cancellation
import SmaliView.Proofs.Pipeline.StageResults
import SmaliView.Proofs.Pipeline.Fallback
import SmaliView.Proofs.Scheduler.Registry
import SmaliView.Proofs.Scheduler.Channel
import SmaliView.Proofs.Scheduler.LockOrder
import SmaliView.Proofs.Scheduler.OneCaller
import SmaliView.Proofs.Scheduler.Waiting
import SmaliView.Proofs.Scheduler.Phases
import SmaliView.Proofs.Scheduler.Orphans
import SmaliView.Proofs.Scheduler.Closing
import SmaliView.Proofs.Scheduler.Shutdown
import SmaliView.Proofs.Scheduler.Isolation
import SmaliView.Proofs.Scheduler.Integrity
import SmaliView.Proofs.Scheduler.Custody
import SmaliView.Proofs.Pipeline.EditorText
import SmaliView.Proofs.Files.Names
import SmaliView.Proofs.Files.Apart
import SmaliView.Proofs.Files.Making
import SmaliView.Proofs.Files.Growth
import SmaliView.Proofs.Pipeline.Leads
import SmaliView.Proofs.Pipeline.ReadOnly
import SmaliView.Proofs.Files.Missing
import SmaliView.Proofs.Pipeline.Located
import SmaliView.Proofs.Pipeline.Undated
import SmaliView.Proofs.Scheduler.Permits
import SmaliView.Proofs.Classes.JavaFile
import SmaliView.Proofs.Classes.TopLevel
import SmaliView.Proofs.Files.Descent
import SmaliView.Proofs.Files.Segments
import SmaliView.Proofs.Files.Storing
import SmaliView.Proofs.Pipeline.SourceDirectories
import SmaliView.Proofs.Pipeline.Extraction
import SmaliView.Proofs.Pipeline.FirstMatch
import SmaliView.Proofs.Outcomes.Placeholder
import SmaliView.Proofs.Files.Ancestors
import SmaliView.Proofs.Classes.SmaliFile
import SmaliView.Proofs.Layout.SearchOrder
import SmaliView.Proofs.Layout.Anchor
import SmaliView.Proofs.Text.Words
import SmaliView.Proofs.Classes.Header
import SmaliView.Proofs.Layout.NearestRoot
import SmaliView.Proofs.Files.Standing
import SmaliView.Proofs.Tools.Meets
import SmaliView.Proofs.Tools.Contract
import SmaliView.Proofs.Text.Encoding
import SmaliView.Proofs.Files.Shelf
import SmaliView.Proofs.Tools.MockRuns
import SmaliView.Proofs.Pipeline.BenchRuns
import SmaliView.Proofs.Pipeline.RoundTrip
import SmaliView.Proofs.Settings.Filling
import SmaliView.Proofs.Settings.Defaults
