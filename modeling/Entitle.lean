import Entitle.Command.Arguments
import Entitle.Command.Basic
import Entitle.Command.Display
import Entitle.Command.Help
import Entitle.Command.Program
import Entitle.Dialogue
import Entitle.Digest.Sha256
import Entitle.History.Backend
import Entitle.History.Conformance
import Entitle.History.Defect
import Entitle.History.Journal
import Entitle.History.Record
import Entitle.History.Store
import Entitle.Host.Disk
import Entitle.Host.FileName
import Entitle.Host.Instant
import Entitle.Host.Request
import Entitle.Json.Printer
import Entitle.Json.Range
import Entitle.Json.Reader
import Entitle.Json.Schema
import Entitle.Json.Shape
import Entitle.Json.Value
import Entitle.Main
import Entitle.NameSet
import Entitle.Plan.Action
import Entitle.Plan.Compile
import Entitle.Plan.ErrorForm
import Entitle.Plan.Form
import Entitle.Plan.Permission
import Entitle.Plan.Schema
import Entitle.Proofs.Accounts
import Entitle.Proofs.Alike
import Entitle.Proofs.Ancestry
import Entitle.Proofs.Asking
import Entitle.Proofs.Audits
import Entitle.Proofs.Benches
import Entitle.Proofs.Bundle
import Entitle.Proofs.Caching
import Entitle.Proofs.Commuting
import Entitle.Proofs.Compiling
import Entitle.Proofs.Confinement
import Entitle.Proofs.Consumers
import Entitle.Proofs.Convergence
import Entitle.Proofs.Cursors
import Entitle.Proofs.Cuts
import Entitle.Proofs.Cycles
import Entitle.Proofs.Disks
import Entitle.Proofs.Doubts
import Entitle.Proofs.Endings
import Entitle.Proofs.Enrolment
import Entitle.Proofs.Extracting
import Entitle.Proofs.Files
import Entitle.Proofs.Footprints
import Entitle.Proofs.Forecasts
import Entitle.Proofs.Foresight
import Entitle.Proofs.Fragments
import Entitle.Proofs.Framing
import Entitle.Proofs.Halting
import Entitle.Proofs.Hosts
import Entitle.Proofs.Identities
import Entitle.Proofs.Inclusions
import Entitle.Proofs.Inspecting
import Entitle.Proofs.Interchange
import Entitle.Proofs.Keeping
import Entitle.Proofs.Ledgers
import Entitle.Proofs.Libraries
import Entitle.Proofs.Limits
import Entitle.Proofs.Lines
import Entitle.Proofs.Literals
import Entitle.Proofs.Lossless
import Entitle.Proofs.NormalForms
import Entitle.Proofs.Numbering
import Entitle.Proofs.Ordeals
import Entitle.Proofs.Ordering
import Entitle.Proofs.Overlays
import Entitle.Proofs.Parsing
import Entitle.Proofs.Paths
import Entitle.Proofs.Permissions
import Entitle.Proofs.Phrases
import Entitle.Proofs.Places
import Entitle.Proofs.Positions
import Entitle.Proofs.Purging
import Entitle.Proofs.Readers
import Entitle.Proofs.Rearranging
import Entitle.Proofs.Recordings
import Entitle.Proofs.Rehearsal
import Entitle.Proofs.Relocating
import Entitle.Proofs.Remnants
import Entitle.Proofs.Reopening
import Entitle.Proofs.Repeating
import Entitle.Proofs.Restarts
import Entitle.Proofs.Revoking
import Entitle.Proofs.Rewording
import Entitle.Proofs.Rooted
import Entitle.Proofs.Saving
import Entitle.Proofs.Scanning
import Entitle.Proofs.Sessions
import Entitle.Proofs.Spelling
import Entitle.Proofs.Standing
import Entitle.Proofs.Stepwise
import Entitle.Proofs.Subtrees
import Entitle.Proofs.Transcripts
import Entitle.Proofs.Trees
import Entitle.Proofs.Undisturbed
import Entitle.Proofs.Unfolding
import Entitle.Proofs.Walking
import Entitle.Proofs.WellFormed
import Entitle.Proofs.Worlds
import Entitle.Proofs.Writing
import Entitle.Repository.Call
import Entitle.Repository.Form
import Entitle.Repository.Path
import Entitle.Repository.State
import Entitle.Repository.Stored
import Entitle.Run.Change
import Entitle.Run.Execute
import Entitle.Run.Fault
import Entitle.Run.Inspect
import Entitle.Run.Launch
import Entitle.Run.Outcome
import Entitle.Run.Overlay
import Entitle.Run.Report
import Entitle.Run.Request
import Entitle.Run.Session
import Entitle.Script.Cache
import Entitle.Script.Checked
import Entitle.Script.Expansion
import Entitle.Script.Folder
import Entitle.Script.Grammar
import Entitle.Script.Identity
import Entitle.Script.Lexer
import Entitle.Script.Origin
import Entitle.Script.ParseError
import Entitle.Script.Parser
import Entitle.Script.Source
import Entitle.Script.Statement
import Entitle.Script.Token
import Entitle.Settings.Basic
import Entitle.Settings.Literal
import Entitle.Settings.Reader
import Entitle.Table
import Entitle.Text.CharClass
import Entitle.Text.Lines
import Entitle.Text.Printing
import Entitle.Text.Segments
