import Ensemble.Agent.Reading
import Ensemble.Main
import Ensemble.Session.Journal
import Ensemble.Session.Operation
import Ensemble.Proofs.Ordered
import Ensemble.Proofs.Response.Answer
import Ensemble.Proofs.Response.Whole
import Ensemble.Proofs.Session.Log
import Ensemble.Proofs.Session.Journal
import Ensemble.Proofs.Call.Modes
import Ensemble.Proofs.Call.Block
import Ensemble.Proofs.Call.Closing
import Ensemble.Proofs.Invocation
import Ensemble.Proofs.Run.Branch
import Ensemble.Proofs.Call.Cause
import Ensemble.Proofs.Run.ControlFlow
import Ensemble.Proofs.Run.Fleet
import Ensemble.Proofs.Run.History
import Ensemble.Proofs.Run.Moves
import Ensemble.Proofs.Run.Interleaving
import Ensemble.Proofs.Run.Standing
import Ensemble.Proofs.Run.Isolation
import Ensemble.Proofs.Run.Feed
import Ensemble.Proofs.Run.Slots
import Ensemble.Proofs.Run.Termination
import Ensemble.Proofs.Run.Blame
import Ensemble.Proofs.Run.Shared
import Ensemble.Proofs.Run.Promptness
import Ensemble.Proofs.Run.Closure
import Ensemble.Proofs.Run.Repetition
import Ensemble.Proofs.Run.Readable
import Ensemble.Proofs.Run.Requests
import Ensemble.Proofs.Run.Instant
import Ensemble.Proofs.CommandLine.Watching
import Ensemble.Proofs.Call.Deadline
import Ensemble.Proofs.Run.Lockstep
import Ensemble.Proofs.Run.Aftermath
import Ensemble.Proofs.Run.Postponement
import Ensemble.Proofs.Json.Numeral
import Ensemble.Proofs.Json.Quoted
import Ensemble.Proofs.Json.Depth
import Ensemble.Proofs.Json.Tree
import Ensemble.Proofs.Json.Written
import Ensemble.Proofs.Response.Pieces
import Ensemble.Proofs.Text.Line
import Ensemble.Proofs.Delta.Written
import Ensemble.Proofs.Transcript.Written
import Ensemble.Proofs.Call.Arrival
import Ensemble.Proofs.Json.Merge
import Ensemble.Proofs.Settings.Layers
import Ensemble.Proofs.Transcript.Joined
import Ensemble.Proofs.Response.Regrouped
import Ensemble.Proofs.Call.Broken
import Ensemble.Proofs.Delta.Carried
import Ensemble.Proofs.Delta.Formats
import Ensemble.Proofs.Workflow.Rules
import Ensemble.Proofs.Workflow.Amounts
import Ensemble.Proofs.Agent.Registry
import Ensemble.Proofs.Disk.Transcripts
import Ensemble.Proofs.Schema
import Ensemble.Proofs.Run.Desk
import Ensemble.Proofs.Json.Union
