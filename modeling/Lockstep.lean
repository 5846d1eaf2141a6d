import Lockstep.Analysis
import Lockstep.Command.Run
import Lockstep.Grammar.Item
import Lockstep.Main
import Lockstep.Report.Render
import Lockstep.Settings.Text
import Lockstep.Proofs.Tree.Preorder
import Lockstep.Proofs.Tree.Nodes
import Lockstep.Proofs.Branch.Tally
import Lockstep.Proofs.Branch.Chain
import Lockstep.Proofs.Branch.Switch
import Lockstep.Proofs.Branch.Execution
import Lockstep.Proofs.Branch.Soundness
import Lockstep.Proofs.Analysis.Step
import Lockstep.Proofs.Analysis.Raised
import Lockstep.Proofs.Taint.Visible
import Lockstep.Proofs.Taint.Derivation
import Lockstep.Proofs.Taint.Provenance
import Lockstep.Proofs.Naming.Mentions
import Lockstep.Proofs.Naming.Levels
import Lockstep.Proofs.Naming.Scoping
import Lockstep.Proofs.Naming.Lexical
import Lockstep.Proofs.Calls.Paths
import Lockstep.Proofs.Calls.Run
import Lockstep.Proofs.Grammar.Reads
import Lockstep.Proofs.Grammar.Rules
import Lockstep.Proofs.Grammar.Placement
import Lockstep.Proofs.Naming.Order
import Lockstep.Proofs.Calls.Relation
import Lockstep.Proofs.Calls.Recursion
import Lockstep.Proofs.Check.Constructs
import Lockstep.Proofs.Check.Counted
import Lockstep.Proofs.Analysis.Agreement
import Lockstep.Proofs.Analysis.Independence
import Lockstep.Proofs.Taint.Policy
import Lockstep.Proofs.Event.Coverage
import Lockstep.Proofs.Calls.Attribution
import Lockstep.Proofs.Grammar.Rooted
import Lockstep.Proofs.Naming.Actions
import Lockstep.Proofs.Grammar.Ranges
import Lockstep.Proofs.Token.Gaps
import Lockstep.Proofs.Token.Literals
import Lockstep.Proofs.Token.Cuts
import Lockstep.Proofs.Grammar.Outcome
import Lockstep.Proofs.Grammar.Written
import Lockstep.Proofs.Grammar.Precedence
import Lockstep.Proofs.Token.Spelled
import Lockstep.Proofs.Grammar.RoundTrip
import Lockstep.Proofs.Token.Brackets
import Lockstep.Proofs.Grammar.Enclosed
import Lockstep.Proofs.Grammar.Items
import Lockstep.Proofs.Grammar.Recovery
import Lockstep.Proofs.Calls.Search
import Lockstep.Proofs.Event.Positions
import Lockstep.Proofs.Event.Told
import Lockstep.Proofs.Json.Spelling
import Lockstep.Proofs.Json.Reading
import Lockstep.Proofs.Settings.RoundTrip
import Lockstep.Proofs.Json.Document
import Lockstep.Proofs.Text.OneLine
import Lockstep.Proofs.Token.Shown
import Lockstep.Proofs.Grammar.Built
import Lockstep.Proofs.Grammar.Wording
import Lockstep.Proofs.Naming.Wording
import Lockstep.Proofs.Check.Wording
import Lockstep.Proofs.Analysis.Wording
import Lockstep.Proofs.Report.Formats
import Lockstep.Proofs.Naming.Renaming
import Lockstep.Proofs.Analysis.Renaming
import Lockstep.Proofs.Taint.Replay
import Lockstep.Proofs.Taint.Trace
import Lockstep.Proofs.Tree.Ways
import Lockstep.Proofs.Branch.Imbalance
import Lockstep.Proofs.Grammar.Skipping
import Lockstep.Proofs.Naming.Structures
import Lockstep.Proofs.Naming.Tables
import Lockstep.Proofs.Naming.Bindings
import Lockstep.Proofs.Naming.Members
import Lockstep.Proofs.Grammar.Reports
import Lockstep.Proofs.Grammar.Casts
import Lockstep.Proofs.Text.Locations
import Lockstep.Proofs.Grammar.Dangling
import Lockstep.Proofs.Token.Lines
import Lockstep.Proofs.Check.Kernels
import Lockstep.Proofs.Grammar.Builtin
import Lockstep.Proofs.Taint.FirstHit
import Lockstep.Proofs.Token.Integers
import Lockstep.Proofs.Grammar.Progress
