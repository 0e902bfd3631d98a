import Quill.Bindings
import Quill.Cli
import Quill.Cli.Arguments
import Quill.Cli.Repl
import Quill.Error
import Quill.Evaluator
import Quill.Evaluator.Calls
import Quill.Evaluator.Expressions
import Quill.Evaluator.Operators
import Quill.Evaluator.Statements
import Quill.Grammar.Cursor
import Quill.Grammar.Expression
import Quill.Grammar.Program
import Quill.Grammar.Statement
import Quill.Heap
import Quill.Heap.Classes
import Quill.Heap.Objects
import Quill.Heap.Scopes
import Quill.Json
import Quill.Lexeme
import Quill.Machine
import Quill.Machine.Sink
import Quill.Main
import Quill.Native
import Quill.Number.Double
import Quill.Number.Reader
import Quill.Number.Shortest
import Quill.Number.Text
import Quill.Resolution
import Quill.Resolution.Distances
import Quill.Session
import Quill.Source
import Quill.Text.Hidden
import Quill.Text.Quoted
import Quill.Text.Utf8
import Quill.Token
import Quill.Token.Scan
import Quill.Token.Stream
import Quill.Tree
import Quill.Tree.Printer
import Quill.Tree.References
import Quill.Value
import Quill.Proofs.Evaluator.Calm
import Quill.Proofs.Evaluator.Changes
import Quill.Proofs.Evaluator.Confined
import Quill.Proofs.Evaluator.Declaring
import Quill.Proofs.Evaluator.Depth
import Quill.Proofs.Evaluator.Dialogue
import Quill.Proofs.Evaluator.ForLoops
import Quill.Proofs.Evaluator.Fuel
import Quill.Proofs.Evaluator.Hosts
import Quill.Proofs.Evaluator.Initializers
import Quill.Proofs.Evaluator.Lawful
import Quill.Proofs.Evaluator.Lookups
import Quill.Proofs.Evaluator.Moments
import Quill.Proofs.Evaluator.Progress
import Quill.Proofs.Evaluator.Properties
import Quill.Proofs.Evaluator.Realm
import Quill.Proofs.Evaluator.Relay
import Quill.Proofs.Evaluator.Secure
import Quill.Proofs.Evaluator.Signals
import Quill.Proofs.Evaluator.Steps
import Quill.Proofs.Evaluator.Tidy
import Quill.Proofs.Evaluator.Traces
import Quill.Proofs.Evaluator.Truncation
import Quill.Proofs.Grammar.Completeness
import Quill.Proofs.Grammar.Concatenation
import Quill.Proofs.Grammar.Confinement
import Quill.Proofs.Grammar.Derivation
import Quill.Proofs.Grammar.Desugaring
import Quill.Proofs.Grammar.Faults
import Quill.Proofs.Grammar.InFront
import Quill.Proofs.Grammar.Invariants
import Quill.Proofs.Grammar.Lookahead
import Quill.Proofs.Grammar.Program
import Quill.Proofs.Grammar.Reading
import Quill.Proofs.Grammar.Rounds
import Quill.Proofs.Grammar.Soundness
import Quill.Proofs.Grammar.Unrolling
import Quill.Proofs.Heap.Assignment
import Quill.Proofs.Heap.Gains
import Quill.Proofs.Heap.Growth
import Quill.Proofs.Heap.Intact
import Quill.Proofs.Heap.Lookup
import Quill.Proofs.Heap.Methods
import Quill.Proofs.Heap.Natives
import Quill.Proofs.Lexeme.Classes
import Quill.Proofs.Lexeme.Cutting
import Quill.Proofs.Number.Rounding
import Quill.Proofs.Number.Shortest
import Quill.Proofs.Number.Texts
import Quill.Proofs.Resolution.Accepted
import Quill.Proofs.Resolution.Binding
import Quill.Proofs.Resolution.Lexical
import Quill.Proofs.Resolution.Locality
import Quill.Proofs.Resolution.LoopHeads
import Quill.Proofs.Resolution.Placement
import Quill.Proofs.Resolution.Registers
import Quill.Proofs.Resolution.Rules
import Quill.Proofs.Resolution.Scoping
import Quill.Proofs.Resolution.Sites
import Quill.Proofs.Resolution.Visit
import Quill.Proofs.Resolution.Walk
import Quill.Proofs.Session.Construction
import Quill.Proofs.Session.ControlFlow
import Quill.Proofs.Session.Declarations
import Quill.Proofs.Session.DepthLimit
import Quill.Proofs.Session.FullSinks
import Quill.Proofs.Session.History
import Quill.Proofs.Session.Identities
import Quill.Proofs.Session.Objects
import Quill.Proofs.Session.Outcomes
import Quill.Proofs.Session.Printing
import Quill.Proofs.Session.Properties
import Quill.Proofs.Session.Redefinition
import Quill.Proofs.Session.Registers
import Quill.Proofs.Session.ScopeChain
import Quill.Proofs.Session.Splitting
import Quill.Proofs.Session.Super
import Quill.Proofs.Session.Tables
import Quill.Proofs.Session.Tiers
import Quill.Proofs.Simulation.Calls
import Quill.Proofs.Simulation.Expressions
import Quill.Proofs.Simulation.Keeps
import Quill.Proofs.Simulation.Names
import Quill.Proofs.Simulation.Run
import Quill.Proofs.Simulation.Statements
import Quill.Proofs.Simulation.World
import Quill.Proofs.Text.Boundaries
import Quill.Proofs.Text.Encoding
import Quill.Proofs.Text.Lossy
import Quill.Proofs.Token.Characters
import Quill.Proofs.Token.Joining
import Quill.Proofs.Token.Rendering
import Quill.Proofs.Token.Scanning
import Quill.Proofs.Tree.Forms
import Quill.Proofs.Tree.Readback
import Quill.Proofs.Tree.Shape
import Quill.Proofs.Tree.Spelling
import Quill.Proofs.Tree.Tokens
import Quill.Proofs.Tree.Unambiguous
import Quill.Proofs.Tree.WellFormed
