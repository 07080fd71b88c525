import Tracepoint.Main
import Tracepoint.Proofs.Token.Lines
import Tracepoint.Proofs.Token.Position
import Tracepoint.Proofs.Token.Coverage
import Tracepoint.Proofs.Token.Spans
import Tracepoint.Proofs.Token.Checked
import Tracepoint.Proofs.Token.Indexing
import Tracepoint.Proofs.Token.Numerals
import Tracepoint.Proofs.Token.Longest
import Tracepoint.Proofs.Token.Joining
import Tracepoint.Proofs.Token.Quoting
import Tracepoint.Proofs.Token.Words
import Tracepoint.Proofs.Grammar.Steps
import Tracepoint.Proofs.Grammar.Placement
import Tracepoint.Proofs.Grammar.Composition
import Tracepoint.Proofs.Grammar.Places
import Tracepoint.Proofs.Grammar.Lockstep
import Tracepoint.Proofs.Grammar.Jumps
import Tracepoint.Proofs.Grammar.Lines
import Tracepoint.Proofs.Grammar.Bracketing
import Tracepoint.Proofs.Grammar.Spelling
import Tracepoint.Proofs.Grammar.Recognition
import Tracepoint.Proofs.Grammar.PrintedKeys
import Tracepoint.Proofs.Grammar.Openings
import Tracepoint.Proofs.Grammar.Nodes
import Tracepoint.Proofs.Grammar.Guarded
import Tracepoint.Proofs.Grammar.Following
import Tracepoint.Proofs.Grammar.Safety
import Tracepoint.Proofs.Grammar.Careful
import Tracepoint.Proofs.Grammar.Faults
import Tracepoint.Proofs.Grammar.Intake
import Tracepoint.Proofs.Grammar.Termination
import Tracepoint.Proofs.Grammar.Naming
import Tracepoint.Proofs.Grammar.Functions
import Tracepoint.Proofs.Grammar.Headings
import Tracepoint.Proofs.Grammar.Paths
import Tracepoint.Proofs.Grammar.Growth
import Tracepoint.Proofs.Code.Growth
import Tracepoint.Proofs.Code.Assembly
import Tracepoint.Proofs.Code.Image
import Tracepoint.Proofs.Code.Plan
import Tracepoint.Proofs.Code.Regions
import Tracepoint.Proofs.Code.Flow
import Tracepoint.Proofs.Code.Routine
import Tracepoint.Proofs.Code.Emission
import Tracepoint.Proofs.Code.Table
import Tracepoint.Proofs.Code.Patching
import Tracepoint.Proofs.Code.Rounds
import Tracepoint.Proofs.Code.Assembled
import Tracepoint.Proofs.Code.WellFormed
import Tracepoint.Proofs.Code.Lines
import Tracepoint.Proofs.Code.Closures
import Tracepoint.Proofs.Code.Mirror
import Tracepoint.Proofs.Code.Encoding
import Tracepoint.Proofs.Code.Straight
import Tracepoint.Proofs.Code.Grouping
import Tracepoint.Proofs.Code.Interning
import Tracepoint.Proofs.Code.Construction
import Tracepoint.Proofs.Code.LineSearch
import Tracepoint.Proofs.Code.Buildup
import Tracepoint.Proofs.Debugger.Actions
import Tracepoint.Proofs.Debugger.Transparency
import Tracepoint.Proofs.Debugger.Bursts
import Tracepoint.Proofs.Debugger.Bounds
import Tracepoint.Controller
import Tracepoint.Proofs.Debugger.Sources
import Tracepoint.Proofs.Debugger.Coherence
import Tracepoint.Proofs.Debugger.Stored
import Tracepoint.Proofs.Debugger.Independence
import Tracepoint.Proofs.Evaluation.Evaluator
import Tracepoint.Proofs.Store.Contents
import Tracepoint.Proofs.Store.Soundness
import Tracepoint.Proofs.Store.Nesting
import Tracepoint.Proofs.Store.Permanence
import Tracepoint.Proofs.Store.References
import Tracepoint.Proofs.Store.Chains
import Tracepoint.Proofs.Store.Environment
import Tracepoint.Proofs.Store.Atomicity
import Tracepoint.Proofs.Store.Locations
import Tracepoint.Proofs.Machine.Steps
import Tracepoint.Proofs.Code.JumpPatching
import Tracepoint.Proofs.Machine.Locality
import Tracepoint.Proofs.Machine.Moves
import Tracepoint.Proofs.Machine.Frames
import Tracepoint.Proofs.Machine.Discipline
import Tracepoint.Proofs.Evaluation.Simulation
import Tracepoint.Proofs.Evaluation.Expressions
import Tracepoint.Proofs.Evaluation.Statements
import Tracepoint.Proofs.Evaluation.Correctness
import Tracepoint.Proofs.Evaluation.Safety
import Tracepoint.Proofs.Machine.Calls
import Tracepoint.Proofs.Machine.Integrity
import Tracepoint.Proofs.Machine.Lines
import Tracepoint.Proofs.Machine.References
import Tracepoint.Proofs.Machine.Bindings
import Tracepoint.Proofs.Value.Rendering
import Tracepoint.Proofs.Value.Integers
import Tracepoint.Proofs.Value.Doubles
import Tracepoint.Proofs.Session.Sight
import Tracepoint.Proofs.Session.Copying
import Tracepoint.Proofs.Session.Unfolding
import Tracepoint.Proofs.Session.Extent
import Tracepoint.Proofs.Session.Keys
import Tracepoint.Proofs.Machine.Straight
import Tracepoint.Proofs.Debugger.Stepping
import Tracepoint.Proofs.Debugger.Straight
import Tracepoint.Proofs.Command.Transcript
import Tracepoint.Proofs.Code.FrontEnd
import Tracepoint.Proofs.Code.Tours
import Tracepoint.Proofs.Machine.Atomicity
import Tracepoint.Proofs.Debugger.Lines
import Tracepoint.Proofs.Machine.Locations
import Tracepoint.Proofs.Machine.NumberKeys
import Tracepoint.Proofs.Evaluation.NumericKeys
