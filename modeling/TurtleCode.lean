import TurtleCode.Arithmetic
import TurtleCode.Assembly
import TurtleCode.Code.Access
import TurtleCode.Code.Flow
import TurtleCode.Code.Frame
import TurtleCode.Code.Header
import TurtleCode.Code.Startup
import TurtleCode.Code.Value
import TurtleCode.CommandLine
import TurtleCode.Decimal.Binary
import TurtleCode.Decimal.Shortest
import TurtleCode.Fault
import TurtleCode.Generate
import TurtleCode.Json.Draft
import TurtleCode.Json.Flaw
import TurtleCode.Json.Number
import TurtleCode.Json.Place
import TurtleCode.Json.Reader
import TurtleCode.Json.Token
import TurtleCode.Json.Value
import TurtleCode.Link.Calls
import TurtleCode.Link.Cleanup
import TurtleCode.Link.Lower
import TurtleCode.Main
import TurtleCode.Memory.Extent
import TurtleCode.Memory.Map
import TurtleCode.Opcode
import TurtleCode.Options
import TurtleCode.Pcode
import TurtleCode.Pcode.Bytes
import TurtleCode.Pcode.Listing
import TurtleCode.Pcode.Statistics
import TurtleCode.Text.Combining
import TurtleCode.Text.Decimal
import TurtleCode.Text.Printable
import TurtleCode.Text.Quoted
import TurtleCode.Trace
import TurtleCode.Tree.Expression
import TurtleCode.Tree.Reader
import TurtleCode.Tree.Routine
import TurtleCode.Tree.Statement
import TurtleCode.Tree.Types
import TurtleCode.Tree.Variable
import TurtleCode.Tree.Writer
import TurtleCode.Word
import TurtleCode.Proofs.Sites
import TurtleCode.Proofs.CodeLaw
import TurtleCode.Proofs.LineMachine
import TurtleCode.Proofs.Structured
import TurtleCode.Proofs.ControlFlow
import TurtleCode.Proofs.Linking
import TurtleCode.Proofs.Layout
import TurtleCode.Proofs.Acceptance
import TurtleCode.Proofs.Course
import TurtleCode.Proofs.Integrity
import TurtleCode.Proofs.Operands
import TurtleCode.Proofs.Depth
import TurtleCode.Proofs.Extents
import TurtleCode.Proofs.MemoryMap
import TurtleCode.Proofs.StackMachine
import TurtleCode.Proofs.Evaluation
import TurtleCode.Proofs.Storage
import TurtleCode.Proofs.Headers
import TurtleCode.Proofs.Initialisation
import TurtleCode.Proofs.Elements
import TurtleCode.Proofs.CallTargets
import TurtleCode.Proofs.HeapStrings
import TurtleCode.Proofs.Execution
import TurtleCode.Proofs.Results
import TurtleCode.Proofs.Correspondence
import TurtleCode.Proofs.Skeleton
import TurtleCode.Proofs.Nesting
import TurtleCode.Proofs.Encoding
import TurtleCode.Proofs.Drafts
import TurtleCode.Proofs.Readers
import TurtleCode.Proofs.RoundTrip
import TurtleCode.Proofs.Relocation
import TurtleCode.Proofs.References
import TurtleCode.Proofs.Separation
import TurtleCode.Proofs.Arguments
import TurtleCode.Proofs.Overflow
import TurtleCode.Proofs.Arrangement
import TurtleCode.Proofs.Resolution
import TurtleCode.Proofs.Cleaning
import TurtleCode.Proofs.Commutation
import TurtleCode.Proofs.Grammar
import TurtleCode.Proofs.Listings
