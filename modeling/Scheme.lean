import Scheme.Text.Case
import Scheme.Text.Alphabetic
import Scheme.Text.Blank
import Scheme.Text.Numeric
import Scheme.Number.Binary
import Scheme.Number.Decimal
import Scheme.Number.Integer
import Scheme.Number.Numeral
import Scheme.Cursor
import Scheme.Token.Scan
import Scheme.Datum
import Scheme.Datum.Reader
import Scheme.Primitive
import Scheme.Primitive.Table
import Scheme.Heap
import Scheme.Heap.Equality
import Scheme.Heap.Reach
import Scheme.Heap.Spine
import Scheme.Heap.Text
import Scheme.Host
import Scheme.Scope
import Scheme.Port
import Scheme.Primitive.Characters
import Scheme.Primitive.Direct
import Scheme.Machine
import Scheme.Machine.Calls
import Scheme.Machine.Run
import Scheme.Interpreter
import Scheme.CommandLine
import Scheme.Main
import Scheme.Proofs.Unfolding
import Scheme.Proofs.UnfoldedText
import Scheme.Proofs.Reading
import Scheme.Proofs.DepthLimit
import Scheme.Proofs.DirectStyle
import Scheme.Proofs.Refinement
import Scheme.Proofs.Extents
import Scheme.Proofs.Levels
import Scheme.Proofs.Composition
import Scheme.Proofs.Sessions
import Scheme.Text.Backspace
import Scheme.Proofs.CodeRuns
import Scheme.Proofs.Conjunctions
import Scheme.Proofs.Disjunctions
import Scheme.Proofs.Expander
import Scheme.Proofs.TemplateExpansion
import Scheme.Proofs.WrittenTexts
import Scheme.Proofs.Activations
import Scheme.Proofs.Conversations
import Scheme.Proofs.Definitions
import Scheme.Proofs.PreludeCode
import Scheme.Proofs.Quasiquotation
import Scheme.Proofs.Reachability
import Scheme.Proofs.StructuralEquality
import Scheme.Proofs.HeapPolicies
import Scheme.Proofs.Printing
import Scheme.Proofs.MachinePolicies
import Scheme.Proofs.PrimitiveFrames
import Scheme.Proofs.ClosedHeaps
import Scheme.Proofs.CheckedArithmetic
import Scheme.Proofs.EndlessSpines
import Scheme.Proofs.Traps
import Scheme.Proofs.Panics
import Scheme.Proofs.SpineTraversals
import Scheme.Proofs.Escapes
import Scheme.Proofs.InPlaceExpansion
import Scheme.Proofs.NestedScopes
import Scheme.Proofs.Agreement
import Scheme.Proofs.CallsAndApplications
import Scheme.Proofs.SingleExpansions
import Scheme.Proofs.DrainedPorts
import Scheme.Proofs.TailCalls
import Scheme.Proofs.Loops
import Scheme.Proofs.ClosedPorts
import Scheme.Proofs.Mappings
import Scheme.Proofs.Connectives
import Scheme.Proofs.ShortCircuits
import Scheme.Proofs.LocalBindings
import Scheme.Proofs.RecursiveBindings
import Scheme.Proofs.CommonDivisors
import Scheme.Proofs.RadixNumerals
import Scheme.Proofs.StringOrders
import Scheme.Proofs.IterationForms
import Scheme.Proofs.Iterations
import Scheme.Proofs.Remainders
import Scheme.Proofs.ParameterLists
import Scheme.Proofs.ReadingProgress
import Scheme.Proofs.LetterCase
import Scheme.Proofs.Tapes
import Scheme.Proofs.SettledPromises
