import StashMachine.Budget
import StashMachine.Class
import StashMachine.Closure
import StashMachine.CommandLine
import StashMachine.Control
import StashMachine.Decimal.Binary
import StashMachine.Decimal.Shortest
import StashMachine.Decimal.Text
import StashMachine.Directory
import StashMachine.Elaboration.Class
import StashMachine.Elaboration.Code
import StashMachine.Elaboration.Order
import StashMachine.Environment
import StashMachine.Fault
import StashMachine.Grammar.Cursor
import StashMachine.Grammar.Java
import StashMachine.Grammar.Pattern
import StashMachine.Grammar.Rule
import StashMachine.Grammar.Trail
import StashMachine.Grammar.Tree
import StashMachine.Jump
import StashMachine.Machine.Classes
import StashMachine.Machine.Dispatch
import StashMachine.Machine.Program
import StashMachine.Machine.Registers
import StashMachine.Machine.Run
import StashMachine.Machine.Statements
import StashMachine.Machine.Variables
import StashMachine.Main
import StashMachine.Native.Basic
import StashMachine.Native.Stock
import StashMachine.Proofs.Activation
import StashMachine.Proofs.Agenda
import StashMachine.Proofs.Assignability
import StashMachine.Proofs.Balance
import StashMachine.Proofs.Bindings
import StashMachine.Proofs.Bodies
import StashMachine.Proofs.CallSteps
import StashMachine.Proofs.Calls
import StashMachine.Proofs.ClassOrder
import StashMachine.Proofs.ClassQueue
import StashMachine.Proofs.Completion
import StashMachine.Proofs.Constructed
import StashMachine.Proofs.Construction
import StashMachine.Proofs.Counterparts
import StashMachine.Proofs.Creation
import StashMachine.Proofs.Decoding
import StashMachine.Proofs.Delegation
import StashMachine.Proofs.Derivation
import StashMachine.Proofs.Descent
import StashMachine.Proofs.Descriptors
import StashMachine.Proofs.Effects
import StashMachine.Proofs.Elaborated
import StashMachine.Proofs.Enclosing
import StashMachine.Proofs.Evaluator
import StashMachine.Proofs.ExprKinds
import StashMachine.Proofs.ExprReading
import StashMachine.Proofs.ExprRoundTrip
import StashMachine.Proofs.Faults
import StashMachine.Proofs.FieldTypes
import StashMachine.Proofs.Finish
import StashMachine.Proofs.Flow
import StashMachine.Proofs.Growth
import StashMachine.Proofs.Headers
import StashMachine.Proofs.Heap
import StashMachine.Proofs.Initialisation
import StashMachine.Proofs.Integral
import StashMachine.Proofs.IntegralUpdates
import StashMachine.Proofs.Invocations
import StashMachine.Proofs.Kinds
import StashMachine.Proofs.Leads
import StashMachine.Proofs.Lexis
import StashMachine.Proofs.Likeness
import StashMachine.Proofs.Limits
import StashMachine.Proofs.Literals
import StashMachine.Proofs.Locality
import StashMachine.Proofs.Locals
import StashMachine.Proofs.Lockstep
import StashMachine.Proofs.Lookup
import StashMachine.Proofs.Matching
import StashMachine.Proofs.Names
import StashMachine.Proofs.Objects
import StashMachine.Proofs.Operands
import StashMachine.Proofs.OperatorTypes
import StashMachine.Proofs.Orders
import StashMachine.Proofs.Outcomes
import StashMachine.Proofs.Overload
import StashMachine.Proofs.ParallelFrames
import StashMachine.Proofs.ParallelRuns
import StashMachine.Proofs.ParallelSteps
import StashMachine.Proofs.Parameters
import StashMachine.Proofs.Parsed
import StashMachine.Proofs.Parts
import StashMachine.Proofs.Phases
import StashMachine.Proofs.Places
import StashMachine.Proofs.ProgramReadBack
import StashMachine.Proofs.ProgramRoundTrip
import StashMachine.Proofs.ProgramText
import StashMachine.Proofs.Prologues
import StashMachine.Proofs.Protocol
import StashMachine.Proofs.Qualified
import StashMachine.Proofs.Qualifiers
import StashMachine.Proofs.ReadBack
import StashMachine.Proofs.Reading
import StashMachine.Proofs.Refinement
import StashMachine.Proofs.Registry
import StashMachine.Proofs.Renaming
import StashMachine.Proofs.Rendering
import StashMachine.Proofs.Results
import StashMachine.Proofs.Resumption
import StashMachine.Proofs.Roles
import StashMachine.Proofs.Runs
import StashMachine.Proofs.Scopes
import StashMachine.Proofs.Sequence
import StashMachine.Proofs.Shapes
import StashMachine.Proofs.ShortCircuit
import StashMachine.Proofs.Signatures
import StashMachine.Proofs.Sound
import StashMachine.Proofs.SourceReading
import StashMachine.Proofs.Spellings
import StashMachine.Proofs.StaticFields
import StashMachine.Proofs.StaticTypes
import StashMachine.Proofs.StepLogic
import StashMachine.Proofs.StmtReadBack
import StashMachine.Proofs.StmtSteps
import StashMachine.Proofs.Store
import StashMachine.Proofs.Stored
import StashMachine.Proofs.Timeline
import StashMachine.Proofs.Tokens
import StashMachine.Proofs.Track
import StashMachine.Proofs.TypeOrder
import StashMachine.Proofs.TypedStore
import StashMachine.Proofs.TypingSteps
import StashMachine.Proofs.Unwind
import StashMachine.Proofs.Updates
import StashMachine.Proofs.ValueSteps
import StashMachine.Proofs.Widening
import StashMachine.Resolution.Overload
import StashMachine.Resolution.Typing
import StashMachine.Signature
import StashMachine.Stack
import StashMachine.Stash
import StashMachine.Syntax.ClassDecl
import StashMachine.Syntax.Expr
import StashMachine.Syntax.Literal
import StashMachine.Syntax.OfTree
import StashMachine.Syntax.Operator
import StashMachine.Syntax.Path
import StashMachine.Syntax.Source
import StashMachine.Syntax.Stmt
import StashMachine.Syntax.TypeName
import StashMachine.Text.Position
import StashMachine.Text.Quoted
import StashMachine.Text.Shapeless
import StashMachine.Value.Basic
import StashMachine.Value.Conversion
import StashMachine.Value.Number
import StashMachine.Value.Operators
