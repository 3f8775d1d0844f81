import ShuntingYard.Arithmetic
import ShuntingYard.Binary
import ShuntingYard.Conversion
import ShuntingYard.Decimal.Reading
import ShuntingYard.Decimal.Shortest
import ShuntingYard.Engine
import ShuntingYard.Error
import ShuntingYard.Journal
import ShuntingYard.Main
import ShuntingYard.Number
import ShuntingYard.Piece
import ShuntingYard.Program
import ShuntingYard.Program.Evaluate
import ShuntingYard.Proofs.Arithmetic.Exact
import ShuntingYard.Proofs.Arithmetic.Factorial
import ShuntingYard.Proofs.Arithmetic.Faults
import ShuntingYard.Proofs.Arithmetic.Kinds
import ShuntingYard.Proofs.Arithmetic.Power
import ShuntingYard.Proofs.Arithmetic.Words
import ShuntingYard.Proofs.Binary.HalfEven
import ShuntingYard.Proofs.Binary.Rounding
import ShuntingYard.Proofs.Binary.Value
import ShuntingYard.Proofs.Binary.Whole
import ShuntingYard.Proofs.Conversion
import ShuntingYard.Proofs.Course
import ShuntingYard.Proofs.Decimal.Continuation
import ShuntingYard.Proofs.Decimal.Longest
import ShuntingYard.Proofs.Directory
import ShuntingYard.Proofs.Engine.Accounting
import ShuntingYard.Proofs.Engine.Afresh
import ShuntingYard.Proofs.Engine.BuiltIn
import ShuntingYard.Proofs.Engine.Composition
import ShuntingYard.Proofs.Engine.Cursor
import ShuntingYard.Proofs.Engine.Dispatch
import ShuntingYard.Proofs.Engine.Evaluation
import ShuntingYard.Proofs.Engine.Extension
import ShuntingYard.Proofs.Engine.Faults
import ShuntingYard.Proofs.Engine.Heights
import ShuntingYard.Proofs.Engine.Kinds
import ShuntingYard.Proofs.Engine.Lookups
import ShuntingYard.Proofs.Engine.Parentheses
import ShuntingYard.Proofs.Engine.Parsing
import ShuntingYard.Proofs.Engine.Replay
import ShuntingYard.Proofs.Engine.Rereading
import ShuntingYard.Proofs.Engine.Spacing
import ShuntingYard.Proofs.Engine.Trace
import ShuntingYard.Proofs.Expression.Factorial
import ShuntingYard.Proofs.Expression.Rendering
import ShuntingYard.Proofs.Expression.Whole
import ShuntingYard.Proofs.Fixed
import ShuntingYard.Proofs.Program.Kinds
import ShuntingYard.Proofs.Program.Progress
import ShuntingYard.Proofs.Program.Reduction
import ShuntingYard.Proofs.Program.Stacking
import ShuntingYard.Proofs.Program.Tree
import ShuntingYard.Proofs.Program.Valuation
import ShuntingYard.Proofs.Registry.Accounting
import ShuntingYard.Proofs.Registry.Asking
import ShuntingYard.Proofs.Registry.Descent
import ShuntingYard.Proofs.Registry.Extension
import ShuntingYard.Proofs.Registry.Frozen
import ShuntingYard.Proofs.Registry.Lookup
import ShuntingYard.Proofs.Registry.Resolution
import ShuntingYard.Proofs.Registry.Settling
import ShuntingYard.Proofs.Registry.View
import ShuntingYard.Proofs.Scanner.Cursor
import ShuntingYard.Proofs.Scanner.Reading
import ShuntingYard.Proofs.Session.Independence
import ShuntingYard.Proofs.Session.Lines
import ShuntingYard.Proofs.Spelling
import ShuntingYard.Proofs.Yard.Balance
import ShuntingYard.Proofs.Yard.Cutting
import ShuntingYard.Proofs.Yard.Enclosing
import ShuntingYard.Proofs.Yard.Firmness
import ShuntingYard.Proofs.Yard.Halt
import ShuntingYard.Proofs.Yard.Moment
import ShuntingYard.Proofs.Yard.Order
import ShuntingYard.Proofs.Yard.Passage
import ShuntingYard.Proofs.Yard.Placement
import ShuntingYard.Proofs.Yard.Reading
import ShuntingYard.Proofs.Yard.Requests
import ShuntingYard.Proofs.Yard.Spacing
import ShuntingYard.Proofs.Yard.Stack
import ShuntingYard.Proofs.Yard.Trace
import ShuntingYard.Provider
import ShuntingYard.Provider.Table
import ShuntingYard.Registry
import ShuntingYard.Scanner
import ShuntingYard.Scanner.Request
import ShuntingYard.Session
import ShuntingYard.Yard
