import StackLisp.Arena.Basic
import StackLisp.Arena.Collect
import StackLisp.Bindings
import StackLisp.Code.Bound
import StackLisp.Code.Compile
import StackLisp.Code.Error
import StackLisp.Code.Listing
import StackLisp.Error
import StackLisp.Fault
import StackLisp.Form
import StackLisp.Image
import StackLisp.Location
import StackLisp.Machine.Basic
import StackLisp.Machine.Run
import StackLisp.Machine.Step
import StackLisp.Macro.Basic
import StackLisp.Macro.Expand
import StackLisp.Number.Arithmetic
import StackLisp.Number.Decimal
import StackLisp.Number.Double
import StackLisp.Number.Numeral
import StackLisp.Number.Shortest
import StackLisp.Parameters
import StackLisp.Path
import StackLisp.Prelude
import StackLisp.Primitive
import StackLisp.Proofs.Arena.Find
import StackLisp.Proofs.Arena.Reached
import StackLisp.Proofs.Code.Constants
import StackLisp.Proofs.Code.Emits
import StackLisp.Proofs.Code.Height
import StackLisp.Proofs.Correctness
import StackLisp.Proofs.Evaluation
import StackLisp.Proofs.Form
import StackLisp.Proofs.Machine.Collection
import StackLisp.Proofs.Machine.Discipline
import StackLisp.Proofs.Machine.Effect
import StackLisp.Proofs.Machine.Failure
import StackLisp.Proofs.Machine.Kept
import StackLisp.Proofs.Machine.Safety
import StackLisp.Proofs.Machine.Simulation
import StackLisp.Proofs.Machine.Steps
import StackLisp.Proofs.Machine.WellFormed
import StackLisp.Proofs.Macro.Expansion
import StackLisp.Proofs.Primitive
import StackLisp.Proofs.Session.Collection
import StackLisp.Proofs.Session.Errors
import StackLisp.Session
import StackLisp.Settings
import StackLisp.Text.Blank
import StackLisp.Text.Digit
import StackLisp.Text.Integer
import StackLisp.Text.Printable
import StackLisp.Text.Quoted
import StackLisp.Token
import StackLisp.Value.Basic
import StackLisp.Value.Equality
import StackLisp.Value.Inspect
import StackLisp.Value.List
import StackLisp.Value.Printer
import StackLisp.Proofs.Machine.Calls
import StackLisp.Proofs.Code.Names
import StackLisp.Proofs.Machine.Shadowing
import StackLisp.Proofs.Machine.InPlace
import StackLisp.Proofs.Code.Joined
import StackLisp.Proofs.Machine.Relocation
import StackLisp.Proofs.Machine.Sequel
import StackLisp.Proofs.Macro.Relocation
import StackLisp.Proofs.Session.Concatenation
import StackLisp.Proofs.Grammar
import StackLisp.Proofs.Number.Shortest
import StackLisp.Proofs.Number.Numeral
import StackLisp.Proofs.Printing
import StackLisp.Proofs.Machine.Scoping
import StackLisp.Proofs.Matching
import StackLisp.Proofs.Value.Bare
import StackLisp.Proofs.Code.Relocation
import StackLisp.Proofs.Machine.Twin
import StackLisp.Proofs.Session.Layout
import StackLisp.Proofs.Macro.Normal
import StackLisp.Proofs.Arena.History
import StackLisp.Proofs.Arena.Walk
import StackLisp.Proofs.Machine.Roots
import StackLisp.Proofs.Token
import StackLisp.Proofs.Source
import StackLisp.Proofs.Macro.Conservative
import StackLisp.Proofs.Value.Equality
import StackLisp.Proofs.Machine.Budget
import StackLisp.Proofs.Locations
import StackLisp.Proofs.Prelude.Lists
import StackLisp.Proofs.Prelude.Macros
import StackLisp.Proofs.Machine.Duration
import StackLisp.Proofs.Parameters
import StackLisp.Proofs.Machine.Threshold
import StackLisp.Proofs.Number.Plain
