import StackLisp.Error
import StackLisp.Machine.Run

/-!
# Macros

A **macro** is a function from forms to a form.  Its body is compiled once.  To expand a
use of it, a fresh machine runs the body, in an arena whose global scope binds the
arguments as they are written, and the one value that it leaves is the expansion.
-/

namespace StackLisp

/-- A macro. -/
structure Macro where
  name : String
  params : Parameters
  /-- The code of the body. -/
  code : Code
  /-- Where the macro was defined. -/
  loc : Option Location

namespace Macro

/-- **The expansion of one use**, read at `loc`, which is not expanded any further. -/
def expand (m : Macro) (fuel : Nat) (settings : Settings) (args : List Value)
    (loc : Option Location) : Except Error Value :=
  let fail (cause : CompileCause) : Except Error Value := .error (.compile ⟨cause, loc <|> m.loc⟩)
  match m.params.bind args with
  | .error fault => fail (.macroArguments m.name fault)
  | .ok bindings => do
    let threshold ← settings.gcThreshold.mapError .setting
    let limit ← settings.stepLimit.mapError .setting
    match (Machine.ofProgram m.code (.ofGlobals bindings) threshold).run fuel limit with
    | (_, .running) => .error .outOfFuel
    | (_, .fault fault) =>
      if fault.kind = .internal ∨ fault.kind = .range then .error (.fault fault)
      else fail (.macroFault fault)
    | (after, .value _) =>
      match after.stack with
      | [form] => .ok form
      | stack => fail (.macroValues stack.length)

end Macro

/-- The macros that are defined, at most one of each name. -/
structure MacroTable where
  macros : List Macro

namespace MacroTable

/-- No macros. -/
def empty : MacroTable := ⟨[]⟩

/-- The macro of a name. -/
def find? (t : MacroTable) (name : String) : Option Macro :=
  t.macros.find? (·.name == name)

/-- The macro that a value names. -/
def named? (t : MacroTable) (v : Value) : Option Macro :=
  v.symbol?.bind t.find?

/-- The table after a macro has been defined, in place of any other of its name. -/
def insert (t : MacroTable) (m : Macro) : MacroTable :=
  ⟨m :: t.macros.filter (·.name != m.name)⟩

/-- All macros in the order of their names. -/
def sorted (t : MacroTable) : List Macro :=
  t.macros.mergeSort fun a b => decide (a.name ≤ b.name)

end MacroTable

end StackLisp
