import StackLisp.Arena.Collect

/-!
# Machine states

A **machine** runs code on a stack of values.  Each call has a **frame**: the code that is
run, the position in it and the scope that names are looked up in.  The machine also keeps
the texts that were put out, the number of steps taken, and the fault that stopped it.

New scopes are counted.  When the count reaches the machine's threshold it starts again
from zero, and all scopes are dropped that the machine can no longer reach.  A threshold
of zero is never reached, and a negative one always.
-/

namespace StackLisp

/-- One call that has not returned. -/
structure Frame where
  code : Code
  /-- The position of the next instruction.  A negative one counts back from the end. -/
  ip : Int
  scope : ScopeId

/-- The state of a machine between two steps. -/
structure Machine where
  arena : Arena
  /-- The values, the top of the stack first. -/
  stack : List Value
  /-- The calls, the innermost first. -/
  frames : List Frame
  /-- The texts put out so far. -/
  output : List String
  /-- The number of steps that succeeded. -/
  steps : Nat
  /-- The fault of the step that failed. -/
  fault : Option Fault
  /-- The number of new scopes after which scopes are collected; zero for never. -/
  gcThreshold : Int
  /-- The number of new scopes since scopes were last collected for that reason. -/
  allocations : Nat

namespace Machine

/-- A machine with nothing to run. -/
def idle (arena : Arena) (gcThreshold : Int) : Machine :=
  ⟨arena, [], [], [], 0, none, gcThreshold, 0⟩

/-- Adds a frame that runs code in a scope, which has to exist. -/
def load (m : Machine) (code : Code) (scope : ScopeId) : Except Fault Machine := do
  let _ ← m.arena.get scope
  return { m with frames := ⟨code, 0, scope⟩ :: m.frames }

/-- A machine that is about to run a program in the global scope. -/
def ofProgram (code : Code) (arena : Arena) (gcThreshold : Int) : Machine :=
  { idle arena gcThreshold with frames := [⟨code, 0, Arena.globalId⟩] }

/-- Has the machine nothing left to run? -/
def halted (m : Machine) : Bool :=
  m.frames.isEmpty

/-- The result of a machine that has finished: the top of its stack. -/
def result (m : Machine) : Except Fault Value :=
  match m.frames, m.stack with
  | _ :: _, _ => .error .unfinished
  | [], [] => .error .noResult
  | [], v :: _ => .ok v

/-- The top of the stack. -/
def top (m : Machine) : Except Fault Value :=
  match m.stack with
  | [] => .error .emptyStack
  | v :: _ => .ok v

/-- The top of the stack, and the machine without it. -/
def pop (m : Machine) : Except Fault (Value × Machine) :=
  match m.stack with
  | [] => .error .emptyStack
  | v :: rest => .ok (v, { m with stack := rest })

/-- The machine with a value on top of the stack. -/
def push (m : Machine) (v : Value) : Machine :=
  { m with stack := v :: m.stack }

/-! ## Collecting -/

/-- The closures among the constants that code pushes. -/
def closureConstants (code : Code) : List Value :=
  code.filterMap fun
    | .pushConst (.closure params code scope) => some (.closure params code scope)
    | _ => none

/-- The values from which scopes are reached: those on the stack and the closures that the
frames push. -/
def rootValues (m : Machine) : List Value :=
  m.stack ++ m.frames.flatMap fun f => closureConstants f.code

/-- **Drops the scopes that the machine cannot reach.** -/
def collectGarbage (m : Machine) : Machine :=
  { m with arena := m.arena.collect (m.frames.map (·.scope)) m.rootValues }

/-- The number of scopes that the machine cannot reach. -/
def garbageCount (m : Machine) : Nat :=
  (m.arena.garbage (m.frames.map (·.scope)) m.rootValues).size

/-- A new scope is counted, and scopes are collected if it is time. -/
def noteAllocation (m : Machine) : Machine :=
  let count := m.allocations + 1
  if m.gcThreshold ≠ 0 ∧ m.gcThreshold ≤ count then
    ({ m with allocations := 0 } : Machine).collectGarbage
  else { m with allocations := count }

end Machine

end StackLisp
