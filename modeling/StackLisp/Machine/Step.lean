import StackLisp.Machine.Basic
import StackLisp.Parameters
import StackLisp.Primitive
import StackLisp.Value.Equality
import StackLisp.Value.List

/-!
# Steps

A **step** executes one instruction.  Each instruction is a function from the machine,
whose innermost frame already points at the next instruction, to the machine after it, or
to a fault.  A step that fails changes nothing, so the frame still points at the
instruction that failed; only the fault is remembered, and every further step fails
with it.

Faults of the kind `range` are no such stops.  They are not remembered, and the machine can
be stepped on: where a position is before the code it stays there, and a call that finds no
function is passed over.
-/

namespace StackLisp.Machine

/-- A call of a closure: its arguments are bound in a new scope, and a frame is added that
runs its code there.  The values of the frame go on top of `stack`, where the closure
stays. -/
def callClosure (m : Machine) (params : Parameters) (code : Code) (scope : ScopeId)
    (args stack : List Value) : Except Fault Machine := do
  let bindings ← params.bind args
  let (id, arena) ← m.arena.allocate bindings scope
  return noteAllocation { m with
    arena := arena
    stack := stack
    frames := ⟨code, 0, id⟩ :: m.frames }

/-- **A call** of a value with arguments.  While the code of a closure runs, `stack` is below
its values; the value of a primitive goes on top of `rest`. -/
def callValue (m : Machine) (callee : Value) (args stack rest : List Value) :
    Except Fault Machine :=
  match callee with
  | .closure params code scope => m.callClosure params code scope args stack
  | .symbol name =>
    match Primitive.ofName? name with
    | some p => do
      let value ← p.apply args
      return { m with stack := value :: rest }
    | none => .error (.notFunction callee)
  | _ => .error (.notFunction callee)

/-- A call of the function below the topmost `argc` values of a stack with these values. -/
def callWith (m : Machine) (stack : List Value) (argc : Nat) : Except Fault Machine :=
  match stack.drop argc with
  | [] => .error (.callUnderflow argc stack.length)
  | callee :: below => m.callValue callee (stack.take argc).reverse (callee :: below) below

/-- A call without arguments of the function at a place of the stack, counted from the
bottom.  The function stays where it is. -/
def callAt (m : Machine) (place : Nat) : Except Fault Machine :=
  match m.stack.reverse[place]? with
  | some callee => m.callValue callee [] m.stack m.stack
  | none => .error .aboveStack

/-- Moves the innermost frame by an offset. -/
def jump (m : Machine) (offset : Int) : Machine :=
  match m.frames with
  | [] => m
  | frame :: frames => { m with frames := { frame with ip := frame.ip + offset } :: frames }

/-- Leaves the innermost frame with the top of the stack as its result.  The function that
was called is below it and goes away, except in the outermost frame, which was not
called. -/
def leave (m : Machine) : Except Fault Machine :=
  match m.frames, m.stack with
  | [_], [] => .error .emptyStack
  | [_], _ => .ok { m with frames := [] }
  | _ :: frames, value :: .closure _ _ _ :: below =>
    .ok { m with stack := value :: below, frames := frames }
  | _, _ :: callee :: _ => .error (.notCallee callee)
  | _, _ => .error .returnUnderflow

/-- Applies a primitive to the topmost `argc` values. -/
def applyPrimitive (m : Machine) (name : String) (argc : Nat) : Except Fault Machine :=
  match Primitive.ofName? name with
  | none => .error (.unknownPrimitive name)
  | some p =>
    let args := (m.stack.take argc).reverse
    if args.length < argc then .error (.primitiveUnderflow name argc m.stack.length)
    else do
      let value ← p.apply args
      return { m with stack := value :: m.stack.drop argc }

/-- Calls the function below the topmost value with the elements of that list. -/
def applyList (m : Machine) : Except Fault Machine :=
  match m.stack with
  | list :: callee :: below =>
    match list.list? with
    | some items => m.callWith (items.reverse ++ callee :: below) items.length
    | none => .error (.notArguments list)
  | _ => .error .applyUnderflow

/-- **What an instruction does** in a scope. -/
def execute (m : Machine) (scope : ScopeId) : Instruction → Except Fault Machine
  | .pushConst v => .ok (m.push v)
  | .pop => do
    let (_, m) ← m.pop
    return m
  | .lookup name => do
    match ← m.arena.find scope name with
    | some (_, v) => return m.push v
    | none =>
      match Primitive.ofName? name with
      | some _ => return m.push (.symbol name)
      | none => throw (.unbound name)
  | .define name => do
    let _ ← m.arena.get scope
    let (v, m) ← m.pop
    let arena ← m.arena.define scope name v
    return { m with arena := arena }
  | .jumpIfTruthy offset => do
    let v ← m.top
    return if v.isFalsy then m else m.jump offset
  | .jumpIfFalsy offset => do
    let (v, m) ← m.pop
    return if v.isFalsy then m.jump offset else m
  | .ret => m.leave
  | .makeClosure =>
    match m.stack with
    | [] => .error .emptyStack
    | .template params code :: below => .ok { m with stack := .closure params code scope :: below }
    | v :: _ => .error (.notTemplate v)
  | .call argc =>
    if argc < 0 then m.callAt (-argc - 1).toNat else m.callWith m.stack argc.toNat
  | .callPrimitive name argc => m.applyPrimitive name argc.toNat
  | .apply => m.applyList
  | .display => do
    let (v, m) ← m.pop
    return { m with stack := .nil :: m.stack, output := m.output ++ [v.toText] }
  | .undefined opcode => .error (.undefinedInstruction opcode)

/-- The instruction that a frame points at. -/
def fetch (frame : Frame) : Except Fault Instruction :=
  let place := if frame.ip < 0 then frame.ip + frame.code.length else frame.ip
  if place < 0 then .error .beforeCode
  else
    match frame.code[place.toNat]? with
    | some i => .ok i
    | none => .error .endOfCode

/-- The machine after one instruction of the innermost frame, or the fault. -/
def advance (m : Machine) : Except Fault Machine :=
  match m.frames with
  | [] => .error .noFrames
  | frame :: _ => do
    let i ← fetch frame
    let after ← (m.jump 1).execute frame.scope i
    return { after with steps := after.steps + 1 }

/-- The machine after a step that failed.  Without frames there is nothing to fail, so that
fault is not remembered. -/
def failed (m : Machine) : Fault → Machine
  | .noFrames | .beforeCode => m
  | .aboveStack => m.jump 1
  | fault => { m with fault := some fault }

/-- **One step**: the machine after it, and the fault if it failed. -/
def step (m : Machine) : Machine × Option Fault :=
  match m.fault with
  | some fault => (m, some fault)
  | none =>
    match m.advance with
    | .ok after => (after, none)
    | .error fault => (m.failed fault, some fault)

/-- Steps, up to a number of them or the first that fails. -/
def stepTimes : Nat → Machine → Machine × Option Fault
  | 0, m => (m, none)
  | n + 1, m =>
    match m.step with
    | (after, none) => stepTimes n after
    | (after, some fault) => (after, some fault)

end StackLisp.Machine
