import Std.Data.TreeSet
import StackLisp.Location

/-!
# Values and instructions

Programs and the data they work on are of one kind.  A **value** is what the reader
makes of a program's text, what a macro takes and gives, and what the machine has on
its stack: the empty list, booleans, numbers, texts, symbols, quoted values and pairs,
and two kinds of functions.

A **template** is the compiled body of a lambda expression.  The machine makes it a
**closure** by adding the scope it was made in.  Both hold **instructions**, and an
instruction may hold a value, so the two types are defined together.

A pair remembers where the list it belongs to was read.  Nothing that a program
computes depends on it.

A value **holds** a scope if a closure over that scope is in it, also inside lists and
quoted values; the code of a function is not looked into.  The scopes that a value holds
(`Value.scopes`) are kept with it, since parts of values are shared: a value that is built
in a few steps may have more parts than could ever be walked over.
-/

namespace StackLisp

/-- The number by which the arena knows a scope. -/
abbrev ScopeId := Int

/-- A set of scopes, by their ids. -/
abbrev ScopeSet := Std.TreeSet ScopeId

/-- The names that a function binds when it is called. -/
structure Parameters where
  /-- The names that take one argument each, in order. -/
  required : List String
  /-- The name that takes the list of all further arguments. -/
  rest : Option String
  deriving DecidableEq, Repr

mutual

/-- What programs are made of and what they compute with. -/
inductive Value where
  /-- The empty list, which also stands for "no value". -/
  | nil
  | bool (b : Bool)
  | number (x : Float)
  | text (s : String)
  /-- A name.  At run time, the name of a primitive stands for the primitive. -/
  | symbol (name : String)
  /-- A value preceded by a quote mark. -/
  | quoted (value : Value)
  /-- A cell of a list, with the location of the list it was read in. -/
  | pair (head tail : Value) (loc : Option Location)
  /-- A compiled lambda expression. -/
  | template (params : Parameters) (code : List Instruction)
  /-- A compiled lambda expression together with the scope it was made in. -/
  | closure (params : Parameters) (code : List Instruction) (scope : ScopeId)
with
  /-- The scopes of all closures in a value. -/
  @[computed_field] scopes : Value → ScopeSet
    | .nil => ∅
    | .bool _ => ∅
    | .number _ => ∅
    | .text _ => ∅
    | .symbol _ => ∅
    | .quoted value => value.scopes
    | .pair head tail _ => head.scopes ∪ tail.scopes
    | .template _ _ => ∅
    | .closure _ _ scope => {scope}

/-- One instruction of the machine.  Offsets of jumps count from the next instruction. -/
inductive Instruction where
  /-- Push a constant. -/
  | pushConst (value : Value)
  /-- Drop the top of the stack. -/
  | pop
  /-- Push the value of a name. -/
  | lookup (name : String)
  /-- Pop a value and bind it to a name in the current scope. -/
  | define (name : String)
  /-- Jump if the top of the stack counts as true, and leave it there. -/
  | jumpIfTruthy (offset : Int)
  /-- Pop the top of the stack and jump if it counts as false. -/
  | jumpIfFalsy (offset : Int)
  /-- Leave the current frame with the top of the stack as its result. -/
  | ret
  /-- Make the template on top of the stack a closure over the current scope. -/
  | makeClosure
  /-- Call the function below the topmost `argc` values with them.  If `argc` is negative, the
  call has no arguments, and its function is found from the bottom of the stack: the lowest
  value for -1, the one above it for -2. -/
  | call (argc : Int)
  /-- Apply a primitive to the topmost `argc` values, to none if `argc` is negative. -/
  | callPrimitive (name : String) (argc : Int)
  /-- Call the function below the topmost value with the elements of that list. -/
  | apply
  /-- Replace the top of the stack by the empty list and put out its text. -/
  | display
  /-- A number that is no instruction's. -/
  | undefined (opcode : Int)

end

/-- A sequence of instructions. -/
abbrev Code := List Instruction

instance : Inhabited Value := ⟨.nil⟩

namespace Instruction

/-- The name of an instruction in listings. -/
def mnemonic : Instruction → String
  | pushConst _ => "PUSH_CONST"
  | pop => "POP"
  | lookup _ => "LOOKUP"
  | define _ => "DEFINE"
  | jumpIfTruthy _ => "COND_JUMP_KEEP"
  | jumpIfFalsy _ => "COND_JUMP_IF_FALSY"
  | ret => "RETURN"
  | makeClosure => "MAKE_CLOSURE"
  | call _ => "CALL"
  | callPrimitive _ _ => "CALL_PRIMITIVE"
  | apply => "APPLY"
  | display => "DISPLAY"
  | undefined opcode => toString opcode

/-- The number of an instruction. -/
def opcode : Instruction → Int
  | pushConst _ => 0x05
  | pop => 0x07
  | lookup _ => 0x12
  | define _ => 0x13
  | jumpIfTruthy _ => 0x21
  | jumpIfFalsy _ => 0x22
  | ret => 0x24
  | makeClosure => 0x30
  | call _ => 0x40
  | callPrimitive _ _ => 0x41
  | apply => 0x43
  | display => 0x60
  | undefined opcode => opcode

/-- One instruction of each kind, in the order of their numbers, with operands that
mean nothing. -/
def kinds : List Instruction :=
  [pushConst .nil, pop, lookup "", define "", jumpIfTruthy 0, jumpIfFalsy 0, ret, makeClosure,
   call 0, callPrimitive "" 0, apply, display]

end Instruction

end StackLisp
