import StackLisp.Value.Printer

/-!
# Faults

A **fault** is what can go wrong while a program runs.  Each cause is a constructor with
what it is about, the wording is in `Fault.message`, and `Fault.kind` sorts the causes:
faults of the program, and two kinds which say that the machine was handed code or a state
that no compiler makes: **internal** ones, and those where a negative number counts back
beyond what there is.
-/

namespace StackLisp

/-- Something that goes wrong while a program runs. -/
inductive Fault where
  /-- A name has no value. -/
  | unbound (name : String)
  /-- A function was called with too few or too many arguments. -/
  | wrongArguments (params : Parameters) (args : List Value)
  /-- A primitive was called with too few or too many arguments. -/
  | wrongOperands (name : String) (expected found : Nat)
  /-- A primitive for numbers got something else. -/
  | notNumbers (a b : Value)
  /-- The absolute value of something that is no number. -/
  | notNumber (v : Value)
  /-- The negation of something that is no boolean. -/
  | notBoolean (v : Value)
  /-- The primitive `name` needs a pair. -/
  | notPair (name : String) (v : Value)
  /-- A primitive for texts got something else. -/
  | notTexts (a b : Value)
  /-- What was called is no function. -/
  | notFunction (v : Value)
  /-- What should become a closure is no template. -/
  | notTemplate (v : Value)
  /-- The value below a returned one is not the function that was called. -/
  | notCallee (v : Value)
  /-- The arguments to apply a function to are no proper list. -/
  | notArguments (v : Value)
  /-- The stack is empty. -/
  | emptyStack
  /-- There is no result and callee to return from a call with. -/
  | returnUnderflow
  /-- There are too few operands for a primitive. -/
  | primitiveUnderflow (name : String) (argc height : Nat)
  /-- There are no function and list to apply. -/
  | applyUnderflow
  /-- There are too few values for a call. -/
  | callUnderflow (argc height : Nat)
  /-- A finished machine has no result. -/
  | noResult
  /-- The steps of a run are used up. -/
  | stepLimit (limit : Int)
  /-- There is nothing to run. -/
  | noFrames
  /-- The code of a frame ended without a return. -/
  | endOfCode
  /-- A number that is no instruction's was to be executed. -/
  | undefinedInstruction (opcode : Int)
  /-- An instruction names a primitive that does not exist. -/
  | unknownPrimitive (name : String)
  /-- A scope does not exist. -/
  | missingScope (id : ScopeId)
  /-- The parent of a new scope does not exist. -/
  | missingParent (id : ScopeId)
  /-- The result was asked for before the machine had finished. -/
  | unfinished
  /-- A negative position counts back beyond the start of the code. -/
  | beforeCode
  /-- A call of a function from the bottom of the stack finds none, since the stack is not
  that high. -/
  | aboveStack

namespace Fault

/-- The kinds of faults. -/
inductive Kind where
  /-- The program did something that cannot be done. -/
  | runtime
  /-- A name has no value. -/
  | unbound
  /-- A number of arguments is wrong. -/
  | arity
  /-- A primitive got a value of the wrong kind. -/
  | type
  /-- The stack has too few values. -/
  | underflow
  /-- The steps are used up. -/
  | stepLimit
  /-- The machine's own invariants are broken. -/
  | internal
  /-- A negative number counts beyond what there is. -/
  | range
  deriving DecidableEq, Repr

/-- The kind of a fault. -/
def kind : Fault → Kind
  | unbound _ => .unbound
  | wrongArguments _ _ | wrongOperands _ _ _ => .arity
  | notNumbers _ _ | notNumber _ | notBoolean _ | notPair _ _ | notTexts _ _ => .type
  | notFunction _ | notTemplate _ | notCallee _ | notArguments _ => .runtime
  | emptyStack | returnUnderflow | primitiveUnderflow _ _ _ | applyUnderflow | callUnderflow _ _
  | noResult => .underflow
  | stepLimit _ => .stepLimit
  | noFrames | endOfCode | undefinedInstruction _ | unknownPrimitive _ | missingScope _
  | missingParent _ | unfinished => .internal
  | beforeCode | aboveStack => .range

/-- How many arguments a function takes, in words. -/
def expectedArguments (params : Parameters) : String :=
  let count := toString params.required.length
  if params.rest.isSome then "at least " ++ count else count

/-- **The wording of a fault.** -/
def message : Fault → String
  | unbound name => "not found: " ++ name
  | wrongArguments params args =>
    "wrong number of args, expected " ++ expectedArguments params ++ " ("
      ++ " ".intercalate params.required ++ "), got: " ++ Value.listText args
  | wrongOperands name expected found =>
    "Expected " ++ toString expected ++ " arguments for " ++ name ++ ", but found "
      ++ toString found
  | notNumbers a b => "Expected numbers, found: " ++ a.toText ++ " and " ++ b.toText
  | notNumber v => "abs: expected num but found: " ++ v.toText
  | notBoolean v => "Expected boolean, found: " ++ v.toText
  | notPair name v => name ++ " expected pair, found: " ++ v.toText
  | notTexts a b => "Expected strings, found: " ++ a.toText ++ " and " ++ b.toText
  | notFunction v => "no function to call on stack, found: " ++ v.toText
  | notTemplate v => "expected lambda definition, but found: " ++ v.toText
  | notCallee v => "expected fn on stack after returning, but found: " ++ v.toText
  | notArguments v => "apply expects a list of arguments, but found: " ++ v.toText
  | emptyStack => "stack underflow"
  | returnUnderflow => "too few values on the stack to return from a call"
  | primitiveUnderflow name argc height =>
    name ++ " expects " ++ toString argc ++ " operands, stack holds " ++ toString height
  | applyUnderflow => "apply expects a function and an argument list on the stack"
  | callUnderflow argc height =>
    "call expects " ++ toString argc ++ " arguments and a function, stack holds " ++ toString height
  | noResult => "no result on the stack"
  | stepLimit limit => "step limit of " ++ toString limit ++ " exceeded"
  | noFrames => "no call frames"
  | endOfCode => "end of code reached without a return"
  | undefinedInstruction opcode => "unknown opcode " ++ toString opcode
  | unknownPrimitive name => "unknown primitive " ++ name
  | missingScope id => "env not found for id " ++ toString id
  | missingParent id => "parent env not found for id " ++ toString id
  | unfinished => "machine has not finished running"
  | beforeCode | aboveStack => "list index out of range"

end Fault

end StackLisp
