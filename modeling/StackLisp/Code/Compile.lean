import StackLisp.Code.Bound
import StackLisp.Code.Error
import StackLisp.Primitive

/-!
# Compiling forms

The code of a form leaves one value on the stack, the value of the form:

* a symbol is looked up, and anything that is no list is a constant;
* `(quote d)` is the constant `d`, into which the compiler does not look;
* `(if p c a)` is `p`, a jump over `c` if `p` is falsy, `c`, a jump over `a`, `a`;
* `(and a b)` and `(or a b)` keep `a` if it decides, and otherwise drop it and go on with `b`;
* `(define n e)` is `e`, the definition and the empty list as its value;
* `(lambda ps b ...)` is a template, whose code runs the body in sequence, made a closure;
* a call is the function, the arguments from left to right and the call; the name of a
  primitive that is not bound is called as a primitive, without a function.

All jumps are relative and go forward, and a jump that is always taken tests a constant.

The elements of any other list are compiled on their own first, each with its own outcome.
The form then joins the code of those it needs.  So compiling is structural recursion, and
of two errors the one that a form asks for first is reported.
-/

namespace StackLisp.Code

/-- The code of a form, or why there is none. -/
abbrev Outcome := Except CompileError Code

/-- The code of several forms, one after the other. -/
def concat : List Outcome → Outcome
  | [] => .ok []
  | part :: parts => do
    let code ← part
    let rest ← concat parts
    return code ++ rest

/-- The code of a body: all values but the last are dropped, and the last is returned. -/
def sequence : List Outcome → Outcome
  | [] => .ok [.ret]
  | [part] => do
    let code ← part
    return code ++ [.ret]
  | part :: parts => do
    let code ← part
    let rest ← sequence parts
    return code ++ .pop :: rest

/-- The code of a conjunction.  The operands to the right are settled first. -/
def conjunction : List Outcome → Outcome
  | [] => .ok [.pushConst (.bool true)]
  | [part] => part
  | part :: parts => do
    let right ← conjunction parts
    let left ← part
    return left ++ [.jumpIfTruthy 2, .pushConst (.bool false), .jumpIfFalsy (1 + right.length),
      .pop] ++ right

/-- The code of a disjunction.  The operands to the right are settled first. -/
def disjunction : List Outcome → Outcome
  | [] => .ok [.pushConst (.bool false)]
  | [part] => part
  | part :: parts => do
    let right ← disjunction parts
    let left ← part
    return left ++ [.jumpIfTruthy (1 + right.length), .pop] ++ right

/-- The code of a conditional.  The two branches are settled before the condition. -/
def conditional (condition consequent alternative : Outcome) : Outcome := do
  let yes ← consequent
  let no ← alternative
  let test ← condition
  return test ++ .jumpIfFalsy (yes.length + 2) :: yes
    ++ [.pushConst (.bool false), .jumpIfFalsy no.length] ++ no

/-- The code that makes a function of a parameter list and a body. -/
def function (params : Value) (body : List Outcome) (loc : Option Location) : Outcome :=
  match Parameters.ofForm params with
  | .error error => .error ⟨.badParameters error, loc⟩
  | .ok params => do
    let code ← sequence body
    return [.pushConst (.template params code), .makeClosure]

/-- The code that binds the value of some code to a name. -/
def definition (name : String) (value : Outcome) : Outcome := do
  let code ← value
  return code ++ [.define name, .pushConst .nil]

/-- The code of a call. -/
def application (bound : List String) (head : Value) (loc : Option Location) (function : Outcome)
    (args : List Outcome) : Outcome :=
  let primitive : Option Primitive :=
    match head with
    | .symbol name => if name ∈ bound then none else Primitive.ofName? name
    | _ => none
  match primitive with
  | some p =>
    if p.arity.all (· = args.length) then do
      let code ← concat args
      return code ++ [.callPrimitive p.name args.length]
    else .error ⟨.primitiveOperands p.name (p.arity.getD 0) args.length, loc⟩
  | none => do
    let callee ← function
    let code ← concat args
    return callee ++ code ++ [.call args.length]

/-- May the value stand as the parameter list of a lambda expression? -/
def isParameterForm : Value → Bool
  | .nil | .pair _ _ _ => true
  | _ => false

/-- The code of the quotation `(quote datum)`, whose datum is not compiled. -/
def quotation (head tail : Value) (loc : Option Location) : Outcome :=
  match tail.list? with
  | some [datum] => .ok [.pushConst datum]
  | some args => .error ⟨.quoteOperands args.length, loc⟩
  | none => .error ⟨.improperForm (.pair head tail loc), loc⟩

/-- **The code of a list** that is no quotation, given the outcome of its head and those of
its further elements. -/
def ofList (bound : List String) (head tail : Value) (loc : Option Location) (function : Outcome)
    (parts : List Outcome) : Outcome :=
  let form := Value.pair head tail loc
  let proper (outcome : Outcome) : Outcome :=
    if tail.list?.isSome then outcome else .error ⟨.improperForm form, loc⟩
  match head.symbol? with
  | some "lambda" =>
    match tail.list? with
    | some (params :: _ :: _) =>
      if isParameterForm params then Code.function params (parts.drop 1) loc
      else .error ⟨.badLambda form, loc⟩
    | _ => .error ⟨.badLambda form, loc⟩
  | some "define" =>
    match tail.list?, parts with
    | some (.pair (.symbol name) params _ :: _ :: _), _ :: body =>
      definition name (Code.function params body loc)
    | some [.symbol name, _], [_, value] => definition name value
    | _, _ => .error ⟨.badDefinition form, loc⟩
  | some "if" =>
    match tail.list?, parts with
    | some _, [test, yes] => conditional test yes (.ok [.pushConst .nil])
    | some _, [test, yes, no] => conditional test yes no
    | _, _ => .error ⟨.badConditional form, loc⟩
  | some "and" => proper (conjunction parts)
  | some "or" => proper (disjunction parts)
  | some "apply" => proper <|
    match parts with
    | [_, _] => do
      let code ← concat parts
      return code ++ [.apply]
    | _ => .error ⟨.applyOperands parts.length, loc⟩
  | some "display" => proper <|
    match parts with
    | [part] => do
      let code ← part
      return code ++ [.display]
    | _ => .error ⟨.displayOperands parts.length, loc⟩
  | _ => proper (application bound head loc function parts)

mutual

/-- **The code of a form** in a program that binds the names `bound`. -/
def ofForm (bound : List String) : Value → Outcome
  | .symbol name => .ok [.lookup name]
  | .quoted datum => .ok [.pushConst datum]
  | .closure params code scope => .error ⟨.closureForm (.closure params code scope), none⟩
  | .pair head tail loc =>
    if head.symbol? = some "quote" then quotation head tail loc
    else ofList bound head tail loc (ofForm bound head) (ofEach bound tail)
  | constant => .ok [.pushConst constant]

/-- The outcome of each element of a list. -/
def ofEach (bound : List String) : Value → List Outcome
  | .pair head tail _ => ofForm bound head :: ofEach bound tail
  | _ => []

end

/-- The code of a body: the forms in sequence and the return of the last value. -/
def ofBody (bound : List String) (forms : List Value) : Outcome :=
  sequence (forms.map (ofForm bound))

/-- The names that primitives are not called by in a program: those that were bound before
and those that the program may bind. -/
def programNames (bound : List String) (forms : List Value) : List String :=
  bound ++ forms.flatMap Value.boundNames

/-- **The code of a program.**  A program without forms has the empty list as its value. -/
def ofProgram (bound : List String) (forms : List Value) : Outcome :=
  if forms.isEmpty then .ok [.pushConst .nil, .ret]
  else ofBody (programNames bound forms) forms

end StackLisp.Code
