import StackLisp.Bindings
import StackLisp.Fault
import StackLisp.Value.List

/-!
# Parameter lists

A function's **parameter list** is a proper list of symbols.  A dot may stand before the
last of them, which then takes all arguments that are left over.  `Parameters.bind` is
how a call gives its arguments to the parameters, for functions and for macros alike.
-/

namespace StackLisp

/-- Why a value is no parameter list. -/
inductive ParameterError where
  /-- It is no proper list of symbols. -/
  | notSymbols (form : Value)
  /-- The dot is not the last but one of the names. -/
  | misplacedDot (names : List String)

namespace ParameterError

/-- The wording of the error. -/
def message : ParameterError → String
  | notSymbols form => "Invalid parameter list: " ++ form.toText
  | misplacedDot names =>
    "rest-dot can only occur as second-to-last argument, but found: ("
      ++ " ".intercalate names ++ ")"

end ParameterError

namespace Parameters

/-- The name that marks the parameter for further arguments. -/
def dot : String := "."

/-- The names of a proper list of symbols. -/
def names? (form : Value) : Option (List String) :=
  form.list?.bind fun items => items.mapM Value.symbol?

/-- The parameters given by a list of names. -/
def ofNames (names : List String) : Except ParameterError Parameters :=
  match names.dropWhile (· ≠ dot) with
  | [] => .ok ⟨names, none⟩
  | [_, rest] => .ok ⟨names.takeWhile (· ≠ dot), some rest⟩
  | _ => .error (.misplacedDot names)

/-- **The parameters that a parameter list stands for.** -/
def ofForm (form : Value) : Except ParameterError Parameters :=
  match names? form with
  | some names => ofNames names
  | none => .error (.notSymbols form)

/-- All names that are bound in a call. -/
def names (params : Parameters) : List String :=
  params.required ++ params.rest.toList

/-- Can a function with these parameters be called with `count` arguments? -/
def accepts (params : Parameters) (count : Nat) : Bool :=
  if params.rest.isSome then params.required.length ≤ count else count == params.required.length

/-- **The bindings of a call.**  Each required name takes one argument in order, and the
name after the dot the list of the others. -/
def bind (params : Parameters) (args : List Value) : Except Fault Bindings :=
  if params.accepts args.length then
    let bindings := Bindings.ofPairs (params.required.zip args)
    match params.rest with
    | none => .ok bindings
    | some rest =>
      .ok (bindings.set rest (.ofList (args.drop params.required.length) none .nil))
  else .error (.wrongArguments params args)

end Parameters

end StackLisp
