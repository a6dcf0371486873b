import StackLisp.Parameters

/-!
# Compile errors

A **compile error** says that a form has the wrong shape, or that a macro could not be
expanded.  It is a cause and the location of the form it is about, where that is known.
-/

namespace StackLisp

/-- Why a form cannot be compiled or expanded. -/
inductive CompileCause where
  /-- A closure stands where a form is expected. -/
  | closureForm (form : Value)
  /-- A form is no proper list. -/
  | improperForm (form : Value)
  /-- The number of operands of `quote` is wrong. -/
  | quoteOperands (found : Nat)
  /-- The number of operands of `apply` is wrong. -/
  | applyOperands (found : Nat)
  /-- The number of operands of `display` is wrong. -/
  | displayOperands (found : Nat)
  /-- The number of operands of a primitive is wrong. -/
  | primitiveOperands (name : String) (expected found : Nat)
  /-- A parameter list is wrong. -/
  | badParameters (error : ParameterError)
  /-- A lambda expression has no parameter list or no body. -/
  | badLambda (form : Value)
  /-- A definition has no name or no value. -/
  | badDefinition (form : Value)
  /-- A conditional has too few or too many parts. -/
  | badConditional (form : Value)
  /-- A macro definition has no name or no body. -/
  | badMacroDefinition (form : Value)
  /-- The use of a macro is no proper list. -/
  | improperMacroUse (form : Value)
  /-- A macro was used with too few or too many arguments. -/
  | macroArguments (name : String) (fault : Fault)
  /-- The body of a macro failed. -/
  | macroFault (fault : Fault)
  /-- The body of a macro left more or fewer than one value. -/
  | macroValues (found : Nat)
  /-- There is no form to show the expansion of. -/
  | nothingToExpand (form : Value)
  /-- What should be expanded is not the use of a macro. -/
  | noSuchMacro (head : Value)

namespace CompileCause

/-- **The wording of a cause.** -/
def message : CompileCause → String
  | closureForm form => "Cannot compile a closure value: " ++ form.toText
  | improperForm form => "Expected a proper list, but found: " ++ form.toText
  | quoteOperands found => "quote expects 1 arg, but found: " ++ toString found
  | applyOperands found => "apply expects 2 args, but found: " ++ toString found
  | displayOperands found => "Expected one argument for display, but found " ++ toString found
  | primitiveOperands name expected found => (Fault.wrongOperands name expected found).message
  | badParameters error => error.message
  | badLambda form => "Invalid lambda expression: " ++ form.toText
  | badDefinition form => "definition, expected kw and expr but found: " ++ form.toText
  | badConditional form => "if, expected pred, cons, alt but found: " ++ form.toText
  | badMacroDefinition form =>
    "defmacro, expected (name params...) and a body but found: " ++ form.toText
  | improperMacroUse form => "Malformed macro invocation: " ++ form.toText
  | macroArguments name fault => name ++ ": " ++ fault.message
  | macroFault fault => "Error when running macro expansion: " ++ fault.message
  | macroValues found =>
    "Error when running macro expansion: expected one value, found " ++ toString found
  | nothingToExpand form => "can't call macroexpand on " ++ form.toText
  | noSuchMacro head => "macro not found: " ++ head.toText

end CompileCause

/-- A compile error. -/
structure CompileError where
  cause : CompileCause
  /-- Where the form was read, if it was read. -/
  loc : Option Location

/-- The error as text, with the location in front. -/
def CompileError.message (e : CompileError) : String :=
  (match e.loc with
    | some loc => loc.text
    | none => "unknown") ++ ": " ++ e.cause.message

end StackLisp
