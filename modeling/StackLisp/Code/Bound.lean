import StackLisp.Parameters

/-!
# Bound names

A call of a primitive is compiled without looking its name up.  That is right only if no
scope can bind the name, so the compiler first collects the **bound names** of a program:
all names that a definition or a parameter list anywhere in it may bind.  Quoted data
is not looked into.
-/

namespace StackLisp

namespace Value

/-- The symbols among the elements of a list, except the dot. -/
def symbolNames (v : Value) : List String :=
  (v.elements.filterMap symbol?).filter (· ≠ Parameters.dot)

/-- The names that a form with the given head binds by its second element. -/
def targetNames (head tail : Value) : List String :=
  match head, tail with
  | symbol name, pair target _ _ =>
    if name = "define" then
      match target with
      | symbol defined => [defined]
      | _ => target.symbolNames
    else if name = "lambda" then target.symbolNames
    else []
  | _, _ => []

mutual

/-- **The names that a form may bind**, here and in all forms inside it. -/
def boundNames : Value → List String
  | pair head tail _ =>
    if head.symbol? = some "quote" then []
    else targetNames head tail ++ (boundNames head ++ boundInEach tail)
  | _ => []

/-- The names that the elements of a list may bind. -/
def boundInEach : Value → List String
  | pair head tail _ => boundNames head ++ boundInEach tail
  | _ => []

end

end Value

/-- Names in ascending order of their characters, each of them once. -/
def sortNames (names : List String) : List String :=
  (names.mergeSort fun a b => decide (a ≤ b)).eraseReps

end StackLisp
