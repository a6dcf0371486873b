import StackLisp.Code.Compile
import StackLisp.Macro.Basic

/-!
# Macro expansion

Expansion goes from the inside out: the elements of a list are expanded first, and if the
list is then the use of a macro, its expansion is expanded again, until no use is left.

Some lists are not what they seem.  Quoted data is left alone, the parameters of a lambda
expression or a definition are no use of a macro, and `(macroexpand 'form)` stands for the
expansion of the form, quoted.

The walk over a form is structural recursion (`expandForm`).  Only the expansion of a use
leaves the form, and that is what the **fuel** counts: how often an expansion may be
expanded again.
-/

namespace StackLisp

namespace MacroTable

/-- What to do with a use of a macro: its arguments and its location are given. -/
abbrev Use := Macro → List Value → Option Location → Except Error Value

/-- A compile error about a form. -/
def fail {α : Type} (cause : CompileCause) (loc : Option Location) : Except Error α :=
  .error (.compile ⟨cause, loc⟩)

/-- A list whose elements have been expanded: if it is now the use of a macro, the use is
expanded.  An error is about the form as it was. -/
def expandUse (t : MacroTable) (use : Use) (form head tail : Value) (loc : Option Location) :
    Except Error Value :=
  match t.named? head with
  | none => .ok (.pair head tail loc)
  | some m =>
    match tail.list? with
    | some args => use m args loc
    | none => fail (.improperMacroUse form) loc

/-- May the expansion of the form be asked for?  It has to be a list with the name of a macro
at its head. -/
def checkUse (t : MacroTable) (form target : Value) (loc : Option Location) : Except Error Unit :=
  match target with
  | .pair head _ _ =>
    if (t.named? head).isSome then .ok () else fail (.noSuchMacro head) loc
  | _ => fail (.nothingToExpand form) loc

/-- Does a list of operands start with a list, as that of a function's definition does? -/
def startsWithPair : Value → Bool
  | .pair (.pair _ _ _) _ _ => true
  | _ => false

/-- Is the value a pair? -/
def isPair : Value → Bool
  | .pair _ _ _ => true
  | _ => false

mutual

/-- **The expansion of a form**, given what to do with the uses of macros. -/
def expandForm (t : MacroTable) (use : Use) : Value → Except Error Value
  | .pair head tail loc =>
    let form := .pair head tail loc
    match head.symbol? with
    | some "quote" => .ok form
    | some "macroexpand" => expandShown t use form loc tail
    | some "lambda" =>
      if isPair tail then do
        let tail' ← expandBody t use tail
        return .pair head tail' loc
      else expandUse t use form head tail loc
    | some "define" =>
      if startsWithPair tail then do
        let tail' ← expandBody t use tail
        return .pair head tail' loc
      else do
        let tail' ← expandEach t use loc tail
        expandUse t use form head tail' loc
    | _ => do
      let head' ← expandForm t use head
      let tail' ← expandEach t use loc tail
      expandUse t use form head' tail' loc
  | form => .ok form

/-- What the operands of `macroexpand` stand for: the expansion of the one form that they
quote, quoted again. -/
def expandShown (t : MacroTable) (use : Use) (form : Value) (loc : Option Location) :
    Value → Except Error Value
  | .pair (.quoted target) .nil _ => do
    checkUse t form target loc
    let expansion ← expandForm t use target
    return .quoted expansion
  | .pair (.pair (.symbol "quote") (.pair target _ _) _) .nil _ => do
    checkUse t form target loc
    let expansion ← expandForm t use target
    return .quoted expansion
  | _ => fail (.nothingToExpand form) loc

/-- The operands of a form that binds names: the first says which and is left alone, and
the others are expanded. -/
def expandBody (t : MacroTable) (use : Use) : Value → Except Error Value
  | .pair binder body loc => do
    let body' ← expandEach t use body.loc? body
    return .pair binder body' loc
  | last => .ok last

/-- The list whose elements are expanded.  Its pairs get the given location, and the end of
an improper list is left alone. -/
def expandEach (t : MacroTable) (use : Use) (loc : Option Location) : Value → Except Error Value
  | .pair head tail _ => do
    let head' ← expandForm t use head
    let tail' ← expandEach t use loc tail
    return .pair head' tail' loc
  | last => .ok last

end

/-- **The full expansion of a form.**  `steps` is the fuel of each run of a macro's body,
and the last argument says how deep expansions may lead to further expansions. -/
def expandAll (t : MacroTable) (settings : Settings) (steps : Nat) :
    Nat → Value → Except Error Value
  | 0 => fun _ => .error .outOfFuel
  | fuel + 1 => t.expandForm fun m args loc => do
    let expansion ← m.expand steps settings args loc
    expandAll t settings steps fuel expansion

/-- A form expanded at its head only, if that names a macro: the arguments are passed as
they are written, and the expansion is left as it is. -/
def expandOnce (t : MacroTable) (settings : Settings) (steps : Nat) (form : Value) :
    Except Error Value :=
  match form with
  | .pair head tail loc =>
    expandUse t (fun m args loc => m.expand steps settings args loc) form head tail loc
  | _ => .ok form

/-! ## Programs -/

/-- The macro that a definition `(defmacro (name params...) body...)` defines. -/
def macroOf (t : MacroTable) (settings : Settings) (fuel : Nat) (form : Value) (tail : Value)
    (loc : Option Location) : Except Error Macro :=
  match tail.list? with
  | some (.pair (.symbol name) params _ :: first :: rest) => do
    let params ← (Parameters.ofForm params).mapError fun e => .compile ⟨.badParameters e, loc⟩
    let body ← (first :: rest).mapM (t.expandAll settings fuel fuel)
    let code ← (Code.ofProgram params.names body).mapError .compile
    return ⟨name, params, code, loc⟩
  | _ => fail (.badMacroDefinition form) loc

/-- **The expansion of a program.**  Each definition of a macro is entered into the table, so
that the forms after it can use it, and all other forms are expanded. -/
def expandProgram (settings : Settings) (fuel : Nat) :
    MacroTable → List Value → Except Error (List Value × MacroTable)
  | t, [] => .ok ([], t)
  | t, .pair (.symbol "defmacro") tail loc :: forms => do
    let m ← t.macroOf settings fuel (.pair (.symbol "defmacro") tail loc) tail loc
    expandProgram settings fuel (t.insert m) forms
  | t, form :: forms => do
    let expansion ← t.expandAll settings fuel fuel form
    let (expansions, after) ← expandProgram settings fuel t forms
    return (expansion :: expansions, after)

end MacroTable

end StackLisp
