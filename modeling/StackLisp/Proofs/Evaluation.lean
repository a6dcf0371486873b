import StackLisp.Arena.Basic
import StackLisp.Proofs.Code.Constants

/-!
# Evaluation

What do programs mean?  Here forms are **evaluated directly**, without code, stack and frames, on
the same arena and the same output as those of a machine:

* a symbol has the value of the nearest scope that binds it, and else stands for a primitive;
* a conditional, a conjunction and a disjunction evaluate the operands that they need, each once;
* a definition binds its name in the current scope, and a lambda expression captures that scope;
* a call evaluates the function and then the arguments from left to right, or the arguments only if
  its head is the name of a primitive that the program does not bind;
* a call of a closure binds the arguments in a new scope below the closure's and evaluates the body
  there.

A closure holds code, so evaluating has to know what the code of a function comes from
(`Code.Sources`).  Calls may go on forever, so evaluating is done up to a **depth** of nested calls,
at which its outcome is left open.
-/

namespace StackLisp

/-- What evaluating works on. -/
structure Store where
  arena : Arena
  /-- The texts put out so far. -/
  output : List String

/-- How evaluating ends. -/
inductive Verdict (α : Type) where
  | value (a : α) (s : Store)
  | fault (f : Fault) (s : Store)
  /-- The calls are nested too deep to tell. -/
  | undecided

/-- A computation on a store. -/
def Evaluation (α : Type) := Store → Verdict α

/-- **Where code comes from**: the body that all compiled code is the code of, and the names that
its program binds. -/
structure Code.Sources where
  names : Code → List String
  body : Code → List Value
  body_ne_nil : ∀ code, Code.Compiled code → body code ≠ []
  ofBody_body : ∀ code, Code.Compiled code → Code.ofBody (names code) (body code) = .ok code

instance : Nonempty Code.Sources := by
  have hsource : ∀ code, ∃ source : List String × List Value, Code.Compiled code →
      source.2 ≠ [] ∧ Code.ofBody source.1 source.2 = .ok code := by
    intro code
    by_cases hc : Code.Compiled code
    · obtain ⟨hne, -, hb⟩ := hc
      exact ⟨(_, _), fun _ => ⟨hne, hb⟩⟩
    · exact ⟨([], []), fun h => absurd h hc⟩
  obtain ⟨source, hsource⟩ := Classical.axiomOfChoice hsource
  exact ⟨⟨fun code => (source code).1, fun code => (source code).2,
    fun code hc => (hsource code hc).1, fun code hc => (hsource code hc).2⟩⟩

namespace Evaluation
variable {α β : Type}

protected def bind (x : Evaluation α) (f : α → Evaluation β) : Evaluation β := fun s =>
  match x s with
  | .value a s => f a s
  | .fault fault s => .fault fault s
  | .undecided => .undecided

instance : Monad Evaluation where
  pure a := fun s => .value a s
  bind := Evaluation.bind

theorem bind_value {x : Evaluation α} {f : α → Evaluation β} {s t : Store} {a : α}
    (h : x s = .value a t) : (x >>= f) s = f a t := by
  show Evaluation.bind x f s = f a t
  rw [Evaluation.bind, h]

theorem bind_fault {x : Evaluation α} {f : α → Evaluation β} {s t : Store} {fault : Fault}
    (h : x s = .fault fault t) : (x >>= f) s = .fault fault t := by
  show Evaluation.bind x f s = .fault fault t
  rw [Evaluation.bind, h]

theorem bind_undecided {x : Evaluation α} {f : α → Evaluation β} {s : Store}
    (h : x s = .undecided) : (x >>= f) s = .undecided := by
  show Evaluation.bind x f s = .undecided
  rw [Evaluation.bind, h]

/-! ## Computations -/

/-- Something fails. -/
def fail (fault : Fault) : Evaluation α := fun s => .fault fault s

/-- The outcome is left open. -/
def undecided : Evaluation α := fun _ => .undecided

/-- The outcome of something that does not need the store. -/
def ofExcept : Except Fault α → Evaluation α
  | .ok a => pure a
  | .error fault => fail fault

/-- The value of a name in a scope: that of the nearest binding, or the name of a primitive. -/
def lookup (scope : ScopeId) (name : String) : Evaluation Value := fun s =>
  match s.arena.find scope name with
  | .ok (some (_, v)) => .value v s
  | .ok none => if (Primitive.ofName? name).isSome then .value (.symbol name) s
      else .fault (.unbound name) s
  | .error fault => .fault fault s

/-- A name is bound in a scope. -/
def define (scope : ScopeId) (name : String) (v : Value) : Evaluation Value := fun s =>
  match s.arena.define scope name v with
  | .ok arena => .value .nil { s with arena := arena }
  | .error fault => .fault fault s

/-- A new scope below another one. -/
def allocate (bindings : Bindings) (parent : ScopeId) : Evaluation ScopeId := fun s =>
  match s.arena.allocate bindings parent with
  | .ok (id, arena) => .value id { s with arena := arena }
  | .error fault => .fault fault s

/-- The text of a value is put out. -/
def display (v : Value) : Evaluation Value := fun s =>
  .value .nil { s with output := s.output ++ [v.toText] }

/-- All values, from left to right. -/
def each : List (Evaluation Value) → Evaluation (List Value)
  | [] => pure []
  | part :: parts => do
    let v ← part
    let vs ← each parts
    return v :: vs

/-- The value of a body, which is that of its last form. -/
def sequence : List (Evaluation Value) → Evaluation Value
  | [] => undecided
  | [part] => part
  | part :: parts => do
    let _ ← part
    sequence parts

/-- The value of a conjunction: the first that is falsy, or else the last. -/
def conjunction : List (Evaluation Value) → Evaluation Value
  | [] => pure (.bool true)
  | [part] => part
  | part :: parts => do
    let v ← part
    if v.isFalsy then pure v else conjunction parts

/-- The value of a disjunction: the first that is not falsy, or else the last. -/
def disjunction : List (Evaluation Value) → Evaluation Value
  | [] => pure (.bool false)
  | [part] => part
  | part :: parts => do
    let v ← part
    if v.isFalsy then disjunction parts else pure v

/-- The value of a conditional. -/
def conditional (test yes no : Evaluation Value) : Evaluation Value := do
  let v ← test
  if v.isFalsy then no else yes

/-- A function with the given parameters and body, which captures a scope. -/
def function (bound : List String) (scope : ScopeId) (params : Value) (body : List Value) :
    Evaluation Value :=
  match Parameters.ofForm params, Code.ofBody bound body with
  | .ok params, .ok code => pure (.closure params code scope)
  | _, _ => undecided

/-! ## Forms -/

/-- What the call of a value with arguments does. -/
abbrev Call := Value → List Value → Evaluation Value

/-- A call with the elements of a list. -/
def spread (call : Call) (callee list : Value) : Evaluation Value :=
  match list.list? with
  | some items => call callee items
  | none => fail (.notArguments list)

/-- The value of a call. -/
def application (call : Call) (bound : List String) (head : Value) (callee : Evaluation Value)
    (args : List (Evaluation Value)) : Evaluation Value :=
  match Code.directPrimitive? bound head with
  | some p => do
    let vs ← each args
    ofExcept (p.apply vs)
  | none => do
    let f ← callee
    let vs ← each args
    call f vs

/-- **The value of a list** with a head and further elements, given their values. -/
def ofList (call : Call) (bound : List String) (scope : ScopeId) (head : Value)
    (items : List Value) (callee : Evaluation Value) (parts : List (Evaluation Value)) :
    Evaluation Value :=
  match head.symbol? with
  | some "quote" =>
    match items with
    | [datum] => pure datum
    | _ => undecided
  | some "lambda" =>
    match items with
    | params :: body => function bound scope params body
    | [] => undecided
  | some "define" =>
    match items, parts with
    | .pair (.symbol name) params _ :: body, _ => do
      let v ← function bound scope params body
      define scope name v
    | [.symbol name, _], [_, value] => do
      let v ← value
      define scope name v
    | _, _ => undecided
  | some "if" =>
    match parts with
    | [test, yes] => conditional test yes (pure .nil)
    | [test, yes, no] => conditional test yes no
    | _ => undecided
  | some "and" => conjunction parts
  | some "or" => disjunction parts
  | some "apply" =>
    match parts with
    | [callee, list] => do
      let f ← callee
      let v ← list
      spread call f v
    | _ => undecided
  | some "display" =>
    match parts with
    | [part] => do
      let v ← part
      display v
    | _ => undecided
  | _ => application call bound head callee parts

mutual

/-- **The value of a form** in a scope, in a program that binds the names `bound`.  Forms that are
not compiled have none. -/
def ofForm (call : Call) (bound : List String) (scope : ScopeId) : Value → Evaluation Value
  | .symbol name => lookup scope name
  | .quoted datum => pure datum
  | .closure _ _ _ => undecided
  | .pair head tail _ =>
    match tail.list? with
    | some items => ofList call bound scope head items (ofForm call bound scope head)
        (ofEach call bound scope tail)
    | none => undecided
  | constant => pure constant

/-- The value of each element of a list. -/
def ofEach (call : Call) (bound : List String) (scope : ScopeId) : Value → List (Evaluation Value)
  | .pair head tail _ => ofForm call bound scope head :: ofEach call bound scope tail
  | _ => []

end

/-- The value of a body in a scope. -/
def ofBody (call : Call) (bound : List String) (scope : ScopeId) (forms : List Value) :
    Evaluation Value :=
  sequence (forms.map (ofForm call bound scope))

/-- **A call** of a value with arguments, up to a depth. -/
def ofCall (sources : Code.Sources) : Nat → Call
  | 0 => fun _ _ => undecided
  | depth + 1 => fun callee args =>
    match callee with
    | .closure params code scope => do
      let bindings ← ofExcept (params.bind args)
      let id ← allocate bindings scope
      ofBody (ofCall sources depth) (sources.names code) id (sources.body code)
    | .symbol name =>
      match Primitive.ofName? name with
      | some p => ofExcept (p.apply args)
      | none => fail (.notFunction callee)
    | _ => fail (.notFunction callee)

section Calls
variable {sources : Code.Sources} {depth : Nat} {args : List Value}

section Closures
variable {params : Parameters} {code : Code} {scope id : ScopeId} {bindings : Bindings}
  {arena : Arena} {s : Store} {fault : Fault}

theorem ofCall_closure (hb : params.bind args = .ok bindings)
    (ha : s.arena.allocate bindings scope = .ok (id, arena)) :
    ofCall sources (depth + 1) (.closure params code scope) args s =
      ofBody (ofCall sources depth) (sources.names code) id (sources.body code)
        { s with arena := arena } := by
  have hargs : ofExcept (params.bind args) s = .value bindings s := by
    rw [hb]
    rfl
  have hid : allocate bindings scope s = .value id { s with arena := arena } := by
    rw [allocate, ha]
  exact (bind_value hargs).trans (bind_value hid)

theorem ofCall_closure_arguments (hb : params.bind args = .error fault) :
    ofCall sources (depth + 1) (.closure params code scope) args s = .fault fault s := by
  have hargs : ofExcept (params.bind args) s = .fault fault s := by
    rw [hb]
    rfl
  exact bind_fault hargs

theorem ofCall_closure_missing (hb : params.bind args = .ok bindings)
    (ha : s.arena.allocate bindings scope = .error fault) :
    ofCall sources (depth + 1) (.closure params code scope) args s = .fault fault s := by
  have hargs : ofExcept (params.bind args) s = .value bindings s := by
    rw [hb]
    rfl
  have hid : allocate bindings scope s = .fault fault s := by
    rw [allocate, ha]
  exact (bind_value hargs).trans (bind_fault hid)

end Closures

theorem ofCall_symbol {name : String} {p : Primitive} (hp : Primitive.ofName? name = some p) :
    ofCall sources (depth + 1) (.symbol name) args = ofExcept (p.apply args) := by
  simp only [ofCall, hp]

theorem ofCall_symbol_none {name : String} (hp : Primitive.ofName? name = none) :
    ofCall sources (depth + 1) (.symbol name) args = fail (.notFunction (.symbol name)) := by
  simp only [ofCall, hp]

end Calls

/-- **The value of a program** in the global scope, up to a depth. -/
def ofProgram (sources : Code.Sources) (depth : Nat) (bound : List String) (forms : List Value) :
    Evaluation Value :=
  if forms.isEmpty then pure .nil
  else ofBody (ofCall sources depth) (Code.programNames bound forms) Arena.globalId forms

/-! ## The rules for lists -/

section Parts
variable {part : Evaluation Value} {parts : List (Evaluation Value)}

theorem sequence_cons (h : parts ≠ []) :
    sequence (part :: parts) = part >>= fun _ => sequence parts := by
  cases parts with
  | nil => exact absurd rfl h
  | cons next parts => rfl

theorem conjunction_cons (h : parts ≠ []) : conjunction (part :: parts) =
    part >>= fun v => if v.isFalsy then pure v else conjunction parts := by
  cases parts with
  | nil => exact absurd rfl h
  | cons next parts => rfl

theorem disjunction_cons (h : parts ≠ []) : disjunction (part :: parts) =
    part >>= fun v => if v.isFalsy then disjunction parts else pure v := by
  cases parts with
  | nil => exact absurd rfl h
  | cons next parts => rfl

end Parts

section Rules
variable {call : Call} {bound : List String} {scope : ScopeId} {tail : Value}
  {loc : Option Location} {items : List Value}

theorem ofEach_eq (v : Value) :
    ofEach call bound scope v = v.elements.map (ofForm call bound scope) := by
  induction v using Value.elements.induct with
  | case1 head tail loc ih => rw [ofEach, Value.elements, List.map_cons, ih]
  | case2 v h =>
    cases v with
    | pair head tail loc => exact absurd rfl (h head tail loc)
    | _ => rfl

theorem ofForm_constant {v : Value} (h : Code.IsConstant v) :
    ofForm call bound scope v = pure v := by
  cases v with
  | nil | bool _ | number _ | text _ | template _ _ => simp [ofForm]
  | _ => cases h

theorem ofForm_list {head : Value} (ht : tail.list? = some items) :
    ofForm call bound scope (.pair head tail loc) =
      ofList call bound scope head items (ofForm call bound scope head)
        (items.map (ofForm call bound scope)) := by
  rw [ofForm, ht, ofEach_eq, Code.elements_of_list? ht]

theorem ofForm_quotation {datum : Value} (ht : tail.list? = some [datum]) :
    ofForm call bound scope (.pair (.symbol "quote") tail loc) = pure datum :=
  ofForm_list ht

theorem ofForm_function {params : Value} {body : List Value}
    (ht : tail.list? = some (params :: body)) :
    ofForm call bound scope (.pair (.symbol "lambda") tail loc) =
      function bound scope params body :=
  ofForm_list ht

theorem ofForm_definition {name : String} {value : Value}
    (ht : tail.list? = some [.symbol name, value]) :
    ofForm call bound scope (.pair (.symbol "define") tail loc) =
      ofForm call bound scope value >>= define scope name :=
  ofForm_list ht

theorem ofForm_functionDefinition {name : String} {params : Value} {body : List Value}
    {loc' : Option Location} (ht : tail.list? = some (.pair (.symbol name) params loc' :: body)) :
    ofForm call bound scope (.pair (.symbol "define") tail loc) =
      function bound scope params body >>= define scope name :=
  ofForm_list ht

theorem ofForm_conditional {test yes no : Value} (ht : Code.IsConditional tail test yes no) :
    ofForm call bound scope (.pair (.symbol "if") tail loc) =
      conditional (ofForm call bound scope test) (ofForm call bound scope yes)
        (ofForm call bound scope no) := by
  rcases ht with ht | ⟨ht, rfl⟩
  · exact ofForm_list ht
  · rw [ofForm_constant (v := .nil) trivial]
    exact ofForm_list ht

theorem ofForm_conjunction (ht : tail.list? = some items) :
    ofForm call bound scope (.pair (.symbol "and") tail loc) =
      conjunction (items.map (ofForm call bound scope)) :=
  ofForm_list ht

theorem ofForm_disjunction (ht : tail.list? = some items) :
    ofForm call bound scope (.pair (.symbol "or") tail loc) =
      disjunction (items.map (ofForm call bound scope)) :=
  ofForm_list ht

theorem ofForm_spread {callee list : Value} (ht : tail.list? = some [callee, list]) :
    ofForm call bound scope (.pair (.symbol "apply") tail loc) =
      ofForm call bound scope callee >>= fun f =>
        ofForm call bound scope list >>= spread call f :=
  ofForm_list ht

theorem ofForm_display {arg : Value} (ht : tail.list? = some [arg]) :
    ofForm call bound scope (.pair (.symbol "display") tail loc) =
      ofForm call bound scope arg >>= display :=
  ofForm_list ht

theorem ofForm_application {head : Value} (ho : Code.IsOperator head)
    (ht : tail.list? = some items) :
    ofForm call bound scope (.pair head tail loc) =
      application call bound head (ofForm call bound scope head)
        (items.map (ofForm call bound scope)) := by
  rw [ofForm_list ht]
  unfold ofList
  split
  all_goals first
    | rfl
    | exact absurd ‹_› (ho _ (by decide))

end Rules

end Evaluation

end StackLisp
