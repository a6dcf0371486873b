import Std.Data.TreeMap
import StackLisp.Bindings
import StackLisp.Fault
import StackLisp.Value.Inspect

/-!
# The arena

A **scope** binds names and may have a parent, in which names are looked up that it does
not bind.  Scopes live in the **arena** and are known by their ids, so closures and
frames hold ids and values never hold scopes.  Id zero is the global scope.

A new scope gets the arena's next id, which only ever grows.  In an arena that starts from
given scopes, ids may be any integers.  An arena is a value: a copy of it is the arena
itself.
-/

namespace StackLisp

/-- One scope. -/
structure Scope where
  /-- The names that the scope binds. -/
  vars : Bindings
  /-- Where the names are looked up that it does not bind. -/
  parent : Option ScopeId

/-- The scopes of an arena by their ids. -/
abbrev Scopes := Std.TreeMap ScopeId Scope

/-- All scopes of a machine. -/
structure Arena where
  scopes : Scopes
  /-- The id that the next scope gets. -/
  nextId : ScopeId

namespace Scope

/-- The scope as text: its variables by their constructors, and its parent. -/
def text (s : Scope) : String :=
  let vars := s.vars.map fun (name, value) => name ++ ": " ++ value.inspect
  let parent := match s.parent with
    | none => ""
    | some id => " -> " ++ toString id
  "\x7b" ++ ", ".intercalate vars ++ "\x7d" ++ parent

end Scope

namespace Arena

/-- The id of the global scope. -/
def globalId : ScopeId := 0

/-- A scope without names and parent. -/
def emptyScope : Scope := ⟨[], none⟩

/-- The arena with an empty global scope only. -/
def empty : Arena :=
  ⟨(∅ : Scopes).insert globalId emptyScope, 1⟩

/-- The arena whose only scope is a global one with the given variables. -/
def ofGlobals (vars : Bindings) : Arena :=
  ⟨(∅ : Scopes).insert globalId ⟨vars, none⟩, 1⟩

/-- The arena with the given scopes, and a global one if it is not among them.  Unless it
is given, the next id is the least above all ids. -/
def ofScopes (given : List (ScopeId × Scope)) (nextId : Option ScopeId) : Arena :=
  let scopes := given.foldl (fun scopes s => scopes.insert s.1 s.2) (∅ : Scopes)
  let scopes := if scopes.contains globalId then scopes else scopes.insert globalId emptyScope
  ⟨scopes, nextId.getD (scopes.keys.foldl max 0 + 1)⟩

/-- The scope with an id. -/
def get? (a : Arena) (id : ScopeId) : Option Scope :=
  a.scopes[id]?

/-- Is there a scope with the id? -/
def contains (a : Arena) (id : ScopeId) : Bool :=
  a.scopes.contains id

/-- The number of scopes. -/
def size (a : Arena) : Nat :=
  a.scopes.size

/-- The ids of all scopes, in ascending order. -/
def ids (a : Arena) : List ScopeId :=
  a.scopes.keys

/-- The scope with an id, which has to exist. -/
def get (a : Arena) (id : ScopeId) : Except Fault Scope :=
  match a.get? id with
  | some scope => .ok scope
  | none => .error (.missingScope id)

/-- **A new scope** below an existing one, and its id. -/
def allocate (a : Arena) (vars : Bindings) (parent : ScopeId) : Except Fault (ScopeId × Arena) :=
  if a.contains parent then
    .ok (a.nextId, ⟨a.scopes.insert a.nextId ⟨vars, some parent⟩, a.nextId + 1⟩)
  else .error (.missingParent parent)

/-- A name is bound in a scope, which has to exist. -/
def define (a : Arena) (id : ScopeId) (name : String) (value : Value) : Except Fault Arena := do
  let scope ← a.get id
  return { a with scopes := a.scopes.insert id { scope with vars := scope.vars.set name value } }

/-- The nearest scope that binds a name, on the way from a scope through at most `fuel`
further ones, and the value there. -/
def findWithin (a : Arena) (name : String) : Nat → ScopeId → Except Fault (Option (ScopeId × Value))
  | 0, id => do
    let scope ← a.get id
    return (scope.vars.get? name).map fun value => (id, value)
  | fuel + 1, id => do
    let scope ← a.get id
    match scope.vars.get? name, scope.parent with
    | some value, _ => return some (id, value)
    | none, none => return none
    | none, some parent => findWithin a name fuel parent

/-- **The nearest scope that binds a name**, from a scope outwards, and the value there.
Unless parents form a cycle, the way outwards meets each scope once, so the number of scopes
bounds it.  Round a cycle, where the way outwards never ends, a name that is bound nowhere on it
counts as not bound. -/
def find (a : Arena) (id : ScopeId) (name : String) : Except Fault (Option (ScopeId × Value)) :=
  a.findWithin name a.size id

/-- The value of a name in a scope, which has to have one. -/
def lookup (a : Arena) (id : ScopeId) (name : String) : Except Fault Value := do
  match ← a.find id name with
  | some (_, value) => return value
  | none => throw (.unbound name)

/-- The names that the global scope binds. -/
def globalNames (a : Arena) : List String :=
  match a.get? globalId with
  | some scope => scope.vars.names
  | none => []

/-! ## What the operations do to the scopes -/

/-- **Allocation adds one scope under the next id** and leaves all other ids as they
were. -/
theorem get?_allocate {a b : Arena} {vars : Bindings} {parent id : ScopeId}
    (h : a.allocate vars parent = .ok (id, b)) (k : ScopeId) :
    b.get? k = if a.nextId = k then some ⟨vars, some parent⟩ else a.get? k := by
  unfold allocate at h
  split at h
  · obtain ⟨-, rfl⟩ := Prod.mk.inj (Except.ok.inj h)
    simp [get?, Std.TreeMap.getElem?_insert]
  · cases h

/-- **A definition changes the variables of one scope**, and nothing else. -/
theorem get?_define {a b : Arena} {id : ScopeId} {name : String} {value : Value}
    (h : a.define id name value = .ok b) (k : ScopeId) :
    b.get? k =
      (a.get? k).map fun s => if id = k then { s with vars := s.vars.set name value } else s := by
  unfold define get at h
  cases hs : a.get? id with
  | none => simp [hs, bind, Except.bind] at h
  | some scope =>
    simp only [hs, bind, Except.bind, pure, Except.pure, Except.ok.injEq] at h
    subst h
    by_cases hk : id = k
    · subst hk
      simp [get?] at hs
      simp [get?, hs]
    · simp [get?, Std.TreeMap.getElem?_insert, hk]

end Arena

end StackLisp
