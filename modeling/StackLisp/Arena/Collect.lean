import StackLisp.Arena.Basic

/-!
# Collecting scopes

A scope is **live** when it can be reached from the roots: from a scope one reaches its
parent and all scopes that its values hold.  The global scope is always a root.

The collector starts with all scopes **unseen**.  A scope that is found to be reached is no
longer unseen and becomes **pending**, until the scopes that are reached from it have been
looked up in turn.  Each scope becomes pending at most once, so the number of scopes
bounds the work.  What is still unseen in the end is **garbage** and is dropped.

A set of scopes is looked up among the unseen ones from the smaller side, so what values
hold costs little once most scopes have been seen.  The roots are looked at in the order in
which they are given, the global scope before them.
-/

namespace StackLisp

namespace Arena

/-- How far a collection has got. -/
structure Marking where
  /-- The scopes that have not been reached. -/
  unseen : Scopes
  /-- The scopes that have been reached, but not what is reached from them. -/
  pending : List Scope

namespace Marking

/-- A scope is reached. -/
def reach (m : Marking) (id : ScopeId) : Marking :=
  match m.unseen[id]? with
  | some scope => ⟨m.unseen.erase id, scope :: m.pending⟩
  | none => m

/-- The ids of a set that are still unseen, and perhaps others that are not. -/
def candidates (m : Marking) (ids : ScopeSet) : List ScopeId :=
  if ids.size ≤ m.unseen.size then ids.toList else m.unseen.keys.filter ids.contains

/-- All scopes of a set are reached. -/
def reachAll (m : Marking) (ids : ScopeSet) : Marking :=
  (m.candidates ids).foldl reach m

/-- All scopes are reached that some values hold. -/
def reachHeld (m : Marking) (values : List Value) : Marking :=
  values.foldl (fun m v => m.reachAll v.scopes) m

/-- The scopes are reached that a scope leads to: its parent and those that its values
hold. -/
def scan (m : Marking) (s : Scope) : Marking :=
  (s.parent.toList.foldl reach m).reachHeld s.vars.values

/-- The scopes that are not reached from the pending ones, of which at most `fuel` are looked
at. -/
def finish : Nat → Marking → Scopes
  | fuel + 1, ⟨unseen, s :: pending⟩ => finish fuel (scan ⟨unseen, pending⟩ s)
  | _, m => m.unseen

end Marking

/-- **The scopes that cannot be reached** from the roots, which are the global scope, the
given ids and the scopes that the given values hold. -/
def garbage (a : Arena) (roots : List ScopeId) (values : List Value) : Scopes :=
  let start : Marking := ⟨a.scopes, []⟩
  (((globalId :: roots).foldr (fun id m => m.reach id) start).reachHeld values).finish a.size

/-- **Drops all scopes that cannot be reached** from the roots. -/
def collect (a : Arena) (roots : List ScopeId) (values : List Value) : Arena :=
  { a with scopes := (a.garbage roots values).keys.foldl (·.erase ·) a.scopes }

end Arena

end StackLisp
