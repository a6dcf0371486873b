/-!
# Paths

A **path** is a row of names below a root.  Repeated slashes and names that are a single
dot do not count; two dots do.  A path that starts with exactly two slashes has a root
of its own, apart from the usual one.
-/

namespace StackLisp

/-- A path of names. -/
structure Path where
  /-- The slashes in front: none for a relative path. -/
  slashes : Nat
  /-- The names along the path. -/
  names : List String
  deriving DecidableEq, Repr

namespace Path

/-- The path that a text denotes. -/
def ofString (text : String) : Path :=
  let leading := (text.toList.takeWhile (· = '/')).length
  let slashes := if leading = 0 then 0 else if leading = 2 then 2 else 1
  ⟨slashes, (text.splitOn "/").filter fun name => name ≠ "" ∧ name ≠ "."⟩

/-- The text of a path.  The relative path without names is a dot. -/
def text (p : Path) : String :=
  if p.slashes = 0 ∧ p.names = [] then "."
  else String.ofList (List.replicate p.slashes '/') ++ "/".intercalate p.names

/-- The path without its last name. -/
def parent (p : Path) : Path :=
  { p with names := p.names.dropLast }

/-- The path with a name added. -/
def child (p : Path) (name : String) : Path :=
  { p with names := p.names ++ [name] }

end Path

end StackLisp
