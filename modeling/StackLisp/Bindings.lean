import StackLisp.Value.Basic

/-!
# Bindings

**Bindings** give values to names.  A name is bound at most once; binding it again
replaces its value and keeps its place, and a new name goes to the end.
-/

namespace StackLisp

/-- Names with their values, in the order in which the names were first bound. -/
abbrev Bindings := List (String × Value)

namespace Bindings

/-- The value of a name. -/
def get? (name : String) : Bindings → Option Value
  | [] => none
  | (key, value) :: rest => if key = name then some value else get? name rest

/-- The bindings after a name has been given a value. -/
def set (name : String) (value : Value) : Bindings → Bindings
  | [] => [(name, value)]
  | (key, old) :: rest =>
    if key = name then (key, value) :: rest else (key, old) :: set name value rest

/-- Each name of a list is given its value in turn. -/
def ofPairs (pairs : List (String × Value)) : Bindings :=
  pairs.foldl (fun bindings p => bindings.set p.1 p.2) []

/-- The names that are bound. -/
def names (bindings : Bindings) : List String :=
  bindings.map (·.1)

/-- The values of all names. -/
def values (bindings : Bindings) : List Value :=
  bindings.map (·.2)

/-- **The name just bound has its new value, and all others keep theirs.** -/
theorem get?_set (bindings : Bindings) (name other : String) (value : Value) :
    (bindings.set name value).get? other =
      if name = other then some value else bindings.get? other := by
  induction bindings with
  | nil => rfl
  | cons entry rest ih =>
    obtain ⟨key, old⟩ := entry
    by_cases hk : key = name
    · subst hk; by_cases ho : key = other <;> simp [set, get?, ho]
    · by_cases ho : key = other
      · subst ho; simp [set, get?, hk, Ne.symm hk]
      · simp only [set, if_neg hk, get?, if_neg ho, ih]

end Bindings

end StackLisp
