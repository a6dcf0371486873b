import StackLisp.Value.Basic

/-!
# Values as lists

A list is a chain of pairs.  It is **proper** when the chain ends in the empty list.
These are the views of a value as a list: its `elements`, which every value has, the
value that ends the chain, and `list?`, the elements of a proper list only.
-/

namespace StackLisp.Value

/-- The list of the given items, which ends in `last`.  All its pairs have the same
location. -/
def ofList (items : List Value) (loc : Option Location) (last : Value) : Value :=
  items.foldr (fun item rest => pair item rest loc) last

/-- The heads along the chain of pairs.  A value that is no pair has none, and what ends
the chain is not among them. -/
def elements : Value → List Value
  | pair head tail _ => head :: elements tail
  | _ => []

/-- What ends the chain of pairs: the value itself if it is no pair. -/
def ending : Value → Value
  | pair _ tail _ => ending tail
  | v => v

/-- Is the value the empty list? -/
def isNil : Value → Bool
  | nil => true
  | _ => false

/-- The elements of a proper list, `none` for every other value. -/
def list? (v : Value) : Option (List Value) :=
  if v.ending.isNil then some v.elements else none

/-- The name of a symbol. -/
def symbol? : Value → Option String
  | symbol name => some name
  | _ => none

/-- The location that a pair remembers. -/
def loc? : Value → Option Location
  | pair _ _ loc => loc
  | _ => none

@[simp] theorem elements_pair (head tail : Value) (loc : Option Location) :
    (pair head tail loc).elements = head :: tail.elements := rfl

@[simp] theorem ending_pair (head tail : Value) (loc : Option Location) :
    (pair head tail loc).ending = tail.ending := rfl

/-- **A list has the items it was made of**, followed by the elements of its end. -/
theorem elements_ofList (items : List Value) (loc : Option Location) (last : Value) :
    (ofList items loc last).elements = items ++ last.elements := by
  induction items with
  | nil => rfl
  | cons item items ih => exact congrArg (item :: ·) ih

/-- A list ends as its last part does. -/
theorem ending_ofList (items : List Value) (loc : Option Location) (last : Value) :
    (ofList items loc last).ending = last.ending := by
  induction items with
  | nil => rfl
  | cons item items ih => exact ih

/-- **A list that ends in the empty list is proper**, with the items it was made of. -/
theorem list?_ofList (items : List Value) (loc : Option Location) :
    (ofList items loc nil).list? = some items := by
  simp [list?, ending_ofList, elements_ofList, ending, elements, isNil]

end StackLisp.Value
