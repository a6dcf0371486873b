import StackLisp.Prelude

/-!
# The code of the prelude

What the compiler makes of the prelude's list functions and of its macros `cond` and `let`: their
parameters and their code, in which the uses of macros are expanded.  Jumps that are always taken
test the constant false.
-/

namespace StackLisp.Prelude

/-- A function by its name, parameters and code. -/
structure Function where
  name : String
  params : Parameters
  code : Code

namespace Function

/-- The function before it is closed over a scope. -/
def template (f : Function) : Value :=
  .template f.params f.code

/-- The function closed over a scope. -/
def closure (f : Function) (scope : ScopeId) : Value :=
  .closure f.params f.code scope

/-- The function closed over the global scope. -/
abbrev global (f : Function) : Value :=
  f.closure Arena.globalId

end Function

/-! ## Instructions on lists -/

abbrev isNil : Instruction := .callPrimitive "nil?" 1

abbrev head : Instruction := .callPrimitive "car" 1

abbrev tail : Instruction := .callPrimitive "cdr" 1

abbrev pair : Instruction := .callPrimitive "cons" 2

@[simp] theorem ofName?_isNil : Primitive.ofName? "nil?" = some .isNil :=
  Primitive.ofName?_name .isNil

@[simp] theorem ofName?_head : Primitive.ofName? "car" = some .car :=
  Primitive.ofName?_name .car

@[simp] theorem ofName?_tail : Primitive.ofName? "cdr" = some .cdr :=
  Primitive.ofName?_name .cdr

@[simp] theorem ofName?_pair : Primitive.ofName? "cons" = some .cons :=
  Primitive.ofName?_name .cons

@[simp] theorem ofName?_equals : Primitive.ofName? "=" = some .eq :=
  Primitive.ofName?_name .eq

/-! ## List functions -/

def append : Function where
  name := "append"
  params := ⟨["list1", "list2"], none⟩
  code :=
    [.lookup "list1", isNil, .jumpIfFalsy 3,
      .lookup "list2",
      .pushConst (.bool false), .jumpIfFalsy 8,
      .lookup "list1", head,
      .lookup "append", .lookup "list1", tail, .lookup "list2", .call 2, pair,
      .ret]

def map : Function where
  name := "map"
  params := ⟨["proc", "items"], none⟩
  code :=
    [.lookup "items", isNil, .jumpIfFalsy 3,
      .pushConst .nil,
      .pushConst (.bool false), .jumpIfFalsy 10,
      .lookup "proc", .lookup "items", head, .call 1,
      .lookup "map", .lookup "proc", .lookup "items", tail, .call 2, pair,
      .ret]

def filter : Function where
  name := "filter"
  params := ⟨["pred", "sequence"], none⟩
  code :=
    [.lookup "sequence", isNil, .jumpIfFalsy 3,
      .pushConst .nil,
      .pushConst (.bool false), .jumpIfFalsy 20,
      .lookup "pred", .lookup "sequence", head, .call 1, .jumpIfFalsy 10,
      .lookup "sequence", head,
      .lookup "filter", .lookup "pred", .lookup "sequence", tail, .call 2, pair,
      .pushConst (.bool false), .jumpIfFalsy 5,
      .lookup "filter", .lookup "pred", .lookup "sequence", tail, .call 2,
      .ret]

/-- The loop inside `fold-left`. -/
def iter : Function where
  name := "iter"
  params := ⟨["result", "rest"], none⟩
  code :=
    [.lookup "rest", isNil, .jumpIfFalsy 3,
      .lookup "result",
      .pushConst (.bool false), .jumpIfFalsy 9,
      .lookup "iter", .lookup "op", .lookup "result", .lookup "rest", head, .call 2,
      .lookup "rest", tail, .call 2,
      .ret]

def foldLeft : Function where
  name := "fold-left"
  params := ⟨["op", "initial", "sequence"], none⟩
  code :=
    [.pushConst iter.template, .makeClosure, .define "iter",
      .pushConst .nil, .pop,
      .lookup "iter", .lookup "initial", .lookup "sequence", .call 2,
      .ret]

def foldRight : Function where
  name := "fold-right"
  params := ⟨["op", "initial", "sequence"], none⟩
  code :=
    [.lookup "sequence", isNil, .jumpIfFalsy 3,
      .lookup "initial",
      .pushConst (.bool false), .jumpIfFalsy 10,
      .lookup "op", .lookup "sequence", head,
      .lookup "fold-right", .lookup "op", .lookup "initial", .lookup "sequence", tail, .call 3,
      .call 2,
      .ret]

/-- The function without a name that `reverse` folds with. -/
def flip : Function where
  name := ""
  params := ⟨["acc", "x"], none⟩
  code := [.lookup "x", .lookup "acc", pair, .ret]

def reverse : Function where
  name := "reverse"
  params := ⟨["xs"], none⟩
  code :=
    [.lookup "fold-left", .pushConst flip.template, .makeClosure,
      .pushConst .nil, .lookup "xs", .call 3,
      .ret]

/-- The second name of `fold-right`. -/
def accumulate : Function :=
  { foldRight with name := "accumulate" }

/-- The list functions. -/
def functions : List Function :=
  [append, map, filter, foldLeft, foldRight, accumulate, reverse]

/-- **Global variables that include the list functions**, and bind the names of no primitives. -/
structure IsLibrary (globals : Bindings) : Prop where
  get? : ∀ f ∈ functions, globals.get? f.name = some f.global
  unbound : ∀ p ∈ Primitive.all, globals.get? p.name = none

/-! ## Macros -/

/-- The function inside `cond`. -/
def expand : Function where
  name := "expand"
  params := ⟨["clauses"], none⟩
  code :=
    [.lookup "clauses", isNil, .jumpIfFalsy 3,
      .pushConst .nil,
      .pushConst (.bool false), .jumpIfFalsy 29,
      .lookup "clauses", head, head, .pushConst (.symbol "else"), .callPrimitive "=" 2,
      .jumpIfFalsy 6,
      .lookup "clauses", head, tail, head,
      .pushConst (.bool false), .jumpIfFalsy 17,
      .pushConst (.symbol "if"),
      .lookup "clauses", head, head,
      .lookup "clauses", head, tail, head,
      .lookup "expand", .lookup "clauses", tail, .call 1,
      .pushConst .nil, pair, pair, pair, pair,
      .ret]

/-- The code of `cond`. -/
def condCode : Code :=
  [.pushConst expand.template, .makeClosure, .define "expand", .pushConst .nil, .pop,
    .lookup "expand", .lookup "clauses", .call 1,
    .ret]

/-- A function inside `let`, by the given name, which collects what `part` takes from each
binding. -/
def collect (name : String) (part : Code) : Function where
  name := name
  params := ⟨["bs"], none⟩
  code :=
    [.lookup "bs", isNil, .jumpIfFalsy 3,
      .pushConst .nil,
      .pushConst (.bool false), .jumpIfFalsy (7 + part.length),
      .lookup "bs", head] ++ part ++
    [.lookup name, .lookup "bs", tail, .call 1, pair,
      .ret]

/-- The function that collects the names of bindings. -/
def names : Function := collect "names" [head]

/-- The function that collects what the names are bound to. -/
def inits : Function := collect "inits" [tail, head]

/-- The code of `let`. -/
def letCode : Code :=
  [.pushConst names.template, .makeClosure, .define "names", .pushConst .nil, .pop,
    .pushConst inits.template, .makeClosure, .define "inits", .pushConst .nil, .pop,
    .pushConst (.symbol "lambda"),
    .lookup "names", .lookup "bindings", .call 1,
    .lookup "body", pair, pair,
    .lookup "inits", .lookup "bindings", .call 1, pair,
    .ret]

/-- The names of the macros. -/
def macroNames : List String :=
  ["cond", "let", "assert"]

/-- **A table of the macros of the prelude**: it has `cond` and `let` as the prelude defines them,
wherever, and no macros of other names. -/
structure HasMacros (t : MacroTable) : Prop where
  findCond : ∃ loc, t.find? "cond" = some ⟨"cond", ⟨[], some "clauses"⟩, condCode, loc⟩
  findLet : ∃ loc, t.find? "let" = some ⟨"let", ⟨["bindings"], some "body"⟩, letCode, loc⟩
  names : ∀ m ∈ t.macros, m.name ∈ macroNames

theorem HasMacros.named?_symbol {t : MacroTable} (h : HasMacros t) {name : String}
    (hn : name ∉ macroNames) : t.named? (.symbol name) = none :=
  List.find?_eq_none.mpr fun m hm he => hn (beq_iff_eq.mp he ▸ h.names m hm)

/-- **An image that starts with the prelude**: its macros and its list functions are there. -/
structure IsPrelude (image : Image) : Prop where
  macros : HasMacros image.macros
  globals : ∃ vars, image.arena.get? Arena.globalId = some ⟨vars, none⟩ ∧ IsLibrary vars
  fresh : ∀ id, image.arena.contains id = true → id < image.arena.nextId

end StackLisp.Prelude
