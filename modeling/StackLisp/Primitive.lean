import StackLisp.Fault
import StackLisp.Number.Arithmetic
import StackLisp.Value.Equality

/-!
# Primitives

The **primitives** are the functions that every program can use without defining them.
They are bound in no scope: a name that no scope binds stands for the primitive of that
name.  Each takes a fixed number of operands, except addition, which takes any number.
-/

namespace StackLisp

/-- The functions that are built in. -/
inductive Primitive where
  | add | mul | sub | div | mod | pow
  | lt | gt | eq
  | abs | not
  | cons | car | cdr
  | isPair | isNil | isNumber | isFunction | isSymbol | isBoolean | isText
  | appendText | toText
  deriving DecidableEq, Repr

namespace Primitive

/-- All primitives. -/
def all : List Primitive :=
  [add, mul, sub, div, mod, pow, lt, gt, eq, abs, not, cons, car, cdr, isPair, isNil, isNumber,
   isFunction, isSymbol, isBoolean, isText, appendText, toText]

/-- The name by which programs call a primitive. -/
def name : Primitive → String
  | add => "+"
  | mul => "*"
  | sub => "-"
  | div => "/"
  | mod => "%"
  | pow => "^"
  | lt => "<"
  | gt => ">"
  | eq => "="
  | abs => "abs"
  | not => "not"
  | cons => "cons"
  | car => "car"
  | cdr => "cdr"
  | isPair => "pair?"
  | isNil => "nil?"
  | isNumber => "number?"
  | isFunction => "function?"
  | isSymbol => "symbol?"
  | isBoolean => "boolean?"
  | isText => "string?"
  | appendText => "str-append"
  | toText => "to-string"

/-- The primitive of the given name. -/
def ofName? (name : String) : Option Primitive :=
  all.find? (·.name == name)

/-- The number of operands, `none` if any number will do. -/
def arity : Primitive → Option Nat
  | add => none
  | mul | sub | div | mod | pow | lt | gt | eq | cons | appendText => some 2
  | abs | not | car | cdr | isPair | isNil | isNumber | isFunction | isSymbol | isBoolean | isText
  | toText => some 1

/-- An operation on two numbers, applied to values that should be numbers. -/
def onNumbers (f : Float → Float → Value) (a b : Value) : Except Fault Value :=
  match a, b with
  | .number x, .number y => .ok (f x y)
  | _, _ => .error (.notNumbers a b)

/-- The sum of a number and all of the values, taken from left to right. -/
def sum : Float → List Value → Except Fault Value
  | total, [] => .ok (.number total)
  | total, .number x :: rest => sum (total + x) rest
  | total, v :: _ => .error (.notNumbers (.number total) v)

/-- **What a primitive does with its operands.** -/
def apply (p : Primitive) (args : List Value) : Except Fault Value :=
  match p, args with
  | add, args => sum 0 args
  | mul, [a, b] => onNumbers (fun x y => .number (x * y)) a b
  | sub, [a, b] => onNumbers (fun x y => .number (x - y)) a b
  | div, [a, b] => onNumbers (fun x y => .number (x / y)) a b
  | mod, [a, b] => onNumbers (fun x y => .number (Double.remainder x y)) a b
  | pow, [a, b] => onNumbers (fun x y => .number (Double.power x y)) a b
  | lt, [a, b] => onNumbers (fun x y => .bool (x < y)) a b
  | gt, [a, b] => onNumbers (fun x y => .bool (x > y)) a b
  | eq, [a, b] => .ok (.bool (a.isEqual b))
  | cons, [a, b] => .ok (.pair a b none)
  | appendText, [.text s, .text t] => .ok (.text (s ++ t))
  | appendText, [a, b] => .error (.notTexts a b)
  | abs, [.number x] => .ok (.number x.abs)
  | abs, [v] => .error (.notNumber v)
  | not, [.bool b] => .ok (.bool !b)
  | not, [v] => .error (.notBoolean v)
  | car, [.pair head _ _] => .ok head
  | car, [v] => .error (.notPair "car" v)
  | cdr, [.pair _ tail _] => .ok tail
  | cdr, [v] => .error (.notPair "cdr" v)
  | isPair, [v] => .ok (.bool (match v with | .pair _ _ _ | .nil => true | _ => false))
  | isNil, [v] => .ok (.bool (match v with | .nil => true | _ => false))
  | isNumber, [v] => .ok (.bool (match v with | .number _ => true | _ => false))
  | isFunction, [v] => .ok (.bool (match v with | .closure _ _ _ => true | _ => false))
  | isSymbol, [v] => .ok (.bool (match v with | .symbol _ => true | _ => false))
  | isBoolean, [v] => .ok (.bool (match v with | .bool _ => true | _ => false))
  | isText, [v] => .ok (.bool (match v with | .text _ => true | _ => false))
  | toText, [v] => .ok (.text v.toText)
  | p, args => .error (.wrongOperands p.name (p.arity.getD 0) args.length)

/-- **A primitive is found by its name**, so no two of them share one. -/
theorem ofName?_name (p : Primitive) : ofName? p.name = some p := by
  cases p <;> decide +kernel

/-- What is found by a name has that name. -/
theorem name_of_ofName? {s : String} {p : Primitive} (h : ofName? s = some p) : p.name = s := by
  simpa using List.find?_some h

end Primitive

end StackLisp
