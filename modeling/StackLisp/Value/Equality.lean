import StackLisp.Value.Basic

/-!
# Truth and equality

Three values count as false: `false`, the empty list and the number zero.  All others
count as true.

Two values are **equal** when they have the same shape and equal parts (`Value.equal`).
Numbers are compared as numbers, locations are not compared, and functions are equal when
their parameters, their instructions and (for closures) their scopes are.

Equality is reflexive (`Value.equal_self`).  So two parts that are one object in memory need
not be compared, and `Value.isEqual`, which programs use, leaves them out.  Its answer is
that of `Value.equal` (`Value.isEqual_eq`), but it comes at once where values share parts.
-/

namespace StackLisp

namespace Value

/-- Does the value count as false? -/
def isFalsy : Value → Bool
  | bool b => !b
  | nil => true
  | number x => x == 0
  | _ => false

end Value

/-- Equality of numbers: the same number, whatever the sign of a zero, or the same bits.  What is no
number has one pattern of bits, so any two results that are no numbers count as the same. -/
def sameNumber (x y : Float) : Bool :=
  x == y || x.toBits == y.toBits

/-- Every number is the same as itself. -/
@[simp] theorem sameNumber_self (x : Float) : sameNumber x x = true := by
  simp [sameNumber]

mutual

/-- **Structural equality of values**, whatever their locations. -/
def Value.equal : Value → Value → Bool
  | .nil, .nil => true
  | .bool a, .bool b => a == b
  | .number a, .number b => sameNumber a b
  | .text a, .text b => a == b
  | .symbol a, .symbol b => a == b
  | .quoted a, .quoted b => a.equal b
  | .pair a as _, .pair b bs _ => a.equal b && as.equal bs
  | .template p a, .template q b => p == q && codeEqual a b
  | .closure p a s, .closure q b t => p == q && s == t && codeEqual a b
  | _, _ => false

/-- Equality of code, instruction by instruction. -/
def codeEqual : List Instruction → List Instruction → Bool
  | [], [] => true
  | a :: as, b :: bs => a.equal b && codeEqual as bs
  | _, _ => false

/-- Equality of instructions: the same kind with equal operands. -/
def Instruction.equal : Instruction → Instruction → Bool
  | .pushConst a, .pushConst b => a.equal b
  | .pop, .pop => true
  | .lookup a, .lookup b => a == b
  | .define a, .define b => a == b
  | .jumpIfTruthy a, .jumpIfTruthy b => a == b
  | .jumpIfFalsy a, .jumpIfFalsy b => a == b
  | .ret, .ret => true
  | .makeClosure, .makeClosure => true
  | .call a, .call b => a == b
  | .callPrimitive f a, .callPrimitive g b => f == g && a == b
  | .apply, .apply => true
  | .display, .display => true
  | .undefined a, .undefined b => a == b
  | _, _ => false

end

/-! ## Reflexivity -/

mutual

/-- **Every value is equal to itself.** -/
@[simp] theorem Value.equal_self : (a : Value) → a.equal a = true
  | .nil => by simp [Value.equal]
  | .bool _ => by simp [Value.equal]
  | .number _ => by simp [Value.equal]
  | .text _ => by simp [Value.equal]
  | .symbol _ => by simp [Value.equal]
  | .quoted a => by simp [Value.equal, a.equal_self]
  | .pair a as _ => by simp [Value.equal, a.equal_self, as.equal_self]
  | .template _ code => by simp [Value.equal, codeEqual_self code]
  | .closure _ code _ => by simp [Value.equal, codeEqual_self code]

/-- All code is equal to itself. -/
@[simp] theorem codeEqual_self : (code : List Instruction) → codeEqual code code = true
  | [] => by simp [codeEqual]
  | i :: code => by simp [codeEqual, i.equal_self, codeEqual_self code]

/-- Every instruction is equal to itself. -/
@[simp] theorem Instruction.equal_self : (i : Instruction) → i.equal i = true
  | .pushConst a => by simp [Instruction.equal, a.equal_self]
  | .pop => by simp [Instruction.equal]
  | .lookup _ => by simp [Instruction.equal]
  | .define _ => by simp [Instruction.equal]
  | .jumpIfTruthy _ => by simp [Instruction.equal]
  | .jumpIfFalsy _ => by simp [Instruction.equal]
  | .ret => by simp [Instruction.equal]
  | .makeClosure => by simp [Instruction.equal]
  | .call _ => by simp [Instruction.equal]
  | .callPrimitive _ _ => by simp [Instruction.equal]
  | .apply => by simp [Instruction.equal]
  | .display => by simp [Instruction.equal]
  | .undefined _ => by simp [Instruction.equal]

end

/-! ## Equality of values that share parts -/

/-- The answer of `Value.equal`, asked for only if the two values are not one object. -/
@[inline] def Value.unlessSame (a b : Value) (answer : Unit → { r : Bool // r = a.equal b }) :
    { r : Bool // r = a.equal b } :=
  ⟨withPtrEq a b (fun _ => (answer ()).1) (fun h => by rw [(answer ()).2, h, b.equal_self]),
    (answer ()).2⟩

/-- The answer of `codeEqual`, asked for only if the two are not one object. -/
@[inline] def codeUnlessSame (a b : List Instruction)
    (answer : Unit → { r : Bool // r = codeEqual a b }) : { r : Bool // r = codeEqual a b } :=
  ⟨withPtrEq a b (fun _ => (answer ()).1) (fun h => by rw [(answer ()).2, h, codeEqual_self]),
    (answer ()).2⟩

mutual

/-- The answer of `Value.equal`, without the comparison of parts that are one object. -/
def Value.compareParts : (a b : Value) → { r : Bool // r = a.equal b }
  | .quoted a, .quoted b => Value.unlessSame a b fun _ => a.compareParts b
  | .pair a as _, .pair b bs _ =>
    ⟨(Value.unlessSame a b fun _ => a.compareParts b).1
        && (Value.unlessSame as bs fun _ => as.compareParts bs).1,
      by rw [(Value.unlessSame ..).2, (Value.unlessSame ..).2, Value.equal]⟩
  | .template p a, .template q b =>
    ⟨p == q && (codeUnlessSame a b fun _ => compareCode a b).1,
      by rw [(codeUnlessSame ..).2, Value.equal]⟩
  | .closure p a s, .closure q b t =>
    ⟨p == q && s == t && (codeUnlessSame a b fun _ => compareCode a b).1,
      by rw [(codeUnlessSame ..).2, Value.equal]⟩
  | a, b => ⟨a.equal b, rfl⟩

/-- The answer of `codeEqual`, without the comparison of parts that are one object. -/
def compareCode : (a b : List Instruction) → { r : Bool // r = codeEqual a b }
  | a :: as, b :: bs =>
    ⟨(a.compareParts b).1 && (codeUnlessSame as bs fun _ => compareCode as bs).1,
      by rw [(a.compareParts b).2, (codeUnlessSame ..).2, codeEqual]⟩
  | a, b => ⟨codeEqual a b, rfl⟩

/-- The answer of `Instruction.equal`, without the comparison of parts that are one object. -/
def Instruction.compareParts : (a b : Instruction) → { r : Bool // r = a.equal b }
  | .pushConst a, .pushConst b =>
    ⟨(Value.unlessSame a b fun _ => a.compareParts b).1,
      by rw [(Value.unlessSame ..).2, Instruction.equal]⟩
  | a, b => ⟨a.equal b, rfl⟩

end

/-- **Are two values equal?**  Parts that are one object are not compared. -/
def Value.isEqual (a b : Value) : Bool :=
  (Value.unlessSame a b fun _ => a.compareParts b).1

/-- **The answer is that of structural equality.** -/
@[simp] theorem Value.isEqual_eq (a b : Value) : a.isEqual b = a.equal b :=
  (Value.unlessSame a b fun _ => a.compareParts b).2

end StackLisp
