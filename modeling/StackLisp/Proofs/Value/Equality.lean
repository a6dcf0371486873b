import Mathlib
import StackLisp.Value.Equality

/-!
# The laws of equality

Two values are **alike** (`Value.Alike`) if they are built alike from parts that are alike,
wherever their lists were read.  Numbers are alike if they compare as equal, so the two zeros are,
and functions if their parameters, their scopes and their instructions are.  What an instruction
pushes is a value again, so the relation on values and the one on code are defined together.

Likeness is symmetric and transitive.  What is no number is not even alike to itself, so likeness is
reflexive on values **without NaN** only (`Value.NaNFree`).  **Equality of such values is
likeness**, and has its laws for that reason (`Value.isEqual_lawful`).

What is alike stays so along every path from the whole to a part (`Value.Alike.part?`).  So no
boolean counts as equal to a number, however deep in the values and in the code of their functions
the two are.
-/

namespace StackLisp

/-! ## Numbers -/

namespace Double
variable {x y z : Float}

theorem beq_symm (h : (x == y) = true) : (y == x) = true := by
  rw [Float.beq_iff_ne_nan_and_eq] at h ⊢
  obtain ⟨hx, hy, h⟩ := h
  refine ⟨hy, hx, ?_⟩
  obtain rfl | ⟨rfl, rfl⟩ | ⟨rfl, rfl⟩ := h <;> simp

theorem beq_trans (h : (x == y) = true) (h' : (y == z) = true) : (x == z) = true := by
  rw [Float.beq_iff_ne_nan_and_eq] at h h' ⊢
  obtain ⟨hx, -, h⟩ := h
  obtain ⟨-, hz, h'⟩ := h'
  refine ⟨hx, hz, ?_⟩
  obtain rfl | ⟨rfl, rfl⟩ | ⟨rfl, rfl⟩ := h
  · exact h'
  · obtain rfl | ⟨-, rfl⟩ | ⟨-, rfl⟩ := h' <;> simp
  · obtain rfl | ⟨-, rfl⟩ | ⟨-, rfl⟩ := h' <;> simp

/-- Numbers that are alike are zero alike. -/
theorem beq_zero_eq (h : (x == y) = true) : (x == 0) = (y == 0) :=
  Bool.eq_iff_iff.mpr ⟨beq_trans (beq_symm h), beq_trans h⟩

/-- The bits of numbers only matter for NaN. -/
theorem sameNumber_eq_true (hx : x.isNaN = false) : sameNumber x y = true ↔ (x == y) = true := by
  rw [sameNumber, Bool.or_eq_true, or_iff_left_of_imp]
  -- The same bits are the same number, which is equal to itself unless it is NaN.
  intro h
  obtain rfl := Float.toBits_inj.mp (beq_iff_eq.mp h)
  rw [Float.beq_self_iff]
  simpa using hx

end Double

/-! ## Likeness -/

mutual

/-- **Values that are alike**: built alike from parts that are alike. -/
inductive Value.Alike : Value → Value → Prop
  | nil : Value.Alike .nil .nil
  | bool (b : Bool) : Value.Alike (.bool b) (.bool b)
  | number {x y : Float} (h : (x == y) = true) : Value.Alike (.number x) (.number y)
  | text (s : String) : Value.Alike (.text s) (.text s)
  | symbol (name : String) : Value.Alike (.symbol name) (.symbol name)
  | quoted {v w : Value} (h : Value.Alike v w) : Value.Alike (.quoted v) (.quoted w)
  | pair {head head' tail tail' : Value} {loc loc' : Option Location} (hh : Value.Alike head head')
      (ht : Value.Alike tail tail') : Value.Alike (.pair head tail loc) (.pair head' tail' loc')
  | template {params : Parameters} {code code' : List Instruction} (h : CodeAlike code code') :
      Value.Alike (.template params code) (.template params code')
  | closure {params : Parameters} {code code' : List Instruction} {scope : ScopeId}
      (h : CodeAlike code code') :
      Value.Alike (.closure params code scope) (.closure params code' scope)

/-- Code that is alike: as many instructions, and those in the same place alike. -/
inductive CodeAlike : List Instruction → List Instruction → Prop
  | nil : CodeAlike [] []
  | cons {i j : Instruction} {code code' : List Instruction} (h : Instruction.Alike i j)
      (hc : CodeAlike code code') : CodeAlike (i :: code) (j :: code')

/-- Instructions that are alike: they push values that are alike, or push none and are the same. -/
inductive Instruction.Alike : Instruction → Instruction → Prop
  | pushConst {v w : Value} (h : Value.Alike v w) : Instruction.Alike (.pushConst v) (.pushConst w)
  | same {i : Instruction} (h : ∀ v, i ≠ .pushConst v) : Instruction.Alike i i

end

mutual

theorem Value.Alike.symm {v w : Value} : v.Alike w → w.Alike v
  | .nil => .nil
  | .bool b => .bool b
  | .number h => .number (Double.beq_symm h)
  | .text s => .text s
  | .symbol name => .symbol name
  | .quoted h => .quoted h.symm
  | .pair hh ht => .pair hh.symm ht.symm
  | .template h => .template h.symm
  | .closure h => .closure h.symm

theorem CodeAlike.symm {c d : List Instruction} : CodeAlike c d → CodeAlike d c
  | .nil => .nil
  | .cons h hc => .cons h.symm hc.symm

theorem Instruction.Alike.symm {i j : Instruction} : i.Alike j → j.Alike i
  | .pushConst h => .pushConst h.symm
  | .same h => .same h

end

mutual

theorem Value.Alike.trans {u v w : Value} : u.Alike v → v.Alike w → u.Alike w
  | .nil, h => h
  | .bool _, h => h
  | .number h, .number h' => .number (Double.beq_trans h h')
  | .text _, h => h
  | .symbol _, h => h
  | .quoted h, .quoted h' => .quoted (h.trans h')
  | .pair hh ht, .pair hh' ht' => .pair (hh.trans hh') (ht.trans ht')
  | .template h, .template h' => .template (h.trans h')
  | .closure h, .closure h' => .closure (h.trans h')

theorem CodeAlike.trans {b c d : List Instruction} : CodeAlike b c → CodeAlike c d → CodeAlike b d
  | .nil, h => h
  | .cons h hc, .cons h' hc' => .cons (h.trans h') (hc.trans hc')

theorem Instruction.Alike.trans {i j k : Instruction} : i.Alike j → j.Alike k → i.Alike k
  | .pushConst h, .pushConst h' => .pushConst (h.trans h')
  | .pushConst _, .same h' => absurd rfl (h' _)
  | .same _, h' => h'

end

/-- Values that are alike are false alike. -/
theorem Value.Alike.isFalsy {v w : Value} (h : v.Alike w) : v.isFalsy = w.isFalsy := by
  cases h with
  | number h => exact Double.beq_zero_eq h
  | _ => rfl

/-! ## Parts -/

/-- A step from a value to one of its parts. -/
inductive Value.Branch where
  /-- To the head of a pair. -/
  | head
  /-- To the tail of a pair. -/
  | tail
  /-- To what is quoted. -/
  | content
  /-- To what an instruction of a function pushes. -/
  | constant (index : Nat)
  deriving DecidableEq, Repr

/-- What an instruction pushes. -/
def Instruction.constant? : Instruction → Option Value
  | pushConst v => some v
  | _ => none

namespace Value

/-- The part that a step leads to, if there is one. -/
def branch? : Branch → Value → Option Value
  | .head, .pair head _ _ => some head
  | .tail, .pair _ tail _ => some tail
  | .content, .quoted v => some v
  | .constant index, .template _ code => code[index]?.bind Instruction.constant?
  | .constant index, .closure _ code _ => code[index]?.bind Instruction.constant?
  | _, _ => none

/-- **The part of a value at the end of a path**, at any depth. -/
def part? : List Branch → Value → Option Value
  | [], v => some v
  | b :: path, v => (v.branch? b).bind (part? path)

end Value

theorem Instruction.Alike.constant? {i j : Instruction} :
    i.Alike j → Option.Rel Value.Alike i.constant? j.constant?
  | .pushConst h => .some h
  | .same h => by
    cases j with
    | pushConst v => exact absurd rfl (h v)
    | _ => exact .none

theorem CodeAlike.constant? {code code' : List Instruction} (h : CodeAlike code code')
    (index : Nat) : Option.Rel Value.Alike (code[index]?.bind Instruction.constant?)
      (code'[index]?.bind Instruction.constant?) := by
  induction index generalizing code code' with
  | zero =>
    cases h with
    | nil => exact .none
    | cons h _ => exact h.constant?
  | succ index ih =>
    cases h with
    | nil => exact .none
    | cons _ hc => simpa only [List.getElem?_cons_succ] using ih hc

namespace Value.Alike
variable {v w : Value}

theorem branch? (h : v.Alike w) (b : Branch) :
    Option.Rel Value.Alike (v.branch? b) (w.branch? b) := by
  cases h with
  | nil | bool _ | number _ | text _ | symbol _ => cases b <;> exact .none
  | quoted h =>
    cases b with
    | content => exact .some h
    | _ => exact .none
  | pair hh ht =>
    cases b with
    | head => exact .some hh
    | tail => exact .some ht
    | _ => exact .none
  | template h | closure h =>
    cases b with
    | constant index => exact h.constant? index
    | _ => exact .none

/-- **Values that are alike have the same paths, and parts that are alike at their ends.** -/
theorem part? (h : v.Alike w) (path : List Branch) :
    Option.Rel Value.Alike (v.part? path) (w.part? path) := by
  induction path generalizing v w with
  | nil => exact .some h
  | cons b path ih =>
    have hb := h.branch? b
    simp only [Value.part?]
    generalize v.branch? b = part at hb ⊢
    generalize w.branch? b = part' at hb ⊢
    cases hb with
    | none => exact .none
    | some hp => exact ih hp

/-- Where one of two values that are alike has a boolean, the other has no number. -/
theorem part?_ne_number (h : v.Alike w) {path : List Branch} {b : Bool} {x : Float}
    (hv : v.part? path = some (.bool b)) : w.part? path ≠ some (.number x) := by
  intro hw
  have hp := h.part? path
  rw [hv, hw, Option.rel_some_some] at hp
  cases hp

end Value.Alike

/-! ## Equality -/

/-- **A value without NaN**, also among the constants of its functions. -/
inductive Value.NaNFree : Value → Prop
  | nil : Value.NaNFree .nil
  | bool (b : Bool) : Value.NaNFree (.bool b)
  | number {x : Float} (h : x.isNaN = false) : Value.NaNFree (.number x)
  | text (s : String) : Value.NaNFree (.text s)
  | symbol (name : String) : Value.NaNFree (.symbol name)
  | quoted {v : Value} (h : Value.NaNFree v) : Value.NaNFree (.quoted v)
  | pair {head tail : Value} {loc : Option Location} (hh : Value.NaNFree head)
      (ht : Value.NaNFree tail) : Value.NaNFree (.pair head tail loc)
  | template {params : Parameters} {code : List Instruction}
      (h : ∀ v, Instruction.pushConst v ∈ code → Value.NaNFree v) :
      Value.NaNFree (.template params code)
  | closure {params : Parameters} {code : List Instruction} {scope : ScopeId}
      (h : ∀ v, Instruction.pushConst v ∈ code → Value.NaNFree v) :
      Value.NaNFree (.closure params code scope)

mutual

/-- Values that are alike are equal, with or without NaN. -/
theorem Value.Alike.equal {v w : Value} : v.Alike w → v.equal w = true
  | .nil => rfl
  | .bool b | .text b | .symbol b => by simp only [Value.equal, beq_self_eq_true]
  | .number h => by simp only [Value.equal, sameNumber, h, Bool.true_or]
  | .quoted h => by simp only [Value.equal, h.equal]
  | .pair hh ht => by simp only [Value.equal, hh.equal, ht.equal, Bool.and_self]
  | .template h => by simp only [Value.equal, h.equal, beq_self_eq_true, Bool.and_self]
  | .closure h => by simp only [Value.equal, h.equal, beq_self_eq_true, Bool.and_self]

theorem CodeAlike.equal {c d : List Instruction} : CodeAlike c d → codeEqual c d = true
  | .nil => rfl
  | .cons h hc => by simp only [codeEqual, h.equal, hc.equal, Bool.and_self]

theorem Instruction.Alike.equal {i j : Instruction} : i.Alike j → i.equal j = true
  | .pushConst h => h.equal
  | .same _ => j.equal_self

end

/-- Instructions that are equal and push nothing are the same. -/
theorem Instruction.eq_of_equal {i j : Instruction} (hi : ∀ v, i ≠ .pushConst v)
    (h : i.equal j = true) : i = j := by
  cases i with
  | pushConst v => exact absurd rfl (hi v)
  | _ => cases j <;> simp_all [Instruction.equal]

mutual

/-- **Without NaN, values that are equal are alike.** -/
theorem Value.alike_of_equal : ∀ {v w : Value}, v.NaNFree → v.equal w = true → v.Alike w
  | .nil, w, _, h => by
    cases w with
    | nil => exact .nil
    | _ => cases h
  | .bool a, w, _, h => by
    cases w with
    | bool b => exact beq_iff_eq.mp h ▸ .bool a
    | _ => cases h
  | .number x, w, hn, h => by
    cases w with
    | number y =>
      cases hn with
      | number hx => exact .number ((Double.sameNumber_eq_true hx).mp h)
    | _ => cases h
  | .text a, w, _, h => by
    cases w with
    | text b => exact beq_iff_eq.mp h ▸ .text a
    | _ => cases h
  | .symbol a, w, _, h => by
    cases w with
    | symbol b => exact beq_iff_eq.mp h ▸ .symbol a
    | _ => cases h
  | .quoted v, w, hn, h => by
    cases w with
    | quoted w =>
      cases hn with
      | quoted hv => exact .quoted (v.alike_of_equal hv h)
    | _ => cases h
  | .pair head tail _, w, hn, h => by
    cases w with
    | pair head' tail' _ =>
      cases hn with
      | pair hh ht =>
        rw [Value.equal, Bool.and_eq_true] at h
        exact .pair (head.alike_of_equal hh h.1) (tail.alike_of_equal ht h.2)
    | _ => cases h
  | .template params code, w, hn, h => by
    cases w with
    | template params' code' =>
      cases hn with
      | template hc =>
        rw [Value.equal, Bool.and_eq_true, beq_iff_eq] at h
        obtain ⟨rfl, hcode⟩ := h
        exact .template (codeAlike_of_equal hc hcode)
    | _ => cases h
  | .closure params code scope, w, hn, h => by
    cases w with
    | closure params' code' scope' =>
      cases hn with
      | closure hc =>
        rw [Value.equal, Bool.and_eq_true, Bool.and_eq_true, beq_iff_eq, beq_iff_eq] at h
        obtain ⟨⟨rfl, rfl⟩, hcode⟩ := h
        exact .closure (codeAlike_of_equal hc hcode)
    | _ => cases h

theorem codeAlike_of_equal : ∀ {c d : List Instruction},
    (∀ v, Instruction.pushConst v ∈ c → v.NaNFree) → codeEqual c d = true → CodeAlike c d
  | [], d, _, h => by
    cases d with
    | nil => exact .nil
    | cons => cases h
  | i :: code, d, hn, h => by
    cases d with
    | nil => cases h
    | cons j code' =>
      rw [codeEqual, Bool.and_eq_true] at h
      refine .cons (i.alike_of_equal ?_ h.1)
        (codeAlike_of_equal (fun v hv => hn v (List.mem_cons_of_mem _ hv)) h.2)
      rintro v rfl
      exact hn v List.mem_cons_self

theorem Instruction.alike_of_equal : ∀ {i j : Instruction},
    (∀ v, i = .pushConst v → v.NaNFree) → i.equal j = true → i.Alike j
  | .pushConst v, j, hn, h => by
    cases j with
    | pushConst w => exact .pushConst (v.alike_of_equal (hn v rfl) h)
    | _ => cases h
  | .pop, j, _, h | .lookup _, j, _, h | .define _, j, _, h | .jumpIfTruthy _, j, _, h
  | .jumpIfFalsy _, j, _, h | .ret, j, _, h | .makeClosure, j, _, h | .call _, j, _, h
  | .callPrimitive _ _, j, _, h | .apply, j, _, h | .display, j, _, h | .undefined _, j, _, h =>
    Instruction.eq_of_equal (by simp) h ▸ .same (by simp)

end

/-! ## Values that are equal only to themselves -/

mutual

/-- Is the value **rigid**: without numbers and lists, also in the code of functions? -/
def Value.isRigid : Value → Bool
  | .nil | .bool _ | .text _ | .symbol _ => true
  | .number _ | .pair _ _ _ => false
  | .quoted v => v.isRigid
  | .template _ code | .closure _ code _ => codeIsRigid code

/-- Are all constants of the code rigid? -/
def codeIsRigid : List Instruction → Bool
  | [] => true
  | i :: code => i.isRigid && codeIsRigid code

/-- Is the constant rigid that an instruction pushes? -/
def Instruction.isRigid : Instruction → Bool
  | .pushConst v => v.isRigid
  | .pop | .lookup _ | .define _ | .jumpIfTruthy _ | .jumpIfFalsy _ | .ret | .makeClosure
  | .call _ | .callPrimitive _ _ | .apply | .display | .undefined _ => true

end

mutual

/-- **What equals a rigid value is that value.** -/
theorem Value.eq_of_equal : ∀ {v w : Value}, v.isRigid = true → v.equal w = true → v = w
  | .nil, w, _, h => by
    cases w with
    | nil => rfl
    | _ => cases h
  | .bool a, w, _, h => by
    cases w with
    | bool b => exact congrArg Value.bool (beq_iff_eq.mp h)
    | _ => cases h
  | .text a, w, _, h => by
    cases w with
    | text b => exact congrArg Value.text (beq_iff_eq.mp h)
    | _ => cases h
  | .symbol a, w, _, h => by
    cases w with
    | symbol b => exact congrArg Value.symbol (beq_iff_eq.mp h)
    | _ => cases h
  | .quoted v, w, hr, h => by
    cases w with
    | quoted w => exact congrArg Value.quoted (v.eq_of_equal hr h)
    | _ => cases h
  | .template params code, w, hr, h => by
    cases w with
    | template params' code' =>
      rw [Value.equal, Bool.and_eq_true, beq_iff_eq] at h
      rw [h.1, code_eq_of_equal hr h.2]
    | _ => cases h
  | .closure params code scope, w, hr, h => by
    cases w with
    | closure params' code' scope' =>
      rw [Value.equal, Bool.and_eq_true, Bool.and_eq_true, beq_iff_eq, beq_iff_eq] at h
      rw [h.1.1, h.1.2, code_eq_of_equal hr h.2]
    | _ => cases h

theorem code_eq_of_equal : ∀ {c d : List Instruction},
    codeIsRigid c = true → codeEqual c d = true → c = d
  | [], d, _, h => by
    cases d with
    | nil => rfl
    | cons => cases h
  | i :: code, d, hr, h => by
    cases d with
    | nil => cases h
    | cons j code' =>
      rw [codeEqual, Bool.and_eq_true] at h
      rw [codeIsRigid, Bool.and_eq_true] at hr
      rw [i.eq_of_rigid hr.1 h.1, code_eq_of_equal hr.2 h.2]

theorem Instruction.eq_of_rigid : ∀ {i j : Instruction},
    i.isRigid = true → i.equal j = true → i = j
  | .pushConst v, j, hr, h => by
    cases j with
    | pushConst w => exact congrArg Instruction.pushConst (v.eq_of_equal hr h)
    | _ => cases h
  | .pop, j, _, h | .lookup _, j, _, h | .define _, j, _, h | .jumpIfTruthy _, j, _, h
  | .jumpIfFalsy _, j, _, h | .ret, j, _, h | .makeClosure, j, _, h | .call _, j, _, h
  | .callPrimitive _ _, j, _, h | .apply, j, _, h | .display, j, _, h | .undefined _, j, _, h =>
    Instruction.eq_of_equal (by simp) h

end

/-- **Equality is lawful on values without NaN.**  It is an equivalence, and holds exactly for
values that are alike.  A boolean in one value and a number at the same place in another keep the
two from being equal, at any depth.  Equal values are false alike. -/
theorem Value.isEqual_lawful {u v w : Value} (hu : u.NaNFree) (hv : v.NaNFree) (hw : w.NaNFree) :
    v.isEqual v = true ∧ v.isEqual w = w.isEqual v ∧
    (u.isEqual v = true → v.isEqual w = true → u.isEqual w = true) ∧
    (v.isEqual w = true ↔ v.Alike w) ∧
    (∀ path b x, v.part? path = some (.bool b) → w.part? path = some (.number x) →
      v.isEqual w = false ∧ w.isEqual v = false) ∧
    (v.isEqual w = true → v.isFalsy = w.isFalsy) := by
  simp only [isEqual_eq]
  have hsymm : v.equal w = w.equal v := Bool.eq_iff_iff.mpr
    ⟨fun h => (alike_of_equal hv h).symm.equal, fun h => (alike_of_equal hw h).symm.equal⟩
  refine ⟨v.equal_self, hsymm,
    fun h h' => ((alike_of_equal hu h).trans (alike_of_equal hv h')).equal,
    ⟨alike_of_equal hv, Alike.equal⟩, fun path b x hb hx => ?_,
    fun h => (alike_of_equal hv h).isFalsy⟩
  -- If the values were alike, their parts at the end of the path would be.
  have hne : v.equal w = false :=
    Bool.eq_false_iff.mpr fun h => (alike_of_equal hv h).part?_ne_number hb hx
  exact ⟨hne, hsymm ▸ hne⟩

/-- Closures over one scope whose code has a list in it: that of one zero, that of the other, read
elsewhere, and that of `false`. -/
theorem Value.isEqual_lawful_closures :
    let function (v : Value) (loc : Option Location) : Value :=
      .closure ⟨["x"], none⟩ [.pushConst (.pair v .nil loc), .ret] 1
    let zero := function (.number 0) (some ⟨1, 1, none⟩)
    zero.isEqual (function (.number (-0)) none) = true ∧
      (function (.bool false) none).isEqual zero = false := by
  intro function zero
  have hfree : ∀ v loc, v.NaNFree → (function v loc).NaNFree := by
    intro v loc hv
    refine .closure fun w hw => ?_
    obtain rfl : w = .pair v .nil loc := by simpa using hw
    exact .pair hv .nil
  have hzero : zero.NaNFree := hfree _ _ (.number (by decide))
  have hnegative := hfree (.number (-0)) none (.number (by decide))
  have hfalse := hfree (.bool false) none (.bool false)
  obtain ⟨-, -, -, halike, -⟩ := isEqual_lawful hzero hzero hnegative
  obtain ⟨-, -, -, -, hbool, -⟩ := isEqual_lawful hzero hfalse hzero
  refine ⟨halike.mpr (.closure (.cons (.pushConst (.pair (.number ?_) .nil))
    (.cons (.same (by simp)) .nil))), (hbool [.constant 0, .head] false 0 rfl rfl).1⟩
  decide

end StackLisp
