import StackLisp.Proofs.Code.Emits

/-!
# The height of the stack in compiled code

How many values does a function have on the stack before one of its instructions?  The code
alone says so.  It ends in a return, before which there is one value, and each instruction takes
and leaves a fixed number, so the heights are found by going backwards through the code
(`Code.heights`); at a jump that pops what it tests, one looks at where it leads to.

Code is **balanced** (`Code.Balanced`) if it keeps to such heights on every way through it: each
instruction finds the values that it takes, the ways that meet bring the same height, and
every way ends in a return.  Two pairs of instructions are taken as one: a template that is
made a closure, and a false constant that is tested, which is a jump that is always taken.

**Compiled code is balanced** (`Code.balanced_of_ofBody`), and the height of balanced code is
the one computed from it (`Code.Balanced.height_eq`).
-/

namespace StackLisp.Code

/-- The height before an instruction, given the heights before the instructions after it. -/
def heightBefore : Instruction → List Nat → Nat
  | .ret, _ => 1
  | .jumpIfFalsy offset, later => later.getD offset.toNat 0 + 1
  | .pushConst _, later | .lookup _, later => later.headD 0 - 1
  | .pop, later | .define _, later | .apply, later => later.headD 0 + 1
  | .jumpIfTruthy _, later | .makeClosure, later | .display, later => later.headD 0
  | .call argc, later => later.headD 0 + argc.toNat
  | .callPrimitive _ argc, later => later.headD 0 + argc.toNat - 1
  | .undefined _, _ => 0

/-- **The height of the stack before each instruction** of code that ends in a return. -/
def heights : Code → List Nat
  | [] => []
  | i :: rest => heightBefore i (heights rest) :: heights rest

/-- The height of the stack before the first instruction. -/
def height (code : Code) : Nat :=
  (heights code).headD 0

/-- **Balanced code**: from here on, with `h` values on the stack, every way through the code
finds what it takes and ends in a return of one value. -/
inductive Balanced : Code → Nat → Prop
  | ret (rest : Code) : Balanced (.ret :: rest) 1
  | pushConst {rest : Code} {h : Nat} (v : Value) (hr : Balanced rest (h + 1)) :
      Balanced (.pushConst v :: rest) h
  | function {rest body : Code} {h : Nat} (params : Parameters) (hr : Balanced rest (h + 1)) :
      Balanced (.pushConst (.template params body) :: .makeClosure :: rest) h
  | goto {rest : Code} {h n : Nat} {v : Value} (hv : v.isFalsy = true)
      (hr : Balanced (rest.drop n) h) : Balanced (.pushConst v :: .jumpIfFalsy n :: rest) h
  | pop {rest : Code} {h : Nat} (hr : Balanced rest h) : Balanced (.pop :: rest) (h + 1)
  | lookup {rest : Code} {h : Nat} (name : String) (hr : Balanced rest (h + 1)) :
      Balanced (.lookup name :: rest) h
  | define {rest : Code} {h : Nat} (name : String) (hr : Balanced rest h) :
      Balanced (.define name :: rest) (h + 1)
  | jumpIfTruthy {rest : Code} {h n : Nat} (hr : Balanced rest (h + 1))
      (hj : Balanced (rest.drop n) (h + 1)) : Balanced (.jumpIfTruthy n :: rest) (h + 1)
  | jumpIfFalsy {rest : Code} {h n : Nat} (hr : Balanced rest h)
      (hj : Balanced (rest.drop n) h) : Balanced (.jumpIfFalsy n :: rest) (h + 1)
  | call {rest : Code} {h : Nat} (argc : Nat) (hr : Balanced rest (h + 1)) :
      Balanced (.call argc :: rest) (h + 1 + argc)
  | callPrimitive {rest : Code} {h argc : Nat} (p : Primitive)
      (ha : p.arity.all (· = argc) = true) (hr : Balanced rest (h + 1)) :
      Balanced (.callPrimitive p.name argc :: rest) (h + argc)
  | apply {rest : Code} {h : Nat} (hr : Balanced rest (h + 1)) : Balanced (.apply :: rest) (h + 2)
  | display {rest : Code} {h : Nat} (hr : Balanced rest (h + 1)) :
      Balanced (.display :: rest) (h + 1)

/-- **Code makes a function**: it pushes the template and makes it a closure at once. -/
def Makes (code : Code) (params : Parameters) (body : Code) : Prop :=
  [.pushConst (.template params body), .makeClosure] <:+: code

/-! ## The height of balanced code -/

theorem heights_drop (n : Nat) (code : Code) : heights (code.drop n) = (heights code).drop n := by
  induction code generalizing n with
  | nil => simp [heights]
  | cons i rest ih =>
    cases n with
    | zero => rfl
    | succ n => exact ih n

/-- The height at a place of the code is that of the code from there on. -/
theorem getD_heights (n : Nat) (code : Code) : (heights code).getD n 0 = height (code.drop n) := by
  rw [height, heights_drop, List.headD_eq_head?_getD, List.head?_drop, List.getD_eq_getElem?_getD]

/-- **The height of balanced code** is the one computed from the code. -/
theorem Balanced.height_eq {code : Code} {h : Nat} (hb : Balanced code h) : height code = h := by
  induction hb with
  | ret rest => rfl
  | pushConst v _ ih => simp [height, heights, heightBefore] at ih ⊢; omega
  | function params _ ih => simp [height, heights, heightBefore] at ih ⊢; omega
  | goto hv _ ih =>
    rw [← getD_heights, List.getD_eq_getElem?_getD] at ih
    simp [height, heights, heightBefore, ih]
  | pop _ ih => simpa [height, heights, heightBefore] using ih
  | lookup name _ ih => simp [height, heights, heightBefore] at ih ⊢; omega
  | define name _ ih => simpa [height, heights, heightBefore] using ih
  | jumpIfTruthy _ _ ih _ => simpa [height, heights, heightBefore] using ih
  | jumpIfFalsy _ _ _ ih =>
    rw [← getD_heights, List.getD_eq_getElem?_getD] at ih
    simp [height, heights, heightBefore, ih]
  | call argc _ ih => simp [height, heights, heightBefore] at ih ⊢; omega
  | callPrimitive p ha _ ih => simp [height, heights, heightBefore] at ih ⊢; omega
  | apply _ ih => simp [height, heights, heightBefore] at ih ⊢; omega
  | display _ ih => simpa [height, heights, heightBefore] using ih

/-- There is always a next instruction. -/
theorem Balanced.ne_nil {code : Code} {h : Nat} (hb : Balanced code h) : code ≠ [] := by
  cases hb <;> exact List.cons_ne_nil _ _

/-! ## Compiled code is balanced -/

section Emits
variable {bound : List String}

mutual

/-- **The code of a form leaves one value**: what comes after it is balanced with one value
more. -/
theorem Emits.balanced : ∀ {form : Value} {code : Code}, Emits bound form code →
    ∀ {rest : Code} {h : Nat}, Balanced rest (h + 1) → Balanced (code ++ rest) h
  | _, _, .variable name, _, _, hr => .lookup name hr
  | _, _, .constant _, _, _, hr | _, _, .quoted _, _, _, hr | _, _, .quotation _, _, _, hr =>
    .pushConst _ hr
  | _, _, .function _ _ hf, _, _, hr => hf.balanced hr
  | _, _, .definition _ hv, rest, h, hr => by
    rw [List.append_assoc]
    exact hv.balanced (.define _ (.pushConst _ hr))
  | _, _, .functionDefinition _ hf, rest, h, hr => by
    rw [List.append_assoc]
    exact hf.balanced (.define _ (.pushConst _ hr))
  | _, _, .conditional (y := y) (n := n) _ htest hyes hno, rest, h, hr => by
    have hend : Balanced (.pushConst (.bool false) :: .jumpIfFalsy n.length :: (n ++ rest))
        (h + 1) := by
      refine .goto rfl ?_
      rw [List.drop_left]
      exact hr
    simp only [List.append_assoc, List.cons_append, List.nil_append]
    refine htest.balanced (.jumpIfFalsy (hyes.balanced hend) ?_)
    -- the jump over the consequent also skips the two instructions that end it
    have hskip : (y ++ .pushConst (.bool false) :: .jumpIfFalsy n.length :: (n ++ rest)).drop
        (y.length + 2) = n ++ rest := by
      rw [← List.drop_drop, List.drop_left]
      rfl
    rw [hskip]
    exact hno.balanced hr
  | _, _, .conjunction _ hs, _, _, hr => hs.balanced hr
  | _, _, .disjunction _ hs, _, _, hr => hs.balanced hr
  | _, _, .spread _ hf ha, rest, h, hr => by
    simp only [List.append_assoc]
    exact hf.balanced (ha.balanced (.apply hr))
  | _, _, .display _ ha, rest, h, hr => by
    rw [List.append_assoc]
    exact ha.balanced (.display hr)
  | _, _, .primitive _ _ _ ha hs, rest, h, hr => by
    rw [List.append_assoc]
    exact hs.balanced (.callPrimitive _ ha hr)
  | _, _, .call _ _ _ hf hs, rest, h, hr => by
    simp only [List.append_assoc]
    exact hf.balanced (hs.balanced (.call _ hr))

/-- The code of several forms leaves a value for each. -/
theorem EmitsEach.balanced : ∀ {forms : List Value} {code : Code}, EmitsEach bound forms code →
    ∀ {rest : Code} {h : Nat}, Balanced rest (h + forms.length) → Balanced (code ++ rest) h
  | _, _, .nil, _, _, hr => hr
  | _, _, @EmitsEach.cons _ _ forms _ _ hf hs, rest, h, hr => by
    rw [List.append_assoc]
    refine hf.balanced (hs.balanced ?_)
    rwa [List.length_cons, Nat.add_comm forms.length, ← Nat.add_assoc] at hr

theorem EmitsAnd.balanced : ∀ {forms : List Value} {code : Code}, EmitsAnd bound forms code →
    ∀ {rest : Code} {h : Nat}, Balanced rest (h + 1) → Balanced (code ++ rest) h
  | _, _, .nil, _, _, hr => .pushConst _ hr
  | _, _, .last hf, _, _, hr => hf.balanced hr
  | _, _, .cons (d := d) _ hf hs, rest, h, hr => by
    have hright : Balanced (.pop :: (d ++ rest)) (h + 1) := .pop (hs.balanced hr)
    have hleft : Balanced (.pushConst (.bool false) :: .jumpIfFalsy (1 + d.length) ::
        .pop :: (d ++ rest)) (h + 1) := by
      refine .goto (n := 1 + d.length) rfl ?_
      rw [Nat.add_comm, List.drop_succ_cons, List.drop_left]
      exact hr
    simp only [List.append_assoc, List.cons_append, List.nil_append]
    exact hf.balanced (.jumpIfTruthy (n := 2) hleft hright)

theorem EmitsOr.balanced : ∀ {forms : List Value} {code : Code}, EmitsOr bound forms code →
    ∀ {rest : Code} {h : Nat}, Balanced rest (h + 1) → Balanced (code ++ rest) h
  | _, _, .nil, _, _, hr => .pushConst _ hr
  | _, _, .last hf, _, _, hr => hf.balanced hr
  | _, _, .cons (d := d) _ hf hs, rest, h, hr => by
    simp only [List.append_assoc, List.cons_append, List.nil_append]
    refine hf.balanced (.jumpIfTruthy (n := 1 + d.length) (.pop (hs.balanced hr)) ?_)
    rw [Nat.add_comm, List.drop_succ_cons, List.drop_left]
    exact hr

/-- The code of a body starts without values and returns one. -/
theorem EmitsBody.balanced : ∀ {forms : List Value} {code : Code}, EmitsBody bound forms code →
    Balanced code 0
  | _, _, .last hf => hf.balanced (.ret [])
  | _, _, .cons hf hs => hf.balanced (.pop hs.balanced)

theorem EmitsFunction.balanced : ∀ {params : Value} {body : List Value} {code : Code},
    EmitsFunction bound params body code →
    ∀ {rest : Code} {h : Nat}, Balanced rest (h + 1) → Balanced (code ++ rest) h
  | _, _, _, .mk _ _ _ _, _, _, hr => .function _ hr

end

end Emits

/-- **Compiled code is balanced.** -/
theorem balanced_of_ofBody {bound : List String} {forms : List Value} {code : Code}
    (hne : forms ≠ []) (h : ofBody bound forms = .ok code) : Balanced code 0 :=
  (emitsBody_of_ofBody hne h).balanced

end StackLisp.Code
