import StackLisp.Code.Compile

/-!
# What the compiler emits

`Code.Emits bound form code` says, rule by rule, which code belongs to a form in a program
that binds the names `bound`.  It is the table of `Code.ofForm` read as a relation, with one
rule for each kind of form and the code of its parts as premises.  The compiler keeps to it
(`Code.emits_of_ofForm`, `Code.emitsBody_of_ofBody`), so a fact about all compiled code is an
induction over these rules, and the compiler itself need not be opened again.
-/

namespace StackLisp

/-- **A computation of two parts succeeds if both do**, the second with the first's value. -/
@[simp] theorem bind_eq_ok {ε α β : Type} {first : Except ε α} {next : α → Except ε β} {b : β} :
    first >>= next = .ok b ↔ ∃ a, first = .ok a ∧ next a = .ok b := by
  cases first <;> simp [Bind.bind, Except.bind]

/-- It fails if one of its parts does. -/
theorem bind_eq_error {ε α β : Type} {first : Except ε α} {next : α → Except ε β} {e : ε} :
    first >>= next = .error e ↔ first = .error e ∨ ∃ a, first = .ok a ∧ next a = .error e := by
  cases first <;> simp [Bind.bind, Except.bind]

/-- To give a value is to succeed with it. -/
@[simp] theorem pure_eq_ok {ε α : Type} (a : α) : (pure a : Except ε α) = .ok a := rfl

/-- To raise an error is to fail with it. -/
@[simp] theorem throw_eq_error {ε α : Type} (e : ε) : (throw e : Except ε α) = .error e := rfl

@[simp] theorem mapError_ok {ε ε' α : Type} (f : ε → ε') (a : α) :
    (Except.ok a : Except ε α).mapError f = .ok a := rfl

@[simp] theorem mapError_error {ε ε' α : Type} (f : ε → ε') (e : ε) :
    (Except.error e : Except ε α).mapError f = .error (f e) := rfl

theorem toOption_eq_some {ε α : Type} {r : Except ε α} {a : α} :
    r.toOption = some a ↔ r = .ok a := by
  cases r <;> simp [Except.toOption]

namespace Code

/-- The names that make a list something else than a call. -/
def specialNames : List String :=
  ["quote", "lambda", "define", "if", "and", "or", "apply", "display"]

/-- The head of a list that is a call: anything but the name of a special form. -/
def IsOperator (head : Value) : Prop :=
  ∀ name ∈ specialNames, head.symbol? ≠ some name

/-- The primitive that a call with this head names, if the program does not bind the name. -/
def directPrimitive? (bound : List String) : Value → Option Primitive
  | .symbol name => if name ∈ bound then none else Primitive.ofName? name
  | _ => none

/-- The values that are forms of their own and stand for themselves. -/
def IsConstant : Value → Prop
  | .nil | .bool _ | .number _ | .text _ | .template _ _ => True
  | _ => False

/-- The three parts of a conditional.  An alternative that is not written is the empty
list. -/
def IsConditional (tail test yes no : Value) : Prop :=
  tail.list? = some [test, yes, no] ∨ tail.list? = some [test, yes] ∧ no = .nil

mutual

/-- **The code of a form** in a program that binds the names `bound`. -/
inductive Emits (bound : List String) : Value → Code → Prop
  | variable (name : String) : Emits bound (.symbol name) [.lookup name]
  | constant {v : Value} (h : IsConstant v) : Emits bound v [.pushConst v]
  | quoted (datum : Value) : Emits bound (.quoted datum) [.pushConst datum]
  | quotation {tail datum : Value} {loc : Option Location} (ht : tail.list? = some [datum]) :
      Emits bound (.pair (.symbol "quote") tail loc) [.pushConst datum]
  | function {tail params : Value} {body : List Value} {loc : Option Location} {code : Code}
      (ht : tail.list? = some (params :: body)) (hp : isParameterForm params = true)
      (h : EmitsFunction bound params body code) :
      Emits bound (.pair (.symbol "lambda") tail loc) code
  | definition {tail value : Value} {name : String} {loc : Option Location} {code : Code}
      (ht : tail.list? = some [.symbol name, value]) (h : Emits bound value code) :
      Emits bound (.pair (.symbol "define") tail loc) (code ++ [.define name, .pushConst .nil])
  | functionDefinition {tail params : Value} {body : List Value} {name : String}
      {loc loc' : Option Location} {code : Code}
      (ht : tail.list? = some (.pair (.symbol name) params loc' :: body))
      (h : EmitsFunction bound params body code) :
      Emits bound (.pair (.symbol "define") tail loc) (code ++ [.define name, .pushConst .nil])
  | conditional {tail test yes no : Value} {loc : Option Location} {t y n : Code}
      (ht : IsConditional tail test yes no) (htest : Emits bound test t)
      (hyes : Emits bound yes y) (hno : Emits bound no n) :
      Emits bound (.pair (.symbol "if") tail loc)
        (t ++ .jumpIfFalsy (y.length + 2) :: y
          ++ [.pushConst (.bool false), .jumpIfFalsy n.length] ++ n)
  | conjunction {tail : Value} {forms : List Value} {loc : Option Location} {code : Code}
      (ht : tail.list? = some forms) (h : EmitsAnd bound forms code) :
      Emits bound (.pair (.symbol "and") tail loc) code
  | disjunction {tail : Value} {forms : List Value} {loc : Option Location} {code : Code}
      (ht : tail.list? = some forms) (h : EmitsOr bound forms code) :
      Emits bound (.pair (.symbol "or") tail loc) code
  | spread {tail f args : Value} {loc : Option Location} {c d : Code}
      (ht : tail.list? = some [f, args]) (hf : Emits bound f c) (ha : Emits bound args d) :
      Emits bound (.pair (.symbol "apply") tail loc) (c ++ d ++ [.apply])
  | display {tail arg : Value} {loc : Option Location} {code : Code}
      (ht : tail.list? = some [arg]) (h : Emits bound arg code) :
      Emits bound (.pair (.symbol "display") tail loc) (code ++ [.display])
  | primitive {head tail : Value} {p : Primitive} {args : List Value}
      {loc : Option Location} {code : Code} (ho : IsOperator head) (ht : tail.list? = some args)
      (hp : directPrimitive? bound head = some p) (ha : p.arity.all (· = args.length) = true)
      (h : EmitsEach bound args code) :
      Emits bound (.pair head tail loc) (code ++ [.callPrimitive p.name args.length])
  | call {head tail : Value} {args : List Value} {loc : Option Location} {c d : Code}
      (ho : IsOperator head) (ht : tail.list? = some args)
      (hp : directPrimitive? bound head = none) (hf : Emits bound head c)
      (ha : EmitsEach bound args d) :
      Emits bound (.pair head tail loc) (c ++ d ++ [.call args.length])

/-- The code of forms whose values are all left on the stack. -/
inductive EmitsEach (bound : List String) : List Value → Code → Prop
  | nil : EmitsEach bound [] []
  | cons {form : Value} {forms : List Value} {c d : Code} (h : Emits bound form c)
      (hs : EmitsEach bound forms d) : EmitsEach bound (form :: forms) (c ++ d)

/-- The code of the operands of a conjunction. -/
inductive EmitsAnd (bound : List String) : List Value → Code → Prop
  | nil : EmitsAnd bound [] [.pushConst (.bool true)]
  | last {form : Value} {c : Code} (h : Emits bound form c) : EmitsAnd bound [form] c
  | cons {form : Value} {forms : List Value} {c d : Code} (hne : forms ≠ [])
      (h : Emits bound form c) (hs : EmitsAnd bound forms d) :
      EmitsAnd bound (form :: forms)
        (c ++ [.jumpIfTruthy 2, .pushConst (.bool false), .jumpIfFalsy (1 + d.length), .pop] ++ d)

/-- The code of the operands of a disjunction. -/
inductive EmitsOr (bound : List String) : List Value → Code → Prop
  | nil : EmitsOr bound [] [.pushConst (.bool false)]
  | last {form : Value} {c : Code} (h : Emits bound form c) : EmitsOr bound [form] c
  | cons {form : Value} {forms : List Value} {c d : Code} (hne : forms ≠ [])
      (h : Emits bound form c) (hs : EmitsOr bound forms d) :
      EmitsOr bound (form :: forms) (c ++ [.jumpIfTruthy (1 + d.length), .pop] ++ d)

/-- The code of a body, whose last value is returned. -/
inductive EmitsBody (bound : List String) : List Value → Code → Prop
  | last {form : Value} {c : Code} (h : Emits bound form c) : EmitsBody bound [form] (c ++ [.ret])
  | cons {form : Value} {forms : List Value} {c d : Code} (h : Emits bound form c)
      (hs : EmitsBody bound forms d) : EmitsBody bound (form :: forms) (c ++ .pop :: d)

/-- The code that makes a function. -/
inductive EmitsFunction (bound : List String) : Value → List Value → Code → Prop
  | mk {form : Value} {params : Parameters} {body : List Value} {code : Code}
      (hp : Parameters.ofForm form = .ok params) (hne : body ≠ [])
      (hc : ofBody bound body = .ok code) (h : EmitsBody bound body code) :
      EmitsFunction bound form body [.pushConst (.template params code), .makeClosure]

end

/-! ## The compiler keeps to the rules -/

/-- The elements of a list are compiled one by one. -/
theorem ofEach_eq (bound : List String) (v : Value) :
    ofEach bound v = v.elements.map (ofForm bound) := by
  induction v using Value.elements.induct with
  | case1 head tail loc ih => rw [ofEach, Value.elements, List.map_cons, ih]
  | case2 v h =>
    cases v with
    | pair head tail loc => exact absurd rfl (h head tail loc)
    | _ => rfl

/-- The elements of a proper list. -/
theorem elements_of_list? {v : Value} {items : List Value} (h : v.list? = some items) :
    v.elements = items := by
  unfold Value.list? at h
  split at h
  · exact Option.some.inj h
  · cases h

/-- An element of a list is smaller than the list. -/
theorem sizeOf_lt_of_mem_elements {v item : Value} (h : item ∈ v.elements) :
    sizeOf item < sizeOf v := by
  induction v using Value.elements.induct with
  | case1 head tail loc ih =>
    have hs : sizeOf (Value.pair head tail loc) = 1 + sizeOf head + sizeOf tail + sizeOf loc := by
      simp
    rcases List.mem_cons.mp h with rfl | h
    · omega
    · have := ih h
      omega
  | case2 v hv =>
    cases v with
    | pair head tail loc => exact absurd rfl (hv head tail loc)
    | _ => cases h

section Parts
variable {bound : List String} {forms : List Value}

/-- Every form of a list is compiled by the rules. -/
def EmitsParts (bound : List String) (forms : List Value) : Prop :=
  ∀ form ∈ forms, ∀ code, ofForm bound form = .ok code → Emits bound form code

theorem emitsEach_of_concat {code : Code} (hf : EmitsParts bound forms)
    (h : concat (forms.map (ofForm bound)) = .ok code) : EmitsEach bound forms code := by
  induction forms generalizing code with
  | nil =>
    cases h
    exact .nil
  | cons form forms ih =>
    simp only [List.map_cons, concat, bind_eq_ok, pure_eq_ok, Except.ok.injEq] at h
    obtain ⟨c, hc, d, hd, rfl⟩ := h
    exact .cons (hf form List.mem_cons_self c hc)
      (ih (fun f hm => hf f (List.mem_cons_of_mem _ hm)) hd)

theorem emitsAnd_of_conjunction {code : Code} (hf : EmitsParts bound forms)
    (h : conjunction (forms.map (ofForm bound)) = .ok code) : EmitsAnd bound forms code := by
  induction forms generalizing code with
  | nil =>
    cases h
    exact .nil
  | cons form forms ih =>
    cases forms with
    | nil => exact .last (hf form List.mem_cons_self code h)
    | cons next forms =>
      simp only [List.map_cons, conjunction, bind_eq_ok, pure_eq_ok, Except.ok.injEq] at h
      obtain ⟨d, hd, c, hc, rfl⟩ := h
      exact .cons (List.cons_ne_nil _ _) (hf form List.mem_cons_self c hc)
        (ih (fun f hm => hf f (List.mem_cons_of_mem _ hm)) hd)

theorem emitsOr_of_disjunction {code : Code} (hf : EmitsParts bound forms)
    (h : disjunction (forms.map (ofForm bound)) = .ok code) : EmitsOr bound forms code := by
  induction forms generalizing code with
  | nil =>
    cases h
    exact .nil
  | cons form forms ih =>
    cases forms with
    | nil => exact .last (hf form List.mem_cons_self code h)
    | cons next forms =>
      simp only [List.map_cons, disjunction, bind_eq_ok, pure_eq_ok, Except.ok.injEq] at h
      obtain ⟨d, hd, c, hc, rfl⟩ := h
      exact .cons (List.cons_ne_nil _ _) (hf form List.mem_cons_self c hc)
        (ih (fun f hm => hf f (List.mem_cons_of_mem _ hm)) hd)

theorem emitsBody_of_sequence {code : Code} (hne : forms ≠ []) (hf : EmitsParts bound forms)
    (h : sequence (forms.map (ofForm bound)) = .ok code) : EmitsBody bound forms code := by
  induction forms generalizing code with
  | nil => exact absurd rfl hne
  | cons form forms ih =>
    cases forms with
    | nil =>
      simp only [List.map_cons, List.map_nil, sequence, bind_eq_ok, pure_eq_ok,
        Except.ok.injEq] at h
      obtain ⟨c, hc, rfl⟩ := h
      exact .last (hf form List.mem_cons_self c hc)
    | cons next forms =>
      simp only [List.map_cons, sequence, bind_eq_ok, pure_eq_ok, Except.ok.injEq] at h
      obtain ⟨c, hc, d, hd, rfl⟩ := h
      exact .cons (hf form List.mem_cons_self c hc)
        (ih (List.cons_ne_nil _ _) (fun f hm => hf f (List.mem_cons_of_mem _ hm)) hd)

theorem emitsFunction_of_function {params : Value} {loc : Option Location} {code : Code}
    (hne : forms ≠ []) (hf : EmitsParts bound forms)
    (h : Code.function params (forms.map (ofForm bound)) loc = .ok code) :
    EmitsFunction bound params forms code := by
  unfold Code.function at h
  split at h
  · cases h
  · rename_i ps hps
    simp only [bind_eq_ok, pure_eq_ok, Except.ok.injEq] at h
    obtain ⟨body, hbody, rfl⟩ := h
    exact .mk hps hne hbody (emitsBody_of_sequence hne hf hbody)

end Parts

theorem eq_symbol_of_symbol? {v : Value} {name : String} (h : v.symbol? = some name) :
    v = .symbol name := by
  cases v with
  | symbol s => exact congrArg Value.symbol (Option.some.inj h)
  | _ => cases h

/-- The calls of a primitive by its name are those whose head it directly is. -/
theorem application_eq (bound : List String) (head : Value) (loc : Option Location)
    (function : Outcome) (args : List Outcome) :
    application bound head loc function args =
      match directPrimitive? bound head with
      | some p =>
        if p.arity.all (· = args.length) then do
          let code ← concat args
          return code ++ [.callPrimitive p.name args.length]
        else .error ⟨.primitiveOperands p.name (p.arity.getD 0) args.length, loc⟩
      | none => do
        let callee ← function
        let code ← concat args
        return callee ++ code ++ [.call args.length] := by
  cases head <;> rfl

/-- A proper list that is no special form is compiled as a call. -/
theorem ofList_eq_application {bound : List String} {head tail : Value} {args : List Value}
    {loc : Option Location} {function : Outcome} {parts : List Outcome} (ho : IsOperator head)
    (ht : tail.list? = some args) :
    ofList bound head tail loc function parts = application bound head loc function parts := by
  simp only [ofList, ht, Option.isSome_some, if_true]
  split
  all_goals first
    | rfl
    | rename_i hs
      exact absurd hs (ho _ (by simp [specialNames]))

/-- The code of a call is one of its head and its arguments. -/
theorem emits_of_application {bound : List String} {head tail : Value} {args : List Value}
    {loc : Option Location} {code : Code} (ho : IsOperator head) (ht : tail.list? = some args)
    (hh : ∀ code, ofForm bound head = .ok code → Emits bound head code)
    (hf : EmitsParts bound args)
    (h : application bound head loc (ofForm bound head) (args.map (ofForm bound)) = .ok code) :
    Emits bound (.pair head tail loc) code := by
  rw [application_eq, List.length_map] at h
  split at h
  · rename_i p hp
    split at h
    · rename_i harity
      simp only [bind_eq_ok, pure_eq_ok, Except.ok.injEq] at h
      obtain ⟨c, hc, rfl⟩ := h
      exact .primitive ho ht hp harity (emitsEach_of_concat hf hc)
    · cases h
  · rename_i hp
    simp only [bind_eq_ok, pure_eq_ok, Except.ok.injEq] at h
    obtain ⟨c, hc, d, hd, rfl⟩ := h
    exact .call ho ht hp (hh c hc) (emitsEach_of_concat hf hd)

/-- **The compiler keeps to the rules**, given that it does for the parts of a list. -/
theorem emits_of_ofList {bound : List String} {head tail : Value} {loc : Option Location}
    {code : Code} (hq : head.symbol? ≠ some "quote")
    (hh : ∀ code, ofForm bound head = .ok code → Emits bound head code)
    (hf : EmitsParts bound tail.elements)
    (h : ofList bound head tail loc (ofForm bound head) (tail.elements.map (ofForm bound))
      = .ok code) :
    Emits bound (.pair head tail loc) code := by
  cases ht : tail.list? with
  | none =>
    -- no improper list has code, whatever its head
    simp only [ofList, ht, Option.isSome_none, Bool.false_eq_true, if_false] at h
    split at h <;> cases h
  | some items =>
    rw [elements_of_list? ht] at h hf
    simp only [ofList, ht, Option.isSome_some, if_true] at h
    split at h
    · rename_i hs
      obtain rfl := eq_symbol_of_symbol? hs
      split at h
      · rename_i params first rest hi
        cases hi
        split at h
        · rename_i hp
          exact .function ht hp (emitsFunction_of_function (List.cons_ne_nil _ _)
            (fun f hm => hf f (List.mem_cons_of_mem _ hm)) h)
        · cases h
      · cases h
    · rename_i hs
      obtain rfl := eq_symbol_of_symbol? hs
      split at h
      · rename_i name params loc' first rest head body hi hb
        cases hi
        cases hb
        simp only [definition, bind_eq_ok, pure_eq_ok, Except.ok.injEq] at h
        obtain ⟨c, hc, rfl⟩ := h
        exact .functionDefinition ht (emitsFunction_of_function (List.cons_ne_nil _ _)
          (fun f hm => hf f (List.mem_cons_of_mem _ hm)) hc)
      · rename_i name value _ part hi hb
        cases hi
        cases hb
        simp only [definition, bind_eq_ok, pure_eq_ok, Except.ok.injEq] at h
        obtain ⟨c, hc, rfl⟩ := h
        exact .definition ht (hf value (by simp) c hc)
      · cases h
    · rename_i hs
      obtain rfl := eq_symbol_of_symbol? hs
      split at h
      · rename_i test yes hi hparts
        obtain ⟨f, fs, rfl, rfl, hfs⟩ := List.map_eq_cons_iff.mp hparts
        obtain ⟨g, gs, rfl, rfl, hgs⟩ := List.map_eq_cons_iff.mp hfs
        obtain rfl := List.map_eq_nil_iff.mp hgs
        simp only [Code.conditional, bind_eq_ok, pure_eq_ok, Except.ok.injEq] at h
        obtain ⟨y, hy, n, rfl, t, htest, rfl⟩ := h
        exact .conditional (.inr ⟨ht, rfl⟩) (hf f (by simp) t htest) (hf g (by simp) y hy)
          (.constant trivial)
      · rename_i test yes no hi hparts
        obtain ⟨f, fs, rfl, rfl, hfs⟩ := List.map_eq_cons_iff.mp hparts
        obtain ⟨g, gs, rfl, rfl, hgs⟩ := List.map_eq_cons_iff.mp hfs
        obtain ⟨e, es, rfl, rfl, hes⟩ := List.map_eq_cons_iff.mp hgs
        obtain rfl := List.map_eq_nil_iff.mp hes
        simp only [Code.conditional, bind_eq_ok, pure_eq_ok, Except.ok.injEq] at h
        obtain ⟨y, hy, n, hn, t, htest, rfl⟩ := h
        exact .conditional (.inl ht) (hf f (by simp) t htest) (hf g (by simp) y hy)
          (hf e (by simp) n hn)
      · cases h
    · rename_i hs
      obtain rfl := eq_symbol_of_symbol? hs
      exact .conjunction ht (emitsAnd_of_conjunction hf h)
    · rename_i hs
      obtain rfl := eq_symbol_of_symbol? hs
      exact .disjunction ht (emitsOr_of_disjunction hf h)
    · rename_i hs
      obtain rfl := eq_symbol_of_symbol? hs
      split at h
      · rename_i hparts
        obtain ⟨f, fs, rfl, -, hfs⟩ := List.map_eq_cons_iff.mp hparts
        obtain ⟨g, gs, rfl, -, hgs⟩ := List.map_eq_cons_iff.mp hfs
        obtain rfl := List.map_eq_nil_iff.mp hgs
        simp only [List.map_cons, List.map_nil, concat, bind_eq_ok, pure_eq_ok,
          Except.ok.injEq] at h
        obtain ⟨_, ⟨c, hc, _, ⟨d, hd, _, rfl, rfl⟩, rfl⟩, rfl⟩ := h
        rw [List.append_nil]
        exact .spread ht (hf f (by simp) c hc) (hf g (by simp) d hd)
      · cases h
    · rename_i hs
      obtain rfl := eq_symbol_of_symbol? hs
      split at h
      · rename_i part hparts
        obtain ⟨f, fs, rfl, rfl, hfs⟩ := List.map_eq_cons_iff.mp hparts
        obtain rfl := List.map_eq_nil_iff.mp hfs
        simp only [bind_eq_ok, pure_eq_ok, Except.ok.injEq] at h
        obtain ⟨c, hc, rfl⟩ := h
        exact .display ht (hf f (by simp) c hc)
      · cases h
    · rename_i h1 h2 h3 h4 h5 h6 h7
      refine emits_of_application ?_ ht hh hf h
      intro name hn
      simp only [specialNames, List.mem_cons, List.not_mem_nil, or_false] at hn
      rcases hn with rfl | rfl | rfl | rfl | rfl | rfl | rfl | rfl
      · exact hq
      all_goals assumption

/-- **The compiler keeps to the rules.** -/
theorem emits_of_ofForm {bound : List String} :
    ∀ (form : Value) {code : Code}, ofForm bound form = .ok code → Emits bound form code
  | .symbol name, _, h => by
    simp only [ofForm, Except.ok.injEq] at h
    subst h
    exact .variable name
  | .quoted datum, _, h => by
    simp only [ofForm, Except.ok.injEq] at h
    subst h
    exact .quoted datum
  | .closure _ _ _, _, h => by simp [ofForm] at h
  | .pair head tail loc, code, h => by
    rw [ofForm] at h
    split at h
    · rename_i hq
      obtain rfl := eq_symbol_of_symbol? hq
      unfold quotation at h
      split at h
      · rename_i datum ht
        cases h
        exact .quotation ht
      · cases h
      · cases h
    · rename_i hq
      rw [ofEach_eq] at h
      refine emits_of_ofList hq (fun _ => emits_of_ofForm head) (fun item hm _ => ?_) h
      exact emits_of_ofForm item
  | .nil, _, h | .bool _, _, h | .number _, _, h | .text _, _, h | .template _ _, _, h => by
    simp only [ofForm, Except.ok.injEq] at h
    subst h
    exact .constant trivial
termination_by form => sizeOf form
decreasing_by
  · simp
    omega
  · have := sizeOf_lt_of_mem_elements ‹_›
    simp
    omega

/-- **The code of a body** belongs to its forms, if there are any. -/
theorem emitsBody_of_ofBody {bound : List String} {forms : List Value} {code : Code}
    (hne : forms ≠ []) (h : ofBody bound forms = .ok code) : EmitsBody bound forms code :=
  emitsBody_of_sequence hne (fun form _ _ => emits_of_ofForm form) h

end Code

end StackLisp
