import StackLisp.Proofs.Macro.Conservative
import StackLisp.Proofs.Machine.Execution
import StackLisp.Proofs.Prelude.Loading
import StackLisp.Proofs.Printing

/-!
# The macros of the prelude

**`cond` expands to nested conditionals and `let` to the call of a function**
(`cond_let_expansion`), for any number of clauses and bindings, if there is nothing else to expand
in them.

The use of a macro is expanded in three steps, and each of them keeps forms up to locations
(`expandsTo_of_expand`).  The operands are made anew, and so are clauses and bindings, which are no
uses of macros though they look like some.  The macro's body, which walks over the list with
functions of its own, then runs to its end (`returns_condCode`, `returns_letCode`).  What it leaves
has nothing to expand again.

Operands that have been made anew may differ in their locations from those that were written, so
what the functions in the bodies answer is said of lists that are the same up to locations
(`expand_answers`, `collect_answers`).
-/

namespace StackLisp

/-! ## Running the body of a macro -/

/-- A body that returns a value expands to that value. -/
theorem Macro.expand_of_returns {m : Macro} {settings : Settings} (hs : settings.Unlimited)
    {args : List Value} {bindings : Bindings} (hb : m.params.bind args = .ok bindings)
    {form : Value} (loc : Option Location)
    (h : ∀ threshold, (Machine.ofProgram m.code (.ofGlobals bindings) threshold).Returns
      Arena.globalId [] [] [] (.ok form)) :
    ∃ bound, ∀ steps ≥ bound, m.expand steps settings args loc = .ok form := by
  obtain ⟨k, hk⟩ := hs.gcThreshold
  obtain ⟨bound, hbound⟩ := (h k).run rfl
  refine ⟨bound, fun steps hsteps => ?_⟩
  obtain ⟨hvalue, hstack⟩ := hbound steps hsteps
  rcases hr : (Machine.ofProgram m.code (.ofGlobals bindings) k).run steps none with ⟨after, out⟩
  rw [hr] at hvalue hstack
  obtain rfl : out = .value form := hvalue
  have hafter : after.stack = [form] := hstack form rfl
  simp only [expand, hb, hk, hs.stepLimit, mapError_ok, Bind.bind, Except.bind, hr, hafter]

namespace Prelude
open Machine

theorem equal_symbol {v : Value} {name : String} (h : v.equal (.symbol name) = true) :
    v = .symbol name := by
  cases v <;> simp_all [Value.equal]

/-- A proper list of its items. -/
abbrev listOf (items : List Value) : Value :=
  .ofList items none .nil

/-! ## Conditionals -/

section Cond

/-- The clauses of a `cond`: a test and what it leads to for each, and perhaps what else. -/
def clauses (cs : List (Value × Value)) (last : Option Value) : List Value :=
  cs.map (fun c => listOf [c.1, c.2]) ++ (last.map fun d => listOf [.symbol "else", d]).toList

def condForm (cs : List (Value × Value)) (last : Option Value) : Value :=
  listOf (.symbol "cond" :: clauses cs last)

/-- The conditionals that a `cond` stands for, each in place of an alternative. -/
def conditionals : List (Value × Value) → Option Value → Value
  | [], last => last.getD .nil
  | c :: cs, last => listOf [.symbol "if", c.1, c.2, conditionals cs last]

variable {known : List (ScopeId × Environment)} {closed : ScopeId} {vars : Bindings}
  {env : Environment} {cs : List (Value × Value)} {last : Option Value}

/-- **The function inside `cond`** nests the clauses, of which one with `else` ends the list. -/
theorem expand_answers (hclosed : (closed, vars :: env) ∈ known)
    (hself : vars.get? "expand" = some (expand.closure closed))
    (hother : ∀ c ∈ cs, c.1 ≠ .symbol "else") {xs : Value}
    (hxs : xs.bare = (listOf (clauses cs last)).bare) :
    ∃ form, form.bare = (conditionals cs last).bare ∧
      Answers known (expand.closure closed) [xs] (.ok form) := by
  have hbind (xs : Value) : expand.params.bind [xs] = .ok [("clauses", xs)] := rfl
  induction cs generalizing xs with
  | nil =>
    cases last with
    | none =>
      obtain rfl := Value.eq_nil_of_bare hxs
      refine ⟨.nil, rfl, answers_closure hclosed (hbind _) fun inner id outer callers stack _ hm =>
        hm.returns ?_⟩
      simp [expand, Primitive.apply, Value.isFalsy, Bindings.get?]
    | some d =>
      obtain ⟨clause, rest, _, rfl, hclause, -⟩ := Value.exists_pair hxs
      obtain ⟨test, branch, _, rfl, htest, hbranch⟩ := Value.exists_pair hclause
      obtain ⟨d', _, _, rfl, hd, -⟩ := Value.exists_pair hbranch
      obtain rfl := Value.eq_symbol_of_bare htest
      refine ⟨d', hd, answers_closure hclosed (hbind _) fun inner id outer callers stack _ hm =>
        hm.returns ?_⟩
      simp [expand, Primitive.apply, Value.isFalsy, Bindings.get?, Value.equal]
  | cons c cs ih =>
    obtain ⟨hc, hcs⟩ := List.forall_mem_cons.mp hother
    obtain ⟨clause, rest, _, rfl, hclause, hrest⟩ := Value.exists_pair hxs
    obtain ⟨test, branch, _, rfl, htest, hbranch⟩ := Value.exists_pair hclause
    obtain ⟨yes, _, _, rfl, hyes, -⟩ := Value.exists_pair hbranch
    have hne : test.equal (.symbol "else") = false := by
      refine Bool.eq_false_iff.mpr fun he => hc ?_
      rw [equal_symbol he] at htest
      exact Value.eq_symbol_of_bare htest.symm
    obtain ⟨form, hform, hanswers⟩ := ih hcs hrest
    refine ⟨.pair (.symbol "if") (.pair test (.pair yes (.pair form .nil none) none) none) none, ?_,
      answers_closure hclosed (hbind _) fun inner id outer callers stack hk hm => ?_⟩
    · simp [conditionals, Value.ofList, Value.bare, htest, hyes, hform]
    · refine hm.settles (.call 1 :: expand.code.drop 30)
        (rest :: expand.closure closed :: yes :: test :: .symbol "if" :: stack) ?_ fun next hm => ?_
      · simp [expand, hself, hne, Primitive.apply, Value.isFalsy, Bindings.get?]
      refine hm.calls hanswers (List.subset_cons_of_subset _ hk) rfl rfl
        (fun v => .ok
          (.pair (.symbol "if") (.pair test (.pair yes (.pair v .nil none) none) none) none))
        rfl fun v next hm => hm.returns ?_
      simp [expand, Primitive.apply]

/-- The body of `cond`. -/
theorem returns_condCode (hother : ∀ c ∈ cs, c.1 ≠ .symbol "else") {xs : Value}
    (hxs : xs.bare = (listOf (clauses cs last)).bare) :
    ∃ form, form.bare = (conditionals cs last).bare ∧ ∀ threshold,
      (ofProgram condCode (.ofGlobals [("clauses", xs)]) threshold).Returns Arena.globalId [] [] []
        (.ok form) := by
  obtain ⟨form, hform, hanswers⟩ : ∃ form, form.bare = (conditionals cs last).bare ∧
      Answers [(Arena.globalId, [[("clauses", xs), ("expand", expand.global)]])] expand.global [xs]
        (.ok form) :=
    expand_answers List.mem_cons_self rfl hother hxs
  refine ⟨form, hform, fun threshold => ?_⟩
  have hm := before_ofGlobals condCode [("clauses", xs)] threshold
  refine hm.settles (.define "expand" :: condCode.drop 3) [expand.global] ?_ fun next hm => ?_
  · simp [condCode, Function.template, Function.closure]
  obtain ⟨next, hadv, hm⟩ := hm.define
  refine Gives.of_advance hadv ?_
  refine hm.settles [.call 1, .ret] [xs, expand.global] ?_ fun next hm => ?_
  · simp [condCode, Bindings.get?, Bindings.set]
  exact hm.returns_call [xs] hanswers (List.Subset.refl _) rfl rfl

end Cond

/-! ## Bindings -/

section Let

/-- The bindings of a `let`: each of a name and what it is bound to. -/
def bindings (bs : List (String × Value)) : Value :=
  listOf (bs.map fun b => listOf [.symbol b.1, b.2])

def letForm (bs : List (String × Value)) (body : List Value) : Value :=
  listOf (.symbol "let" :: bindings bs :: body)

/-- The call of a function that a `let` stands for. -/
def letCall (bs : List (String × Value)) (body : List Value) : Value :=
  listOf (listOf (.symbol "lambda" :: listOf (bs.map fun b => .symbol b.1) :: body) ::
    bs.map fun b => b.2)

variable {known : List (ScopeId × Environment)} {closed : ScopeId} {vars : Bindings}
  {env : Environment} {name : String} {part : Code}

/-- **What is collected** from each binding, if some code takes it from the binding on the stack. -/
theorem collect_answers {α : Type} {item taken : α → Value}
    (hpart : ∀ (a : α) (b : Value), b.bare = (item a).bare → ∃ v, v.bare = (taken a).bare ∧
      ∀ env scope rest stack, Code.settle env scope 0 (part ++ rest) (b :: stack) =
        Code.settle env scope 0 rest (v :: stack))
    (hclosed : (closed, vars :: env) ∈ known) (hname : name ≠ "bs")
    (hself : vars.get? name = some ((collect name part).closure closed)) {as : List α} {xs : Value}
    (hxs : xs.bare = (listOf (as.map item)).bare) :
    ∃ v, v.bare = (listOf (as.map taken)).bare ∧
      Answers known ((collect name part).closure closed) [xs] (.ok v) := by
  have hbind (xs : Value) : (collect name part).params.bind [xs] = .ok [("bs", xs)] := rfl
  induction as generalizing xs with
  | nil =>
    obtain rfl := Value.eq_nil_of_bare hxs
    refine ⟨.nil, rfl, answers_closure hclosed (hbind _) fun inner id outer callers stack _ hm =>
      hm.returns ?_⟩
    -- The jump goes over the part, of which only the length is known.
    have hoffset : (7 + (part.length : Int)).toNat = part.length + 7 := by omega
    have hle : 0 ≤ 7 + (part.length : Int) := by omega
    simp [collect, Primitive.apply, Value.isFalsy, Bindings.get?, hoffset, hle,
      Code.settle_eq_drop _ _ (part.length + 5), List.drop_length_add_append]
  | cons a as ih =>
    obtain ⟨b, rest, _, rfl, hb, hrest⟩ := Value.exists_pair hxs
    obtain ⟨v, hv, hsettle⟩ := hpart a b hb
    obtain ⟨vs, hvs, hanswers⟩ := ih hrest
    refine ⟨.pair v vs none, ?_,
      answers_closure hclosed (hbind _) fun inner id outer callers stack hk hm => ?_⟩
    · simp [Value.ofList, Value.bare, hv, hvs]
    · refine hm.settles [.call 1, pair, .ret]
        (rest :: (collect name part).closure closed :: v :: stack) ?_ fun next hm => ?_
      · simp [collect, hname.symm, hself, hsettle, Primitive.apply, Value.isFalsy, Bindings.get?]
      refine hm.calls hanswers (List.subset_cons_of_subset _ hk) rfl rfl
        (fun vs => .ok (.pair v vs none)) rfl fun vs next hm => hm.returns ?_
      simp [Primitive.apply]

variable {bs : List (String × Value)} {body : List Value} {xs : Value}

theorem names_answers (hclosed : (closed, vars :: env) ∈ known)
    (hself : vars.get? "names" = some (names.closure closed)) (hxs : xs.bare = (bindings bs).bare) :
    ∃ v, v.bare = (listOf (bs.map fun b => .symbol b.1)).bare ∧
      Answers known (names.closure closed) [xs] (.ok v) := by
  refine collect_answers (fun a b hb => ?_) hclosed (by decide) hself hxs
  obtain ⟨x, rest, _, rfl, hx, -⟩ := Value.exists_pair hb
  exact ⟨x, hx, fun env scope rest stack => by simp [Primitive.apply]⟩

theorem inits_answers (hclosed : (closed, vars :: env) ∈ known)
    (hself : vars.get? "inits" = some (inits.closure closed)) (hxs : xs.bare = (bindings bs).bare) :
    ∃ v, v.bare = (listOf (bs.map fun b => b.2)).bare ∧
      Answers known (inits.closure closed) [xs] (.ok v) := by
  refine collect_answers (fun a b hb => ?_) hclosed (by decide) hself hxs
  obtain ⟨x, rest, _, rfl, -, hrest⟩ := Value.exists_pair hb
  obtain ⟨i, _, _, rfl, hi, -⟩ := Value.exists_pair hrest
  exact ⟨i, hi, fun env scope rest stack => by simp [Primitive.apply]⟩

/-- The body of `let`. -/
theorem returns_letCode (hxs : xs.bare = (bindings bs).bare) {rest : Value}
    (hrest : rest.bare = (listOf body).bare) :
    ∃ form, form.bare = (letCall bs body).bare ∧ ∀ threshold,
      (ofProgram letCode (.ofGlobals [("bindings", xs), ("body", rest)]) threshold).Returns
        Arena.globalId [] [] [] (.ok form) := by
  let vars : Bindings :=
    [("bindings", xs), ("body", rest), ("names", names.global), ("inits", inits.global)]
  obtain ⟨xs', hxs', hnames⟩ : ∃ v, v.bare = (listOf (bs.map fun b => .symbol b.1)).bare ∧
      Answers [(Arena.globalId, [vars])] names.global [xs] (.ok v) :=
    names_answers List.mem_cons_self rfl hxs
  obtain ⟨is, his, hinits⟩ : ∃ v, v.bare = (listOf (bs.map fun b => b.2)).bare ∧
      Answers [(Arena.globalId, [vars])] inits.global [xs] (.ok v) :=
    inits_answers List.mem_cons_self rfl hxs
  refine ⟨.pair (.pair (.symbol "lambda") (.pair xs' rest none) none) is none, ?_,
    fun threshold => ?_⟩
  · simp only [letCall, Value.bare, hxs', hrest, his]
    rfl
  have hm := before_ofGlobals letCode [("bindings", xs), ("body", rest)] threshold
  refine hm.settles (.define "names" :: letCode.drop 3) [names.global] ?_ fun next hm => ?_
  · simp [letCode, Function.template, Function.closure]
  obtain ⟨next, hadv, hm⟩ := hm.define
  refine Gives.of_advance hadv ?_
  refine hm.settles (.define "inits" :: letCode.drop 8) [inits.global] ?_ fun next hm => ?_
  · simp [letCode, Function.template, Function.closure]
  obtain ⟨next, hadv, hm⟩ := hm.define
  refine Gives.of_advance hadv ?_
  refine hm.settles (.call 1 :: letCode.drop 14) [xs, names.global, .symbol "lambda"] ?_
    fun next hm => ?_
  · simp [letCode, Bindings.get?, Bindings.set]
  refine hm.calls hnames (List.Subset.refl _) rfl rfl
    (fun v => .ok (.pair (.pair (.symbol "lambda") (.pair v rest none) none) is none)) rfl
    fun v next hm => ?_
  refine hm.settles [.call 1, pair, .ret]
    [xs, inits.global, .pair (.symbol "lambda") (.pair v rest none) none] ?_ fun next hm => ?_
  · simp [letCode, Primitive.apply, Bindings.get?, Bindings.set]
  refine hm.calls hinits (List.Subset.refl _) rfl rfl
    (fun is => .ok (.pair (.pair (.symbol "lambda") (.pair v rest none) none) is none)) rfl
    fun is next hm => hm.returns ?_
  simp [Primitive.apply]

end Let

/-! ## Expansions -/

section Expansion
variable {t : MacroTable} {settings : Settings} {m : Macro} {name : String}
  {operands : List Value} {expansion form : Value}

/-- A list that starts with an ordinary name is expanded from its operands. -/
theorem expandForm_symbol (hspecial : name ∉ MacroTable.specialNames) (use : MacroTable.Use)
    (tail : Value) (loc : Option Location) :
    t.expandForm use (.pair (.symbol name) tail loc) =
      (t.expandEach use loc tail >>= fun tail' =>
        t.expandUse use (.pair (.symbol name) tail loc) (.symbol name) tail' loc) := by
  have hne (special : String) (hs : special ∈ MacroTable.specialNames) : some name ≠ some special :=
    fun he => hspecial (Option.some.inj he ▸ hs)
  simp only [MacroTable.expandForm, Value.symbol?]
  split
  case h_5 => rfl
  all_goals exact absurd ‹_› (hne _ (by decide))

/-- **A form is fully expanded to another**, up to locations: whenever macro bodies are given enough
steps, if expansions may be expanded once more. -/
def ExpandsTo (t : MacroTable) (settings : Settings) (form expansion : Value) : Prop :=
  ∃ bound, ∀ steps ≥ bound, ∀ fuel ≥ 2, ∃ r,
    t.expandAll settings steps fuel form = .ok r ∧ r.bare = expansion.bare

/-- **The use of a macro is expanded to what the macro leaves**, up to locations, if nothing in its
operands and in what it leaves is to be expanded. -/
theorem expandsTo_of_expand (hspecial : name ∉ MacroTable.specialNames)
    (hm : t.named? (.symbol name) = some m) (hoperands : ∀ v ∈ operands, t.Unused v)
    (hexpansion : t.Unused expansion)
    (hrun : ∀ args : List Value, args.map Value.bare = operands.map Value.bare → ∀ loc,
      ∃ form, form.bare = expansion.bare ∧
        ∃ bound, ∀ steps ≥ bound, m.expand steps settings args loc = .ok form)
    (hform : form.bare = (listOf (.symbol name :: operands)).bare) :
    ExpandsTo t settings form expansion := by
  obtain ⟨head, tail, loc, rfl, hhead, htail⟩ := Value.exists_pair hform
  obtain rfl := Value.eq_symbol_of_bare hhead
  have hitems {v : Value} (hv : v.bare = (listOf operands).bare) :
      ∃ args, v.list? = some args ∧ args.map Value.bare = operands.map Value.bare := by
    have hlist : v.list?.map (List.map Value.bare) = some (operands.map Value.bare) := by
      rw [← Value.list?_bare, hv, Value.list?_bare, Value.list?_ofList, Option.map_some]
    exact Option.map_eq_some_iff.mp hlist
  obtain ⟨items, hlist, hitems'⟩ := hitems htail
  have helements : ∀ v ∈ tail.elements, t.Unused v := by
    intro v hv
    rw [Code.elements_of_list? hlist] at hv
    obtain ⟨o, ho, hb⟩ := List.mem_map.mp (hitems' ▸ List.mem_map_of_mem hv)
    exact (hoperands o ho).of_bare hb.symm
  -- The operands come out the same whatever uses are expanded to, and so before there is a bound
  -- on the steps: it is that of the macro's run on these operands.
  obtain ⟨tail', htail', heach⟩ := MacroTable.exists_expandEach_of_unused loc tail helements
  obtain ⟨args, hargs, hbare⟩ := hitems (htail'.trans htail)
  obtain ⟨left, hleft, bound, hbound⟩ := hrun args hbare loc
  refine ⟨bound, fun steps hsteps fuel hfuel => ?_⟩
  obtain ⟨fuel, rfl⟩ := Nat.exists_eq_add_of_le' hfuel
  obtain ⟨r, hr, hrebuilt⟩ := (hexpansion.of_bare hleft).rebuilt
  refine ⟨r, ?_, hrebuilt.bare.trans hleft⟩
  simp only [MacroTable.expandAll, expandForm_symbol hspecial, heach, MacroTable.expandUse, hm,
    hargs, hbound steps hsteps, Bind.bind, Except.bind]
  exact hr

/-! ### What has nothing to expand -/

/-- A list of which the head is no macro and all items have nothing to expand. -/
theorem unused_listOf {head : Value} {items : List Value} (hm : t.named? head = none)
    (hs : head ≠ .symbol "macroexpand") (hhead : t.Unused head) (h : ∀ v ∈ items, t.Unused v) :
    t.Unused (listOf (head :: items)) := by
  refine .list hm hs fun v hv => ?_
  have hmem : v ∈ (listOf (head :: items)).elements :=
    Value.mem_elements_of_mem_evaluatedElements hv
  rw [Code.elements_of_list? (Value.list?_ofList _ _)] at hmem
  exact (List.mem_cons.mp hmem).elim (fun he => he ▸ hhead) (h v)

/-- The parts of a `cond` have nothing to expand, and no test looks like something else. -/
structure PlainClauses (t : MacroTable) (cs : List (Value × Value)) (last : Option Value) :
    Prop where
  parts : ∀ c ∈ cs, t.Unused c.1 ∧ t.Unused c.2
  last : ∀ d ∈ last, t.Unused d
  tests : ∀ c ∈ cs, t.named? c.1 = none ∧ c.1 ≠ .symbol "macroexpand" ∧ c.1 ≠ .symbol "else"

theorem unused_clauses (ht : HasMacros t) {cs : List (Value × Value)} {last : Option Value}
    (h : PlainClauses t cs last) : ∀ v ∈ clauses cs last, t.Unused v := by
  intro v hv
  rcases List.mem_append.mp hv with hv | hv
  · obtain ⟨c, hc, rfl⟩ := List.mem_map.mp hv
    obtain ⟨hm, hs, -⟩ := h.tests c hc
    exact unused_listOf hm hs (h.parts c hc).1 (List.forall_mem_singleton.mpr (h.parts c hc).2)
  · cases last with
    | none => cases hv
    | some d =>
      obtain rfl := List.mem_singleton.mp hv
      exact unused_listOf (ht.named?_symbol (by decide)) (by simp) (.atom rfl)
        (List.forall_mem_singleton.mpr (h.last d rfl))

theorem unused_conditionals (ht : HasMacros t) {cs : List (Value × Value)} {last : Option Value}
    (h : PlainClauses t cs last) : t.Unused (conditionals cs last) := by
  induction cs with
  | nil =>
    cases last with
    | none => exact .atom rfl
    | some d => exact h.last d rfl
  | cons c cs ih =>
    obtain ⟨⟨htest, hyes⟩, hparts⟩ := List.forall_mem_cons.mp h.parts
    have hrest := ih ⟨hparts, h.last, (List.forall_mem_cons.mp h.tests).2⟩
    refine unused_listOf (ht.named?_symbol (by decide)) (by simp) (.atom rfl) ?_
    simp only [List.forall_mem_cons]
    exact ⟨htest, hyes, hrest, fun _ hv => absurd hv List.not_mem_nil⟩

/-- The parts of a `let` have nothing to expand, and no name looks like something else. -/
structure PlainBindings (t : MacroTable) (bs : List (String × Value)) (body : List Value) :
    Prop where
  inits : ∀ b ∈ bs, t.Unused b.2
  body : ∀ v ∈ body, t.Unused v
  names : ∀ b ∈ bs, t.named? (.symbol b.1) = none ∧ b.1 ≠ "macroexpand"

theorem unused_bindings {bs : List (String × Value)} {body : List Value}
    (h : PlainBindings t bs body) : t.Unused (bindings bs) := by
  have hbinding : ∀ b ∈ bs, t.Unused (listOf [.symbol b.1, b.2]) := fun b hb =>
    unused_listOf (h.names b hb).1 (fun he => (h.names b hb).2 (Value.symbol.inj he)) (.atom rfl)
      (List.forall_mem_singleton.mpr (h.inits b hb))
  cases bs with
  | nil => exact .atom rfl
  | cons b bs =>
    obtain ⟨hb, hbs⟩ := List.forall_mem_cons.mp hbinding
    exact unused_listOf rfl nofun hb (List.forall_mem_map.mpr hbs)

theorem unused_letCall (ht : HasMacros t) {bs : List (String × Value)} {body : List Value}
    (h : PlainBindings t bs body) : t.Unused (letCall bs body) := by
  refine unused_listOf rfl nofun ?_ (List.forall_mem_map.mpr h.inits)
  -- The parameters may well look like the use of a macro, but only the body is evaluated.
  refine .list (ht.named?_symbol (by decide)) (by simp) fun v hv => ?_
  have hbody : v ∈ (listOf body).elements := hv
  rw [Code.elements_of_list? (Value.list?_ofList _ _)] at hbody
  exact h.body v hbody

end Expansion

/-! ## The macros -/

section Macros
variable {t : MacroTable} (ht : HasMacros t) {settings : Settings} (hs : settings.Unlimited)
include ht hs

theorem expandsTo_conditionals {cs : List (Value × Value)} {last : Option Value}
    (h : PlainClauses t cs last) {form : Value} (hform : form.bare = (condForm cs last).bare) :
    ExpandsTo t settings form (conditionals cs last) := by
  obtain ⟨_, hfind⟩ := ht.findCond
  refine expandsTo_of_expand (by decide) hfind (unused_clauses ht h) (unused_conditionals ht h)
    (fun args hargs loc => ?_) hform
  have hxs : (listOf args).bare = (listOf (clauses cs last)).bare := by
    rw [Value.bare_ofList, Value.bare_ofList, hargs]
  obtain ⟨left, hleft, hreturns⟩ := returns_condCode (fun c hc => (h.tests c hc).2.2) hxs
  exact ⟨left, hleft, Macro.expand_of_returns hs rfl loc hreturns⟩

theorem expandsTo_letCall {bs : List (String × Value)} {body : List Value}
    (h : PlainBindings t bs body) {form : Value} (hform : form.bare = (letForm bs body).bare) :
    ExpandsTo t settings form (letCall bs body) := by
  obtain ⟨_, hfind⟩ := ht.findLet
  refine expandsTo_of_expand (by decide) hfind
    (List.forall_mem_cons.mpr ⟨unused_bindings h, h.body⟩) (unused_letCall ht h)
    (fun args hargs loc => ?_) hform
  obtain ⟨xs, rest, rfl, hxs, hrest⟩ := List.map_eq_cons_iff.mp hargs
  have hbody : (listOf rest).bare = (listOf body).bare := by
    rw [Value.bare_ofList, Value.bare_ofList, hrest]
  obtain ⟨left, hleft, hreturns⟩ := returns_letCode hxs hbody
  exact ⟨left, hleft, Macro.expand_of_returns hs rfl loc hreturns⟩

end Macros

/-- **`cond` expands to nested conditionals, and `let` to the call of a function**, wherever the
form was read: with the macros that the loaded prelude leaves, and without a step limit, for any
number of clauses or bindings. -/
theorem cond_let_expansion {fuel : Nat} {settings : Settings} (hfuel : 500 ≤ fuel)
    (hs : settings.Unlimited) :
    ∃ image listing, load fuel settings source = .ok (image, listing) ∧
      HasMacros image.macros ∧ ∀ settings' : Settings, settings'.Unlimited →
        (∀ cs last, PlainClauses image.macros cs last →
          ∀ form : Value, form.bare = (condForm cs last).bare →
            ExpandsTo image.macros settings' form (conditionals cs last)) ∧
        ∀ bs body, PlainBindings image.macros bs body →
          ∀ form : Value, form.bare = (letForm bs body).bare →
            ExpandsTo image.macros settings' form (letCall bs body) := by
  obtain ⟨image, listing, hload, hi⟩ := exists_load hfuel hs
  exact ⟨image, listing, hload, hi.macros, fun settings' hs' =>
    ⟨fun _ _ h _ hform => expandsTo_conditionals hi.macros hs' h hform,
      fun _ _ h _ hform => expandsTo_letCall hi.macros hs' h hform⟩⟩

/-- Two clauses and what else; and two names that are bound, with two forms behind them. -/
theorem cond_let_expansion_short :
    ∃ image listing, load 500 .unset source = .ok (image, listing) ∧
      ExpandsTo image.macros .unset
        (condForm [(.symbol "a", .text "one"), (.symbol "b", .text "two")] (some (.text "three")))
        (listOf [.symbol "if", .symbol "a", .text "one",
          listOf [.symbol "if", .symbol "b", .text "two", .text "three"]]) ∧
      ExpandsTo image.macros .unset
        (letForm [("x", .text "one"), ("y", .symbol "a")] [.symbol "y", .symbol "x"])
        (listOf [listOf [.symbol "lambda", listOf [.symbol "x", .symbol "y"], .symbol "y",
          .symbol "x"], .text "one", .symbol "a"]) := by
  obtain ⟨image, listing, hload, hm, h⟩ :=
    cond_let_expansion (Nat.le_refl 500) Settings.unlimited_unset
  obtain ⟨hcond, hlet⟩ := h .unset Settings.unlimited_unset
  refine ⟨image, listing, hload, hcond [(.symbol "a", .text "one"), (.symbol "b", .text "two")]
    (some (.text "three")) ⟨?_, ?_, ?_⟩ _ rfl,
    hlet [("x", .text "one"), ("y", .symbol "a")] [.symbol "y", .symbol "x"] ⟨?_, ?_, ?_⟩ _ rfl⟩
  · simpa using ⟨⟨.atom rfl, .atom rfl⟩, .atom rfl, .atom rfl⟩
  · simpa using .atom rfl
  · simpa using ⟨hm.named?_symbol (by decide), hm.named?_symbol (by decide)⟩
  · simpa using ⟨.atom rfl, .atom rfl⟩
  · simpa using ⟨.atom rfl, .atom rfl⟩
  · simpa using ⟨hm.named?_symbol (by decide), hm.named?_symbol (by decide)⟩

end Prelude
end StackLisp
