import StackLisp.Proofs.Machine.Execution
import StackLisp.Proofs.Macro.Conservative
import StackLisp.Proofs.Prelude.Loading
import StackLisp.Proofs.Printing

/-!
# The list functions of the prelude

**The list functions compute what their names say** (`list_functions`): a call of `append`,
`reverse`, `map`, `filter`, `fold-left` or `fold-right` on a list of any length halts with what the
list operation of that name gives, in the order of whose applications the first that fails stops the
run.

What a function answers is proved by induction on the list, with one call of the function in each
case (`append_answers` and so on), for whatever it is given to call.  The call is then put into a
program (`runs_of_answers`), where primitives are what it is given.
-/

namespace StackLisp

/-- **A proper list with its items.** -/
inductive Value.Lists : Value → List Value → Prop
  | nil : Value.Lists .nil []
  | pair {x rest : Value} {items : List Value} (loc : Option Location)
      (h : Value.Lists rest items) : Value.Lists (.pair x rest loc) (x :: items)

theorem Value.lists_of_list? {v : Value} {items : List Value} (h : v.list? = some items) :
    v.Lists items := by
  induction items generalizing v with
  | nil =>
    obtain ⟨rfl, -⟩ | ⟨_, _, _, _, _, hnil, -⟩ := Value.list_cases h
    · exact .nil
    · cases hnil
  | cons x items ih =>
    obtain ⟨-, hnil⟩ | ⟨head, rest, loc, _, rfl, hitems, hrest⟩ := Value.list_cases h
    · cases hnil
    · cases hitems
      exact .pair loc (ih hrest)

namespace Prelude
open Machine

/-! ## Lists -/

section FilterM
variable {m : Type → Type} [Monad m] [LawfulMonad m] {α : Type} (p : α → m Bool)

theorem filterAuxM_eq (items acc : List α) :
    items.filterAuxM p acc = do
      let kept ← items.filterAuxM p []
      return kept ++ acc := by
  induction items generalizing acc with
  | nil => simp [List.filterAuxM]
  | cons x items ih =>
    simp only [List.filterAuxM, bind_assoc]
    congr
    funext b
    rw [ih, ih (bif b then [x] else [])]
    cases b <;> simp

theorem filterM_cons (x : α) (items : List α) :
    (x :: items).filterM p = do
      let b ← p x
      let kept ← items.filterM p
      return bif b then x :: kept else kept := by
  simp only [List.filterM, List.filterAuxM, bind_assoc]
  congr
  funext b
  rw [filterAuxM_eq]
  cases b <;> simp

end FilterM

/-- Putting the items in front one after the other turns them round. -/
theorem foldlM_flip (items : List Value) (acc : Value) :
    items.foldlM (fun acc x => (.ok (.pair x acc none) : Except Fault Value)) acc =
      .ok (.ofList items.reverse none acc) := by
  induction items generalizing acc with
  | nil => rfl
  | cons x items ih => simpa [Value.ofList, bind, Except.bind] using ih (.pair x acc none)

/-! ## What the functions answer -/

variable {globals : Bindings} {known : List (ScopeId × Environment)} {callee xs : Value}
  {f : Value → Except Fault Value} {op : Value → Value → Except Fault Value}
  {items : List Value}

section Answers
variable (h : IsLibrary globals) (hglobal : (Arena.globalId, [globals]) ∈ known)
include h hglobal

/-- **`append`** ends the list with the second one, whatever that is. -/
theorem append_answers (hxs : xs.Lists items) (y : Value) :
    Answers known append.global [xs, y] (.ok (.ofList items none y)) := by
  have hself : globals.get? "append" = some append.global := h.get? append (by simp [functions])
  have hbind (xs : Value) : append.params.bind [xs, y] = .ok [("list1", xs), ("list2", y)] := rfl
  induction hxs with
  | nil =>
    refine answers_closure hglobal (hbind _) fun inner id outer callers stack _ hm => hm.returns ?_
    simp [append, Primitive.apply, Value.isFalsy, Value.ofList, Bindings.get?]
  | @pair x rest items loc _ ih =>
    refine answers_closure hglobal (hbind _) fun inner id outer callers stack hk hm => ?_
    refine hm.settles [.call 2, pair, .ret] (y :: rest :: append.global :: x :: stack) ?_
      fun next hm => ?_
    · simp [append, hself, Primitive.apply, Value.isFalsy, Bindings.get?]
    refine hm.calls ih (List.subset_cons_of_subset _ hk) rfl rfl (fun v => .ok (.pair x v none)) rfl
      fun v next hm => hm.returns ?_
    simp [Primitive.apply]

/-- **`map`** calls from the first item to the last. -/
theorem map_answers (hf : ∀ x, Answers known callee [x] (f x)) (hxs : xs.Lists items) :
    Answers known map.global [callee, xs] (do
      let ys ← items.mapM f
      return .ofList ys none .nil) := by
  have hself : globals.get? "map" = some map.global := h.get? map (by simp [functions])
  have hbind (xs : Value) : map.params.bind [callee, xs] = .ok [("proc", callee), ("items", xs)] :=
    rfl
  induction hxs with
  | nil =>
    refine answers_closure hglobal (hbind _) fun inner id outer callers stack _ hm => hm.returns ?_
    simp [map, Primitive.apply, Value.isFalsy, Value.ofList, Bindings.get?]
  | @pair x rest items loc _ ih =>
    refine answers_closure hglobal (hbind _) fun inner id outer callers stack hk hm => ?_
    refine hm.settles (.call 1 :: map.code.drop 10) (x :: callee :: stack) ?_ fun next hm => ?_
    · simp [map, Primitive.apply, Value.isFalsy, Bindings.get?]
    refine hm.calls (hf x) (List.subset_cons_of_subset _ hk) rfl rfl (fun y => do
      let v ← (do let ys ← items.mapM f; return .ofList ys none .nil)
      .ok (.pair y v none)) ?_ fun y next hm => ?_
    · simp only [List.mapM_cons, bind_assoc, pure_bind]
      rfl
    refine hm.settles [.call 2, pair, .ret] (rest :: callee :: map.global :: y :: stack) ?_
      fun next hm => ?_
    · simp [map, hself, Primitive.apply, Bindings.get?]
    refine hm.calls ih (List.subset_cons_of_subset _ hk) rfl rfl (fun v => .ok (.pair y v none)) rfl
      fun v next hm => hm.returns ?_
    simp [Primitive.apply]

/-- **`filter`** calls from the first item to the last, and keeps the items whose answer is not
falsy. -/
theorem filter_answers (hf : ∀ x, Answers known callee [x] (f x)) (hxs : xs.Lists items) :
    Answers known filter.global [callee, xs] (do
      let kept ← items.filterM fun x => do return !(← f x).isFalsy
      return .ofList kept none .nil) := by
  have hself : globals.get? "filter" = some filter.global := h.get? filter (by simp [functions])
  have hbind (xs : Value) :
      filter.params.bind [callee, xs] = .ok [("pred", callee), ("sequence", xs)] := rfl
  induction hxs with
  | nil =>
    refine answers_closure hglobal (hbind _) fun inner id outer callers stack _ hm => hm.returns ?_
    simp [filter, Primitive.apply, Value.isFalsy, Value.ofList, Bindings.get?]
  | @pair x rest items loc _ ih =>
    refine answers_closure hglobal (hbind _) fun inner id outer callers stack hk hm => ?_
    have hk' (p : ScopeId × Environment) := List.subset_cons_of_subset p hk
    refine hm.settles (.call 1 :: filter.code.drop 10) (x :: callee :: stack) ?_ fun next hm => ?_
    · simp [filter, Primitive.apply, Value.isFalsy, Bindings.get?]
    refine hm.calls (hf x) (hk' _) rfl rfl (fun v => do
      let kept ← items.filterM fun x => do return !(← f x).isFalsy
      return .ofList (bif !v.isFalsy then x :: kept else kept) none .nil)
      (by simp only [filterM_cons, bind_assoc, pure_bind]) fun v next hm => ?_
    cases hv : v.isFalsy with
    | true =>
      refine hm.settles [.call 2, .ret] (rest :: callee :: filter.global :: stack) ?_
        fun next hm => ?_
      · simp [filter, hself, hv, Primitive.apply, Bindings.get?]
      exact hm.returns_call [callee, rest] ih (hk' _) rfl rfl
    | false =>
      refine hm.settles (.call 2 :: filter.code.drop 18)
        (rest :: callee :: filter.global :: x :: stack) ?_ fun next hm => ?_
      · simp [filter, hself, hv, Primitive.apply, Bindings.get?]
      refine hm.calls ih (hk' _) rfl rfl (fun v => .ok (.pair x v none)) ?_
        fun v next hm => hm.returns ?_
      · simp [Value.ofList]
        rfl
      · simp [filter, Primitive.apply, Value.isFalsy]

/-- **`fold-right`** calls from the last item to the first. -/
theorem foldRight_answers (hop : ∀ x acc, Answers known callee [x, acc] (op x acc))
    (hxs : xs.Lists items) (initial : Value) :
    Answers known foldRight.global [callee, initial, xs] (items.foldrM op initial) := by
  have hself : globals.get? "fold-right" = some foldRight.global :=
    h.get? foldRight (by simp [functions])
  have hbind (xs : Value) : foldRight.params.bind [callee, initial, xs] =
    .ok [("op", callee), ("initial", initial), ("sequence", xs)] := rfl
  induction hxs with
  | nil =>
    refine answers_closure hglobal (hbind _) fun inner id outer callers stack _ hm => hm.returns ?_
    simp [foldRight, Primitive.apply, Value.isFalsy, Bindings.get?]
  | @pair x rest items loc _ ih =>
    refine answers_closure hglobal (hbind _) fun inner id outer callers stack hk hm => ?_
    have hk' (p : ScopeId × Environment) := List.subset_cons_of_subset p hk
    refine hm.settles [.call 3, .call 2, .ret]
      (rest :: initial :: callee :: foldRight.global :: x :: callee :: stack) ?_ fun next hm => ?_
    · simp [foldRight, hself, Primitive.apply, Value.isFalsy, Bindings.get?]
    -- The rest is folded before its result meets the first item, so a fault there comes first.
    refine hm.calls ih (hk' _) rfl rfl (op x) List.foldrM_cons fun acc next hm => ?_
    exact hm.returns_call [x, acc] (hop x acc) (hk' _) rfl rfl

end Answers

/-- The loop inside `fold-left`, wherever the scope of a call of that is known. -/
theorem iter_answers {closed : ScopeId} {vars : Bindings} {env : Environment}
    (hclosed : (closed, vars :: env) ∈ known) (hcallee : vars.get? "op" = some callee)
    (hself : vars.get? "iter" = some (iter.closure closed))
    (hop : ∀ acc x, Answers known callee [acc, x] (op acc x)) (hxs : xs.Lists items) (acc : Value) :
    Answers known (iter.closure closed) [acc, xs] (items.foldlM op acc) := by
  have hbind (acc xs : Value) : iter.params.bind [acc, xs] = .ok [("result", acc), ("rest", xs)] :=
    rfl
  induction hxs generalizing acc with
  | nil =>
    refine answers_closure hclosed (hbind _ _) fun inner id outer callers stack _ hm =>
      hm.returns ?_
    simp [iter, Primitive.apply, Value.isFalsy, Bindings.get?]
  | @pair x rest items loc _ ih =>
    refine answers_closure hclosed (hbind _ _) fun inner id outer callers stack hk hm => ?_
    have hk' (p : ScopeId × Environment) := List.subset_cons_of_subset p hk
    refine hm.settles (.call 2 :: iter.code.drop 12)
      (x :: acc :: callee :: iter.closure closed :: stack) ?_ fun next hm => ?_
    · simp [iter, hself, hcallee, Primitive.apply, Value.isFalsy, Bindings.get?]
    refine hm.calls (hop acc x) (hk' _) rfl rfl (items.foldlM op ·) List.foldlM_cons
      fun acc next hm => ?_
    refine hm.settles [.call 2, .ret] (rest :: acc :: iter.closure closed :: stack) ?_
      fun next hm => ?_
    · simp [iter, Primitive.apply, Bindings.get?]
    exact hm.returns_call [acc, rest] (ih acc) (hk' _) rfl rfl

/-- **`fold-left`** calls from the first item to the last. -/
theorem foldLeft_answers (hglobal : (Arena.globalId, [globals]) ∈ known)
    (hop : ∀ acc x, Answers known callee [acc, x] (op acc x)) (hxs : xs.Lists items)
    (initial : Value) :
    Answers known foldLeft.global [callee, initial, xs] (items.foldlM op initial) := by
  have hbind : foldLeft.params.bind [callee, initial, xs] =
    .ok [("op", callee), ("initial", initial), ("sequence", xs)] := rfl
  refine answers_closure hglobal hbind fun inner id outer callers stack hk hm => ?_
  refine hm.settles (.define "iter" :: foldLeft.code.drop 3) (iter.closure id :: stack) ?_
    fun next hm => ?_
  · simp [foldLeft, Function.template, Function.closure]
  obtain ⟨next, hadv, hm⟩ := hm.define
  refine Gives.of_advance hadv ?_
  refine hm.settles [.call 2, .ret] (xs :: initial :: iter.closure id :: stack) ?_ fun next hm => ?_
  · simp [foldLeft, Bindings.get?, Bindings.set]
  -- The loop is closed over the scope of this very call, which is known while it lasts.
  refine hm.returns_call [initial, xs] ?_ (List.Subset.refl _) rfl rfl
  exact iter_answers List.mem_cons_self rfl rfl
    (fun acc x => (hop acc x).mono (List.subset_cons_of_subset _ hk)) hxs initial

/-- The function that `reverse` folds with. -/
theorem flip_answers {closed : ScopeId} {env : Environment} (hclosed : (closed, env) ∈ known)
    (acc x : Value) : Answers known (flip.closure closed) [acc, x] (.ok (.pair x acc none)) := by
  have hbind : flip.params.bind [acc, x] = .ok [("acc", acc), ("x", x)] := rfl
  refine answers_closure hclosed hbind fun inner id outer callers stack _ hm => hm.returns ?_
  simp [flip, Primitive.apply, Bindings.get?]

/-- **`reverse`** folds with a function that puts an item in front. -/
theorem reverse_answers (h : IsLibrary globals) (hglobal : (Arena.globalId, [globals]) ∈ known)
    (hxs : xs.Lists items) :
    Answers known reverse.global [xs] (.ok (.ofList items.reverse none .nil)) := by
  have hfold : globals.get? "fold-left" = some foldLeft.global :=
    h.get? foldLeft (by simp [functions])
  have hbind : reverse.params.bind [xs] = .ok [("xs", xs)] := rfl
  refine answers_closure hglobal hbind fun inner id outer callers stack hk hm => ?_
  refine hm.settles [.call 3, .ret] (xs :: .nil :: flip.closure id :: foldLeft.global :: stack) ?_
    fun next hm => ?_
  · simp [reverse, hfold, Function.template, Function.closure, Bindings.get?]
  refine hm.returns_call [flip.closure id, .nil, xs] ?_ (List.Subset.refl _) rfl rfl
  rw [← foldlM_flip]
  exact foldLeft_answers (List.mem_cons_of_mem _ (hk hglobal)) (flip_answers List.mem_cons_self)
    hxs .nil

/-! ## Calls as programs -/

/-- What a function is called with in a program: a primitive by its name, or a quoted value. -/
inductive Operand where
  | builtin (p : Primitive)
  | datum (v : Value)

namespace Operand

def form : Operand → Value
  | builtin p => .symbol p.name
  | datum v => .quoted v

def instruction : Operand → Instruction
  | builtin p => .lookup p.name
  | datum v => .pushConst v

def value : Operand → Value
  | builtin p => .symbol p.name
  | datum v => v

theorem ofForm_form (bound : List String) (op : Operand) :
    Code.ofForm bound op.form = .ok [op.instruction] := by
  cases op <;> rfl

theorem concat_forms (bound : List String) (ops : List Operand) :
    Code.concat ((ops.map form).map (Code.ofForm bound)) = .ok (ops.map instruction) := by
  induction ops with
  | nil => rfl
  | cons op ops ih =>
    simp only [List.map_cons, Code.concat, ofForm_form, ih]
    rfl

end Operand

/-- The call of a function by its name. -/
def Function.call (f : Function) (ops : List Operand) : Value :=
  .pair (.symbol f.name) (.ofList (ops.map Operand.form) none .nil) none

/-- The code of such a call. -/
def Function.callCode (f : Function) (ops : List Operand) : Code :=
  .lookup f.name :: (ops.map Operand.instruction ++ [.call ops.length, .ret])

/-- **A program comes to a result in an image**, whatever the settings and the threshold: it is
expanded to itself and compiled, and with enough fuel its run halts with the result. -/
def Runs (image : Image) (form : Value) (r : Except Fault Value) : Prop :=
  ∀ (settings : Settings) (threshold : Int), ∃ (code : Code) (bound : Nat),
    Code.ofProgram image.arena.globalNames [form] = .ok code ∧
    ∀ fuel ≥ bound,
      MacroTable.expandProgram settings fuel image.macros [form] = .ok ([form], image.macros) ∧
      ((Machine.ofProgram code image.arena threshold).run fuel none).2 = .ofExcept r

section Calls
variable {image : Image} {f : Function}

/-- The names of the list functions mean nothing else. -/
theorem name_of_mem_functions (hf : f ∈ functions) :
    f.name ∉ Code.specialNames ∧ f.name ∉ macroNames ∧ f.name ≠ "macroexpand" ∧
      f.name ≠ "defmacro" ∧ Primitive.ofName? f.name = none := by
  have h : ∀ f ∈ functions, f.name ∉ Code.specialNames ∧ f.name ∉ macroNames ∧
      f.name ≠ "macroexpand" ∧ f.name ≠ "defmacro" ∧ Primitive.ofName? f.name = none := by
    decide +kernel
  exact h f hf

/-- A call is compiled as one, since the names of list functions are none of primitives. -/
theorem ofProgram_call (hf : f ∈ functions) (bound : List String) (ops : List Operand) :
    Code.ofProgram bound [f.call ops] = .ok (f.callCode ops) := by
  obtain ⟨hspecial, -, -, -, hprimitive⟩ := name_of_mem_functions hf
  have hoperator : Code.IsOperator (.symbol f.name) := fun name hn he =>
    hspecial (Option.some.inj he ▸ hn)
  have hquote : (Value.symbol f.name).symbol? ≠ some "quote" :=
    hoperator _ (by simp [Code.specialNames])
  have hform (names : List String) : Code.ofForm names (f.call ops) =
      .ok (.lookup f.name :: (ops.map Operand.instruction ++ [.call ops.length])) := by
    have hdirect : Code.directPrimitive? names (.symbol f.name) = none := by
      simp [Code.directPrimitive?, hprimitive]
    have htail := Value.list?_ofList (ops.map Operand.form) none
    rw [Function.call, Code.ofForm, if_neg hquote, Code.ofList_eq_application hoperator htail,
      Code.application_eq, hdirect, Code.ofEach_eq, Code.elements_of_list? htail]
    simp only [Operand.concat_forms, List.length_map]
    rfl
  simp only [Code.ofProgram, Code.ofBody, List.map_cons, List.map_nil, hform, Code.sequence]
  simp [Function.callCode, Bind.bind, Except.bind]

/-- A call uses no macro. -/
theorem expandProgram_call (hm : HasMacros image.macros) (hf : f ∈ functions) (ops : List Operand)
    (settings : Settings) (fuel : Nat) :
    MacroTable.expandProgram settings (fuel + 1) image.macros [f.call ops] =
      .ok ([f.call ops], image.macros) := by
  obtain ⟨hspecial, hmacro, hshow, hdefine, -⟩ := name_of_mem_functions hf
  have hatom : ∀ v ∈ ops.map Operand.form, MacroTable.isPair v = false := by
    intro v hv
    obtain ⟨op, -, rfl⟩ := List.mem_map.mp hv
    cases op <;> rfl
  refine MacroTable.expandProgram_of_unused ?_ ?_ ?_ <;> rw [List.forall_mem_singleton]
  · have hitems : ∀ v ∈ .symbol f.name :: ops.map Operand.form, v.AsRead := fun v hv =>
      (List.mem_cons.mp hv).elim (fun hv => hv ▸ .atom rfl) fun hv => .atom (hatom v hv)
    exact Value.asRead_ofList hitems
  · exact MacroTable.isDefinition_eq_false fun _ _ he =>
      hdefine (Value.symbol.inj (Value.pair.inj he).1)
  · refine .list (hm.named?_symbol hmacro) (fun he => hshow (Value.symbol.inj he)) fun v hv =>
      .atom ?_
    have hmem := Value.mem_elements_of_mem_evaluatedElements hv
    rw [Value.elements, Code.elements_of_list? (Value.list?_ofList _ _)] at hmem
    exact (List.mem_cons.mp hmem).elim (fun hv => hv ▸ rfl) (hatom v)

/-- The operands of a call are put on the stack. -/
theorem settle_operands {globals : Bindings} (h : IsLibrary globals) (ops : List Operand)
    (scope : ScopeId) (rest : Code) (stack : List Value) :
    Code.settle [globals] scope 0 (ops.map Operand.instruction ++ rest) stack =
      Code.settle [globals] scope 0 rest ((ops.map Operand.value).reverse ++ stack) := by
  induction ops generalizing stack with
  | nil => rfl
  | cons op ops ih =>
    have hop :
        op.instruction.onStack? [globals] scope stack = some (.ok (0, op.value :: stack)) := by
      cases op with
      | builtin p =>
        have hp := h.unbound p (List.mem_of_find?_eq_some p.ofName?_name)
        simp [Operand.instruction, Operand.value, Environment.get?, hp, p.ofName?_name]
      | datum v => rfl
    simp only [List.map_cons, List.cons_append, Code.settle, hop]
    rw [ih, List.reverse_cons, List.append_assoc]
    rfl

/-- **What a function answers is what its call comes to.** -/
theorem runs_of_answers (hi : IsPrelude image) (hf : f ∈ functions) {ops : List Operand}
    {r : Except Fault Value}
    (h : ∀ globals, IsLibrary globals → Machine.Answers [(Arena.globalId, [globals])]
      f.global (ops.map Operand.value) r) : Runs image (f.call ops) r := by
  intro settings threshold
  obtain ⟨globals, hglobals, hlibrary⟩ := hi.globals
  have hreturns :
      (ofProgram (f.callCode ops) image.arena threshold).Returns Arena.globalId [] [] [] r := by
    refine (before_ofProgram (.outermost hglobals) hi.fresh threshold).settles
      [.call ops.length, .ret] ((ops.map Operand.value).reverse ++ [f.global]) ?_ fun next hm => ?_
    · have hself : Environment.get? [globals] f.name = some f.global := by
        simp [hlibrary.get? f hf]
      simp only [Function.callCode, Code.settle, Instruction.onStack?, hself,
        settle_operands hlibrary]
    · exact hm.returns_call _ (h globals hlibrary) (List.Subset.refl _) (by simp) rfl
  obtain ⟨bound, hbound⟩ := hreturns.run rfl
  refine ⟨_, bound + 1, ofProgram_call hf _ ops, fun fuel hfuel => ⟨?_, ?_⟩⟩
  · obtain ⟨k, rfl⟩ := Nat.exists_eq_add_of_le' (Nat.le_trans (Nat.le_add_left 1 bound) hfuel)
    exact expandProgram_call hi.macros hf ops settings k
  · exact (hbound fuel (Nat.le_of_succ_le hfuel)).1

end Calls

/-! ## The list functions -/

/-- **The list functions compute what their names say**, after the prelude has been loaded without a
step limit: on the list of any items, with any primitive, from any initial value. -/
theorem list_functions {fuel : Nat} {settings : Settings} (hfuel : 500 ≤ fuel)
    (hs : settings.Unlimited) :
    ∃ image listing, load fuel settings source = .ok (image, listing) ∧
      ∀ (xs : Value) (items : List Value), xs.list? = some items →
        (∀ y, Runs image (append.call [.datum xs, .datum y]) (.ok (.ofList items none y))) ∧
        Runs image (reverse.call [.datum xs]) (.ok (.ofList items.reverse none .nil)) ∧
        (∀ p : Primitive,
          Runs image (map.call [.builtin p, .datum xs]) (do
            let ys ← items.mapM fun x => p.apply [x]
            return .ofList ys none .nil) ∧
          Runs image (filter.call [.builtin p, .datum xs]) (do
            let kept ← items.filterM fun x => do return !(← p.apply [x]).isFalsy
            return .ofList kept none .nil) ∧
          ∀ initial,
            Runs image (foldLeft.call [.builtin p, .datum initial, .datum xs])
              (items.foldlM (fun acc x => p.apply [acc, x]) initial) ∧
            ∀ f ∈ [foldRight, accumulate],
              Runs image (f.call [.builtin p, .datum initial, .datum xs])
                (items.foldrM (fun x acc => p.apply [x, acc]) initial)) := by
  obtain ⟨image, listing, hload, hi⟩ := exists_load hfuel hs
  refine ⟨image, listing, hload, fun xs items hxs => ?_⟩
  have hlist := Value.lists_of_list? hxs
  refine ⟨fun y => ?_, ?_, fun p => ⟨?_, ?_, fun initial => ⟨?_, fun f hf => ?_⟩⟩⟩
  · exact runs_of_answers hi (by simp [functions]) fun globals h =>
      append_answers h List.mem_cons_self hlist y
  · exact runs_of_answers hi (by simp [functions]) fun globals h =>
      reverse_answers h List.mem_cons_self hlist
  · exact runs_of_answers hi (by simp [functions]) fun globals h =>
      map_answers h List.mem_cons_self (fun x => answers_primitive p [x]) hlist
  · exact runs_of_answers hi (by simp [functions]) fun globals h =>
      filter_answers h List.mem_cons_self (fun x => answers_primitive p [x]) hlist
  · exact runs_of_answers hi (by simp [functions]) fun globals h =>
      foldLeft_answers List.mem_cons_self (fun acc x => answers_primitive p [acc, x]) hlist initial
  · have hanswers : ∀ globals, IsLibrary globals → Answers [(Arena.globalId, [globals])]
        foldRight.global [.symbol p.name, initial, xs]
        (items.foldrM (fun x acc => p.apply [x, acc]) initial) := fun globals h =>
      foldRight_answers h List.mem_cons_self (fun x acc => answers_primitive p [x, acc]) hlist
        initial
    have hf' : f ∈ functions ∧ f.global = foldRight.global := by
      simp only [List.mem_cons, List.not_mem_nil, or_false] at hf
      obtain rfl | rfl := hf <;> simp [functions, accumulate, Function.closure]
    exact runs_of_answers hi hf'.1 fun globals h => hf'.2 ▸ hanswers globals h

/-- Three items are turned round, and the first item that is no pair stops `map`. -/
theorem list_functions_short :
    ∃ image listing, load 500 .unset source = .ok (image, listing) ∧
      Runs image (reverse.call [.datum (.ofList [.symbol "a", .symbol "b", .nil] none .nil)])
        (.ok (.ofList [.nil, .symbol "b", .symbol "a"] none .nil)) ∧
      Runs image
        (map.call [.builtin .car, .datum (.ofList [.symbol "a", .symbol "b", .nil] none .nil)])
        (.error (.notPair "car" (.symbol "a"))) := by
  obtain ⟨image, listing, hload, h⟩ := list_functions (Nat.le_refl 500) Settings.unlimited_unset
  obtain ⟨-, hreverse, hbuiltin⟩ := h (.ofList [.symbol "a", .symbol "b", .nil] none .nil) _
    (Value.list?_ofList _ _)
  exact ⟨image, listing, hload, hreverse, (hbuiltin .car).1⟩

end Prelude
end StackLisp
