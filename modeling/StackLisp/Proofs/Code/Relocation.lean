import StackLisp.Proofs.Value.Bare

/-!
# Forms that were read elsewhere

The compiler puts no location into code, apart from those in constants, and it looks at none.  So
**a form is compiled to the same wherever it was read**, up to locations (`Code.ofForm_like`): to
code that is the same, or to an error with a cause that is the same.  The same holds of
programs (`Code.ofProgram_like`).

The proof follows the compiler.  Each way to join outcomes takes outcomes that match to outcomes
that match.
-/

namespace StackLisp

/-- **The cause without the locations** of the forms that it is about. -/
def CompileCause.bare : CompileCause → CompileCause
  | closureForm form => closureForm form.bare
  | improperForm form => improperForm form.bare
  | badParameters error => badParameters error.bare
  | badLambda form => badLambda form.bare
  | badDefinition form => badDefinition form.bare
  | badConditional form => badConditional form.bare
  | badMacroDefinition form => badMacroDefinition form.bare
  | improperMacroUse form => improperMacroUse form.bare
  | macroArguments name fault => macroArguments name fault.bare
  | macroFault fault => macroFault fault.bare
  | nothingToExpand form => nothingToExpand form.bare
  | noSuchMacro head => noSuchMacro head.bare
  | cause => cause

theorem CompileCause.message_bare (cause : CompileCause) : cause.bare.message = cause.message := by
  cases cause with
  | closureForm form | improperForm form | badLambda form | badDefinition form
  | badConditional form | badMacroDefinition form | improperMacroUse form
  | nothingToExpand form | noSuchMacro form =>
    dsimp only [bare, message]
    rw [Value.toText_bare]
  | badParameters error => exact error.message_bare
  | macroArguments name fault | macroFault fault =>
    dsimp only [bare, message]
    rw [fault.message_bare]
  | _ => rfl

/-- The error without locations. -/
def CompileError.bare (e : CompileError) : CompileError :=
  ⟨e.cause.bare, none⟩

namespace Code

/-! ## Outcomes -/

/-- **Outcomes that are the same up to locations.** -/
abbrev Outcome.Like : Outcome → Outcome → Prop :=
  Matches (Upto CompileError.bare) (Upto bareCode)

/-- Errors about forms that are the same up to locations. -/
theorem error_like {cause cause' : CompileCause} {loc loc' : Option Location}
    (h : cause'.bare = cause.bare) :
    Outcome.Like (.error ⟨cause, loc⟩) (.error ⟨cause', loc'⟩) :=
  .error (congrArg (CompileError.mk · none) h)

section Like
variable {f g : Value → Outcome} {forms : List Value}

theorem concat_like (h : ∀ form ∈ forms, (f form).Like (g form)) :
    (concat (forms.map f)).Like (concat (forms.map g)) := by
  induction forms with
  | nil => exact .ok rfl
  | cons form forms ih =>
    obtain ⟨hform, hforms⟩ := List.forall_mem_cons.mp h
    exact hform.bind fun _ _ hc => (ih hforms).bind fun _ _ hd => .ok (by simp [hc, hd])

theorem sequence_like (h : ∀ form ∈ forms, (f form).Like (g form)) :
    (sequence (forms.map f)).Like (sequence (forms.map g)) := by
  induction forms with
  | nil => exact .ok rfl
  | cons form forms ih =>
    obtain ⟨hform, hforms⟩ := List.forall_mem_cons.mp h
    cases forms with
    | nil => exact hform.bind fun _ _ hc => .ok (by simp [hc])
    | cons next forms =>
      exact hform.bind fun _ _ hc => (ih hforms).bind fun _ _ hd => .ok (by simp [bareCode, hc, hd])

theorem conjunction_like (h : ∀ form ∈ forms, (f form).Like (g form)) :
    (conjunction (forms.map f)).Like (conjunction (forms.map g)) := by
  induction forms with
  | nil => exact .ok rfl
  | cons form forms ih =>
    obtain ⟨hform, hforms⟩ := List.forall_mem_cons.mp h
    cases forms with
    | nil => exact hform
    | cons next forms =>
      refine (ih hforms).bind fun c d hd => hform.bind fun _ _ hc => .ok ?_
      have hlength : d.length = c.length := by simpa using congrArg List.length hd
      simp [bareCode, hc, hd, hlength]

theorem disjunction_like (h : ∀ form ∈ forms, (f form).Like (g form)) :
    (disjunction (forms.map f)).Like (disjunction (forms.map g)) := by
  induction forms with
  | nil => exact .ok rfl
  | cons form forms ih =>
    obtain ⟨hform, hforms⟩ := List.forall_mem_cons.mp h
    cases forms with
    | nil => exact hform
    | cons next forms =>
      refine (ih hforms).bind fun c d hd => hform.bind fun _ _ hc => .ok ?_
      have hlength : d.length = c.length := by simpa using congrArg List.length hd
      simp [bareCode, hc, hd, hlength]

theorem function_like (params : Value) (loc : Option Location)
    (h : ∀ form ∈ forms, (f form).Like (g form)) :
    (Code.function params (forms.map f) loc).Like
      (Code.function params.bare (forms.map g) none) := by
  have hparams := Parameters.ofForm_matches params.bare_bare
  unfold Code.function
  cases hp : Parameters.ofForm params with
  | error e =>
    obtain ⟨e', hp', he⟩ := hparams.exists_error hp
    rw [hp']
    exact error_like (congrArg CompileCause.badParameters he)
  | ok ps =>
    obtain ⟨_, hp', rfl⟩ := hparams.exists_ok hp
    rw [hp']
    exact (sequence_like h).bind fun _ _ hc =>
      .ok (by simp [bareCode, Instruction.bare, Value.bare, hc])

theorem conditional_like {test yes no test' yes' no' : Outcome} (ht : test.Like test')
    (hy : yes.Like yes') (hn : no.Like no') :
    (conditional test yes no).Like (conditional test' yes' no') := by
  refine hy.bind fun y y' hy => hn.bind fun n n' hn => ht.bind fun _ _ ht => .ok ?_
  have hlength : y'.length = y.length := by simpa using congrArg List.length hy
  have hlength' : n'.length = n.length := by simpa using congrArg List.length hn
  simp [bareCode, ht, hy, hn, hlength, hlength']

theorem definition_like {value value' : Outcome} (name : String) (h : value.Like value') :
    (definition name value).Like (definition name value') :=
  h.bind fun _ _ hc => .ok (by simp [hc])

@[simp] theorem directPrimitive?_bare (bound : List String) (head : Value) :
    directPrimitive? bound head.bare = directPrimitive? bound head := by
  cases head <;> rfl

theorem application_like (bound : List String) (head : Value) (loc : Option Location)
    {function function' : Outcome} (hf : function.Like function')
    (h : ∀ form ∈ forms, (f form).Like (g form)) :
    (application bound head loc function (forms.map f)).Like
      (application bound head.bare none function' (forms.map g)) := by
  have hargs := concat_like h
  rw [application_eq, application_eq, directPrimitive?_bare, List.length_map, List.length_map]
  split
  · split
    · exact hargs.bind fun _ _ hc => .ok (by simp [hc])
    · exact .error rfl
  · exact hf.bind fun _ _ hc => hargs.bind fun _ _ hd => .ok (by simp [hc, hd])

end Like

@[simp] theorem isParameterForm_bare (v : Value) : isParameterForm v.bare = isParameterForm v := by
  cases v <;> rfl

theorem quotation_like (head tail : Value) (loc : Option Location) :
    (quotation head tail loc).Like (quotation head.bare tail.bare none) := by
  unfold quotation
  rw [Value.list?_bare]
  match tail.list? with
  | none => exact error_like (by simp [CompileCause.bare, Value.bare])
  | some [] => exact error_like rfl
  | some [datum] => exact .ok (by simp [bareCode, Instruction.bare])
  | some (_ :: _ :: _) => exact error_like (by simp [CompileCause.bare])

/-- **The code of a list**, given that of its parts. -/
theorem ofList_like (bound : List String) (head tail : Value) (loc : Option Location)
    {f g : Value → Outcome} (hf : (f head).Like (g head))
    (h : ∀ form ∈ tail.elements, (f form).Like (g form)) :
    (ofList bound head tail loc (f head) (tail.elements.map f)).Like
      (ofList bound head.bare tail.bare none (g head) (tail.elements.map g)) := by
  -- the errors that say which form is wrong
  have wrong : ∀ cause : Value → CompileCause, (∀ v, (cause v).bare = cause v.bare) →
      Outcome.Like (.error ⟨cause (.pair head tail loc), loc⟩)
        (.error ⟨cause (.pair head.bare tail.bare none), none⟩) :=
    fun cause hc => error_like (by simp [hc, Value.bare])
  have lambda := wrong .badLambda fun _ => rfl
  have define := wrong .badDefinition fun _ => rfl
  have choice := wrong .badConditional fun _ => rfl
  have improper := wrong .improperForm fun _ => rfl
  unfold ofList
  rw [Value.symbol?_bare, Value.list?_bare]
  cases ht : tail.list? with
  | none =>
    simp only [Option.map_none, Option.isSome_none, Bool.false_eq_true, if_false]
    split
    · exact lambda
    · exact define
    · exact choice
    all_goals exact improper
  | some items =>
    rw [elements_of_list? ht] at h ⊢
    simp only [Option.map_some, Option.isSome_some, if_true]
    split
    · match items, h with
      | [], _ => exact lambda
      | [_], _ => exact lambda
      | params :: first :: rest, h =>
        have hbody : ∀ form ∈ first :: rest, (f form).Like (g form) :=
          fun form hm => h form (List.mem_cons_of_mem _ hm)
        simp only [List.map_cons, isParameterForm_bare]
        split
        · exact function_like params loc hbody
        · exact lambda
    · match items, h with
      | [], _ => exact define
      | [first], _ =>
        cases first with
        | pair head _ _ => cases head <;> exact define
        | _ => exact define
      | .pair head params _ :: first :: rest, h =>
        cases head with
        | symbol name =>
          have hbody : ∀ form ∈ first :: rest, (f form).Like (g form) :=
            fun form hm => h form (List.mem_cons_of_mem _ hm)
          exact definition_like name (function_like params loc hbody)
        | _ => exact define
      | [.symbol name, value], h => exact definition_like name (h value (by simp))
      | .symbol _ :: _ :: _ :: _, _ => exact define
      | .nil :: _ :: _, _ | .bool _ :: _ :: _, _ | .number _ :: _ :: _, _ | .text _ :: _ :: _, _
      | .quoted _ :: _ :: _, _ | .template _ _ :: _ :: _, _ | .closure _ _ _ :: _ :: _, _ =>
        exact define
    · match items, h with
      | [], _ => exact choice
      | [_], _ => exact choice
      | [test, yes], h =>
        exact conditional_like (h test (by simp)) (h yes (by simp)) (.ok rfl)
      | [test, yes, no], h =>
        exact conditional_like (h test (by simp)) (h yes (by simp)) (h no (by simp))
      | _ :: _ :: _ :: _ :: _, _ => exact choice
    · exact conjunction_like h
    · exact disjunction_like h
    · match items, h with
      | [], _ => exact error_like rfl
      | [_], _ => exact error_like rfl
      | [callee, args], h => exact (concat_like h).bind fun _ _ hc => .ok (by simp [hc])
      | _ :: _ :: _ :: _, _ => exact error_like (by simp [CompileCause.bare])
    · match items, h with
      | [], _ => exact error_like rfl
      | [arg], h => exact (h arg (by simp)).bind fun _ _ hc => .ok (by simp [hc])
      | _ :: _ :: _, _ => exact error_like (by simp [CompileCause.bare])
    · exact application_like bound head loc hf h

/-- **A form has the same code wherever it was read**, up to locations. -/
theorem ofForm_like (bound : List String) :
    ∀ form : Value, (ofForm bound form).Like (ofForm bound form.bare)
  | .pair head tail loc => by
    rw [Value.bare, ofForm, ofForm, Value.symbol?_bare]
    split
    · exact quotation_like head tail loc
    · rw [ofEach_eq, ofEach_eq, Value.elements_bare, List.map_map]
      exact ofList_like bound head tail loc (g := fun form => ofForm bound form.bare)
        (ofForm_like bound head) fun form hm => ofForm_like bound form
  | .quoted datum => .ok (by simp [bareCode, Instruction.bare])
  | .closure params code scope => error_like (by simp [CompileCause.bare, Value.bare])
  | .template params code => .ok (by simp [bareCode, Instruction.bare])
  | .nil | .bool _ | .number _ | .text _ | .symbol _ => .ok rfl
termination_by form => sizeOf form
decreasing_by
  · simp
    omega
  · have := sizeOf_lt_of_mem_elements hm
    simp
    omega

end Code

/-! ## Names that are bound -/

namespace Value

@[simp] theorem symbolNames_bare (v : Value) : v.bare.symbolNames = v.symbolNames := by
  unfold symbolNames
  rw [elements_bare, List.filterMap_map]
  congr 2
  exact funext symbol?_bare

@[simp] theorem targetNames_bare (head tail : Value) :
    targetNames head.bare tail.bare = targetNames head tail := by
  cases head with
  | symbol name =>
    cases tail with
    | pair target rest loc =>
      have hnames := symbolNames_bare target
      cases target <;> simp_all [targetNames, bare]
    | _ => rfl
  | _ => rfl

mutual

/-- **The names that a form binds** do not depend on locations. -/
@[simp] theorem boundNames_bare : ∀ v : Value, v.bare.boundNames = v.boundNames
  | .pair head tail _ => by
    rw [bare, boundNames, boundNames, symbol?_bare, targetNames_bare, boundNames_bare head,
      boundInEach_bare tail]
  | .nil | .bool _ | .number _ | .text _ | .symbol _ | .quoted _ | .template _ _
  | .closure _ _ _ => rfl

@[simp] theorem boundInEach_bare : ∀ v : Value, v.bare.boundInEach = v.boundInEach
  | .pair head tail _ => by
    rw [bare, boundInEach, boundInEach, boundNames_bare head, boundInEach_bare tail]
  | .nil | .bool _ | .number _ | .text _ | .symbol _ | .quoted _ | .template _ _
  | .closure _ _ _ => rfl

end

/-- The names that forms bind, up to locations. -/
theorem flatMap_boundNames_bare (forms : List Value) :
    (forms.map bare).flatMap boundNames = forms.flatMap boundNames := by
  rw [List.flatMap_map]
  exact congrArg (forms.flatMap ·) (funext boundNames_bare)

end Value

namespace Code

/-- **Programs that are the same up to locations have the same code** up to locations. -/
theorem ofProgram_like (bound : List String) {forms forms' : List Value}
    (hf : forms'.map Value.bare = forms.map Value.bare) :
    (ofProgram bound forms).Like (ofProgram bound forms') := by
  have hbare : ∀ forms : List Value,
      (ofProgram bound forms).Like (ofProgram bound (forms.map Value.bare)) := by
    intro forms
    unfold ofProgram
    rw [List.isEmpty_map]
    split
    · exact .ok rfl
    · rw [programNames, programNames, Value.flatMap_boundNames_bare, ofBody, ofBody, List.map_map]
      exact sequence_like fun form _ => ofForm_like _ form
  have hforms' := hbare forms'
  rw [hf] at hforms'
  exact (hbare forms).trans hforms'.symm

/-- Programs that are the same up to locations have the same code up to locations. -/
theorem exists_ofProgram {bound : List String} {forms forms' : List Value} {code : Code}
    (hf : forms'.map Value.bare = forms.map Value.bare) (h : ofProgram bound forms = .ok code) :
    ∃ code', ofProgram bound forms' = .ok code' ∧ bareCode code' = bareCode code :=
  (ofProgram_like bound hf).exists_ok h

end Code

end StackLisp
