import StackLisp.Proofs.Code.Relocation
import StackLisp.Proofs.Machine.Twin
import StackLisp.Proofs.Machine.WellFormed
import StackLisp.Proofs.Macro.Expansion

/-!
# Expansion up to locations

Macros see the forms they are given, and a form does not show where it was read.  So **forms that
are the same up to locations have the same expansion** up to locations, with macros that are the
same up to locations, or the same error (`MacroTable.expandProgram_repeats`).  More fuel does no
harm: unless the first expansion runs out of it, the second repeats the first (`Repeats`).

Programs are expanded form by form, and what is left of the first is the table of macros.  So
the expansion of two programs, one after the other, is that of the first and then that of the
second with the macros of the first (`MacroTable.expandProgram_append`).
-/

namespace StackLisp

/-- What is a pair up to locations is a pair. -/
theorem Value.exists_pair {w head tail : Value} {loc : Option Location}
    (h : w.bare = (pair head tail loc).bare) :
    ∃ head' tail' loc', w = pair head' tail' loc' ∧ head'.bare = head.bare ∧
      tail'.bare = tail.bare := by
  cases w with
  | pair head' tail' loc' =>
    simp only [Value.bare, pair.injEq] at h
    exact ⟨head', tail', loc', rfl, h.1, h.2.1⟩
  | _ => cases h

theorem Value.exists_quoted {w v : Value} (h : w.bare = (quoted v).bare) :
    ∃ v', w = quoted v' ∧ v'.bare = v.bare := by
  cases w with
  | quoted v' => exact ⟨v', rfl, quoted.inj h⟩
  | _ => cases h

theorem Value.eq_nil_of_bare {w : Value} (h : w.bare = nil.bare) : w = nil := by
  cases w <;> cases h
  rfl

theorem Value.symbol?_of_bare {v w : Value} (h : w.bare = v.bare) : w.symbol? = v.symbol? := by
  rw [← symbol?_bare, h, symbol?_bare]

/-! ## Errors -/

/-- **The error without locations**: what it says of a source is why it cannot be read. -/
def Error.bare : Error → Error
  | read _ e => read ⟨[], none⟩ ⟨e.reason, 0⟩
  | compile e => compile e.bare
  | fault f => fault f.bare
  | e => e

/-- **The second result repeats the first**, up to locations, unless the first lacks fuel. -/
inductive Repeats {α : Type} (R : α → α → Prop) : Except Error α → Except Error α → Prop
  | matched {r s : Except Error α} (h : Matches (Upto Error.bare) R r s) : Repeats R r s
  | outOfFuel (s : Except Error α) : Repeats R (.error .outOfFuel) s

namespace Repeats
variable {α β : Type} {R : α → α → Prop} {r s : Except Error α}

theorem ok {a b : α} (h : R a b) : Repeats R (.ok a) (.ok b) :=
  .matched (.ok h)

/-- What does not depend on anything is the same. -/
theorem refl (r : Except Error α) : Repeats Eq r r :=
  .matched (.refl r)

/-- An error about forms that are the same up to locations. -/
theorem compile {cause cause' : CompileCause} (h : cause'.bare = cause.bare)
    (loc loc' : Option Location) :
    Repeats R (.error (.compile ⟨cause, loc⟩)) (.error (.compile ⟨cause', loc'⟩)) :=
  .matched (.error (congrArg (fun c => Error.compile ⟨c, none⟩) h))

/-- **Expansions one after the other.** -/
theorem bind {S : β → β → Prop} {f g : α → Except Error β} (h : Repeats R r s)
    (hf : ∀ a b, R a b → Repeats S (f a) (g b)) : Repeats S (r >>= f) (s >>= g) := by
  cases h with
  | matched h =>
    cases h with
    | ok h => exact hf _ _ h
    | error h => exact .matched (.error h)
  | outOfFuel s => exact .outOfFuel _

theorem exists_ok {a : α} (h : Repeats R r s) (hr : r = .ok a) : ∃ b, s = .ok b ∧ R a b := by
  subst hr
  cases h with
  | matched h => exact h.exists_ok rfl

/-- **Results that repeat each other match.** -/
theorem matches_of_symm {S : α → α → Prop} (h : Repeats R r s) (h' : Repeats S s r) :
    Matches (Upto Error.bare) R r s := by
  cases h with
  | matched h => exact h
  | outOfFuel s =>
    cases h' with
    | matched h' =>
      cases h' with
      | error h' => exact .error h'.symm
    | outOfFuel => exact .error rfl

end Repeats

/-! ## Macros -/

/-- The macro without locations. -/
def Macro.bare (m : Macro) : Macro :=
  { m with
    code := bareCode m.code
    loc := none }

theorem Arena.like_ofGlobals {bindings bindings' : Bindings}
    (h : bindings'.bare = bindings.bare) : (ofGlobals bindings).Like (ofGlobals bindings') := by
  refine ⟨rfl, fun id => ?_⟩
  rw [get?_ofGlobals, get?_ofGlobals]
  by_cases hid : id = globalId
  · simp [hid, Scope.bare, h]
  · simp [hid]

/-- **A macro leaves the same** up to locations, and more fuel does no harm. -/
theorem Macro.expand_repeats {m m' : Macro} (hm : m'.bare = m.bare) {args args' : List Value}
    (ha : args'.map Value.bare = args.map Value.bare) {fuel fuel' : Nat} (hfuel : fuel ≤ fuel')
    (settings : Settings) (loc loc' : Option Location) :
    Repeats (Upto Value.bare) (m.expand fuel settings args loc)
      (m'.expand fuel' settings args' loc') := by
  simp only [Macro.bare, Macro.mk.injEq] at hm
  obtain ⟨hname, hparams, hcode, -⟩ := hm
  have hbind := m.params.bind_matches ha
  unfold Macro.expand
  rw [hname, hparams]
  cases hb : m.params.bind args with
  | error fault =>
    obtain ⟨fault', hb', hf⟩ := hbind.exists_error hb
    rw [hb']
    refine .compile ?_ _ _
    exact congrArg (CompileCause.macroArguments m.name) hf
  | ok bindings =>
    obtain ⟨bindings', hb', hbare⟩ := hbind.exists_ok hb
    rw [hb']
    refine (Repeats.refl _).bind fun threshold _ hk => (Repeats.refl _).bind fun limit _ hl => ?_
    subst hk hl
    have harena := Arena.like_ofGlobals hbare
    have htwin := (Machine.like_ofProgram hcode harena threshold).twin rfl
    obtain ⟨hafter, hout⟩ := htwin.run fuel limit
    -- More steps change nothing once the run has ended.
    have hmore : ((Machine.ofProgram m'.code (.ofGlobals bindings') threshold).run fuel limit).2 ≠
        .running → _ := Machine.run_of_le hfuel
    rcases hr : (Machine.ofProgram m.code (.ofGlobals bindings) threshold).run fuel limit with
      ⟨after, out⟩
    rcases hr' : (Machine.ofProgram m'.code (.ofGlobals bindings') threshold).run fuel limit with
      ⟨after', out'⟩
    rw [hr, hr'] at hafter hout
    rw [hr'] at hmore
    cases out with
    | running => exact .outOfFuel _
    | fault f =>
      obtain ⟨f', rfl, hf⟩ := Outcome.exists_fault hout
      simp only [hmore (by simp), Fault.kind_of_bare hf]
      split
      · exact .matched (.error (congrArg Error.fault hf))
      · refine .compile ?_ _ _
        exact congrArg CompileCause.macroFault hf
    | value v =>
      obtain ⟨w, rfl, -⟩ := Outcome.exists_value hout
      have hstack := hafter.stack
      simp only [hmore (by simp)]
      -- One value on the stack is the expansion; any other number of them fails in both.
      rcases hs : after.stack with _ | ⟨form, _ | ⟨second, rest⟩⟩ <;> rw [hs] at hstack
      · rw [List.map_eq_nil_iff.mp hstack]
        exact .compile rfl _ _
      · obtain ⟨form', rest', hs', hform, hrest⟩ := exists_cons_of_map hstack
        rw [hs', List.map_eq_nil_iff.mp hrest]
        exact .ok hform
      · obtain ⟨form', rest', hs', -, hrest⟩ := exists_cons_of_map hstack
        obtain ⟨second', rest', rfl, -, hrest⟩ := exists_cons_of_map hrest
        have hlength : rest'.length = rest.length := by simpa using congrArg List.length hrest
        rw [hs']
        refine .compile ?_ _ _
        simp [CompileCause.bare, hlength]

namespace MacroTable

/-- **Tables with the same macros** up to locations, in the same order.  So each name has the same
macro in both (`Like.find?`). -/
def Like (t t' : MacroTable) : Prop :=
  t'.macros.map Macro.bare = t.macros.map Macro.bare

variable {t t' : MacroTable}

theorem Like.find? (h : t.Like t') (name : String) :
    (t'.find? name).map Macro.bare = (t.find? name).map Macro.bare := by
  have key : ∀ u : MacroTable, (u.find? name).map Macro.bare =
      (u.macros.map Macro.bare).find? (·.name == name) := fun u => by
    rw [List.find?_map]
    rfl
  rw [key, key, h]

theorem Like.named? (h : t.Like t') {v w : Value} (hv : w.bare = v.bare) :
    (t'.named? w).map Macro.bare = (t.named? v).map Macro.bare := by
  unfold MacroTable.named?
  rw [Value.symbol?_of_bare hv]
  cases v.symbol? with
  | none => rfl
  | some name => exact h.find? name

theorem Like.insert (h : t.Like t') {m m' : Macro} (hm : m'.bare = m.bare) :
    (t.insert m).Like (t'.insert m') := by
  have hname : m'.bare.name = m.bare.name := congrArg Macro.name hm
  simp only [Macro.bare] at hname
  have key : ∀ u : MacroTable, (u.macros.filter (·.name != m.name)).map Macro.bare =
      (u.macros.map Macro.bare).filter (·.name != m.name) := fun u => by
    rw [List.filter_map]
    rfl
  unfold Like at h ⊢
  simp only [MacroTable.insert, List.map_cons, hm, hname, key, h]

/-! ## Forms -/

/-- **Two ways to expand uses of macros**, of which the second repeats the first. -/
def UsesRepeated (use use' : Use) : Prop :=
  ∀ {m m' : Macro} {args args' : List Value} {loc loc' : Option Location},
    m'.bare = m.bare → args'.map Value.bare = args.map Value.bare →
    Repeats (Upto Value.bare) (use m args loc) (use' m' args' loc')

section Forms
variable {use use' : Use}

theorem expandUse_repeats (ht : t.Like t') (hu : UsesRepeated use use')
    {form form' head head' tail tail' : Value} {loc loc' : Option Location}
    (hform : form'.bare = form.bare) (hhead : head'.bare = head.bare)
    (htail : tail'.bare = tail.bare) :
    Repeats (Upto Value.bare) (t.expandUse use form head tail loc)
      (t'.expandUse use' form' head' tail' loc') := by
  have hnamed := ht.named? hhead
  unfold expandUse
  cases hm : t.named? head with
  | none =>
    rw [hm, Option.map_none, Option.map_eq_none_iff] at hnamed
    rw [hnamed]
    exact .ok (by simp [Value.bare, hhead, htail])
  | some m =>
    rw [hm, Option.map_some, Option.map_eq_some_iff] at hnamed
    obtain ⟨m', hm', hbare⟩ := hnamed
    rw [hm']
    cases hl : tail.list? with
    | none =>
      simp only [Value.list?_eq_none htail hl]
      refine .compile ?_ _ _
      exact congrArg CompileCause.improperMacroUse hform
    | some args =>
      obtain ⟨args', hl', hargs⟩ := Value.exists_list? htail hl
      simp only [hl']
      exact hu hbare hargs

theorem checkUse_repeats (ht : t.Like t') {form form' target target' : Value}
    (hform : form'.bare = form.bare) (hv : target'.bare = target.bare)
    (loc loc' : Option Location) :
    Repeats Eq (checkUse t form target loc) (checkUse t' form' target' loc') := by
  have hnothing : ∀ {α : Type} {R : α → α → Prop},
      Repeats R (fail (.nothingToExpand form) loc) (fail (.nothingToExpand form') loc') := by
    intro α R
    refine .compile ?_ _ _
    exact congrArg CompileCause.nothingToExpand hform
  cases target with
  | pair head tail l =>
    obtain ⟨head', tail', l', rfl, hhead, -⟩ := Value.exists_pair hv
    have hnamed := congrArg Option.isSome (ht.named? hhead)
    rw [Option.isSome_map, Option.isSome_map] at hnamed
    simp only [checkUse, hnamed]
    split
    · exact .ok rfl
    · refine .compile ?_ _ _
      exact congrArg CompileCause.noSuchMacro hhead
  | _ =>
    cases target' with
    | pair => cases hv
    | _ => exact hnothing

@[simp] theorem isPair_bare (v : Value) : isPair v.bare = isPair v := by
  cases v <;> rfl

@[simp] theorem startsWithPair_bare (v : Value) : startsWithPair v.bare = startsWithPair v := by
  cases v with
  | pair head tail loc => cases head <;> rfl
  | _ => rfl

/-- What `macroexpand` shows, up to locations. -/
theorem Shows.exists_like {tail tail' target : Value} (h : Shows tail target)
    (hf : tail'.bare = tail.bare) :
    ∃ target', Shows tail' target' ∧ target'.bare = target.bare := by
  cases h with
  | quoted target loc =>
    obtain ⟨head', rest, l', rfl, hhead, hrest⟩ := Value.exists_pair hf
    obtain ⟨target', rfl, htarget⟩ := Value.exists_quoted hhead
    obtain rfl := Value.eq_nil_of_bare hrest
    exact ⟨target', .quoted target' l', htarget⟩
  | quotation target other l l' l'' =>
    obtain ⟨head', rest, k, rfl, hhead, hrest⟩ := Value.exists_pair hf
    obtain ⟨name', operands, k', rfl, hname, hoperands⟩ := Value.exists_pair hhead
    obtain rfl := Value.eq_symbol_of_bare hname
    obtain ⟨target', other', k'', rfl, htarget, -⟩ := Value.exists_pair hoperands
    obtain rfl := Value.eq_nil_of_bare hrest
    exact ⟨target', .quotation target' other' k'' k' k, htarget⟩

theorem Shows.sizeOf_lt {tail target : Value} (h : Shows tail target) :
    sizeOf target < sizeOf tail := by
  cases h <;> simp <;> omega

theorem expandShown_of_shows {tail target : Value} (h : Shows tail target) (form : Value)
    (loc : Option Location) :
    t.expandShown use form loc tail = do
      checkUse t form target loc
      let expansion ← t.expandForm use target
      return .quoted expansion := by
  cases h <;> rw [expandShown]

theorem expandShown_of_not_shows {tail : Value} (h : ∀ target, ¬ Shows tail target)
    (form : Value) (loc : Option Location) :
    t.expandShown use form loc tail = fail (.nothingToExpand form) loc := by
  rw [expandShown.eq_def]
  split
  · exact absurd (.quoted _ _) (h _)
  · exact absurd (.quotation _ _ _ _ _) (h _)
  · rfl

mutual

/-- **A form has the same expansion** up to locations. -/
theorem expandForm_repeats (ht : t.Like t') (hu : UsesRepeated use use') (form : Value)
    {form' : Value} (hf : form'.bare = form.bare) :
    Repeats (Upto Value.bare) (t.expandForm use form) (t'.expandForm use' form') := by
  match form with
  | .pair head tail loc =>
    obtain ⟨head', tail', loc', rfl, hhead, htail⟩ := Value.exists_pair hf
    have hpair : isPair tail' = isPair tail := by rw [← isPair_bare, htail, isPair_bare]
    have hstarts : startsWithPair tail' = startsWithPair tail := by
      rw [← startsWithPair_bare, htail, startsWithPair_bare]
    -- `lambda` and a `define` of a function have their bodies expanded in the same way.
    have hbinds : Repeats (Upto Value.bare)
        (t.expandBody use tail >>= fun body => pure (Value.pair head body loc))
        (t'.expandBody use' tail' >>= fun body => pure (Value.pair head' body loc')) :=
      (expandBody_repeats ht hu tail htail).bind fun _ _ hbody =>
        .ok (by simp [Value.bare, hhead, hbody])
    simp only [expandForm, Value.symbol?_of_bare hhead, hpair, hstarts]
    split
    · exact .ok hf
    · exact expandShown_repeats ht hu hf loc loc' tail htail
    · split
      · exact hbinds
      · exact expandUse_repeats ht hu hf hhead htail
    · split
      · exact hbinds
      · exact (expandEach_repeats ht hu loc loc' tail htail).bind fun _ _ heach =>
          expandUse_repeats ht hu hf hhead heach
    · exact (expandForm_repeats ht hu head hhead).bind fun _ _ hfirst =>
        (expandEach_repeats ht hu loc loc' tail htail).bind fun _ _ heach =>
          expandUse_repeats ht hu hf hfirst heach
  | .nil | .bool _ | .number _ | .text _ | .symbol _ | .quoted _ | .template _ _
  | .closure _ _ _ =>
    cases form' with
    | pair => cases hf
    | _ => exact .ok hf
termination_by sizeOf form

theorem expandShown_repeats (ht : t.Like t') (hu : UsesRepeated use use') {form form' : Value}
    (hform : form'.bare = form.bare) (loc loc' : Option Location) (tail : Value) {tail' : Value}
    (hf : tail'.bare = tail.bare) :
    Repeats (Upto Value.bare) (t.expandShown use form loc tail)
      (t'.expandShown use' form' loc' tail') := by
  by_cases hs : ∃ target, Shows tail target
  · obtain ⟨target, hs⟩ := hs
    obtain ⟨target', hs', htarget⟩ := hs.exists_like hf
    have := hs.sizeOf_lt
    rw [expandShown_of_shows hs, expandShown_of_shows hs']
    exact (checkUse_repeats ht hform htarget loc loc').bind fun _ _ _ =>
      (expandForm_repeats ht hu target htarget).bind fun _ _ he =>
        .ok (congrArg Value.quoted he)
  · have hs' : ∀ target, ¬ Shows tail' target := fun target h =>
      hs ((h.exists_like hf.symm).imp fun _ h => h.1)
    rw [expandShown_of_not_shows (not_exists.mp hs), expandShown_of_not_shows hs']
    refine .compile ?_ _ _
    exact congrArg CompileCause.nothingToExpand hform
termination_by sizeOf tail

theorem expandBody_repeats (ht : t.Like t') (hu : UsesRepeated use use') (tail : Value)
    {tail' : Value} (hf : tail'.bare = tail.bare) :
    Repeats (Upto Value.bare) (t.expandBody use tail) (t'.expandBody use' tail') := by
  match tail with
  | .pair binder body loc =>
    obtain ⟨binder', body', loc', rfl, hbinder, hbody⟩ := Value.exists_pair hf
    simp only [expandBody]
    exact (expandEach_repeats ht hu body.loc? body'.loc? body hbody).bind fun _ _ heach =>
      .ok (by simp [Value.bare, hbinder, heach])
  | .nil | .bool _ | .number _ | .text _ | .symbol _ | .quoted _ | .template _ _
  | .closure _ _ _ =>
    cases tail' with
    | pair => cases hf
    | _ => exact .ok hf
termination_by sizeOf tail

theorem expandEach_repeats (ht : t.Like t') (hu : UsesRepeated use use')
    (loc loc' : Option Location) (list : Value) {list' : Value} (hf : list'.bare = list.bare) :
    Repeats (Upto Value.bare) (t.expandEach use loc list) (t'.expandEach use' loc' list') := by
  match list with
  | .pair head tail l =>
    obtain ⟨head', tail', l', rfl, hhead, htail⟩ := Value.exists_pair hf
    simp only [expandEach]
    exact (expandForm_repeats ht hu head hhead).bind fun _ _ hfirst =>
      (expandEach_repeats ht hu loc loc' tail htail).bind fun _ _ hrest =>
        .ok (by simp [Value.bare, hfirst, hrest])
  | .nil | .bool _ | .number _ | .text _ | .symbol _ | .quoted _ | .template _ _
  | .closure _ _ _ =>
    cases list' with
    | pair => cases hf
    | _ => exact .ok hf
termination_by sizeOf list

end

end Forms

/-! ## Full expansions -/

section Full
variable {settings : Settings} {steps steps' fuel fuel' : Nat}

/-- **A form has the same full expansion** up to locations, and more fuel does no harm. -/
theorem expandAll_repeats (ht : t.Like t') (hsteps : steps ≤ steps') (hfuel : fuel ≤ fuel')
    {form form' : Value} (hf : form'.bare = form.bare) :
    Repeats (Upto Value.bare) (t.expandAll settings steps fuel form)
      (t'.expandAll settings steps' fuel' form') := by
  induction fuel generalizing fuel' form form' with
  | zero => exact .outOfFuel _
  | succ fuel ih =>
    obtain ⟨fuel', rfl⟩ : ∃ k, fuel' = k + 1 := ⟨fuel' - 1, by omega⟩
    refine expandForm_repeats ht ?_ form hf
    intro m m' args args' loc loc' hm ha
    exact (Macro.expand_repeats hm ha hsteps settings loc loc').bind fun _ _ he =>
      ih (Nat.le_of_succ_le_succ hfuel) he

theorem mapM_expandAll_repeats (ht : t.Like t') (hfuel : fuel ≤ fuel')
    {forms forms' : List Value} (hf : forms'.map Value.bare = forms.map Value.bare) :
    Repeats (Upto (List.map Value.bare)) (forms.mapM (t.expandAll settings fuel fuel))
      (forms'.mapM (t'.expandAll settings fuel' fuel')) := by
  induction forms generalizing forms' with
  | nil =>
    obtain rfl := List.map_eq_nil_iff.mp hf
    exact .ok rfl
  | cons form forms ih =>
    obtain ⟨form', rest, rfl, hform, hrest⟩ := exists_cons_of_map hf
    rw [List.mapM_cons, List.mapM_cons]
    exact (expandAll_repeats ht hfuel hfuel hform).bind fun _ _ hv => (ih hrest).bind fun _ _ hvs =>
      .ok (by simp [hv, hvs])

/-! ## Programs -/

/-- The operands of a macro's definition, up to locations. -/
theorem exists_signature {tail tail' params first : Value} {name : String} {l : Option Location}
    {rest : List Value} (hf : tail'.bare = tail.bare)
    (hl : tail.list? = some (.pair (.symbol name) params l :: first :: rest)) :
    ∃ params' l' first' rest',
      tail'.list? = some (.pair (.symbol name) params' l' :: first' :: rest') ∧
      params'.bare = params.bare ∧
      (first' :: rest').map Value.bare = (first :: rest).map Value.bare := by
  obtain ⟨items, hl', hitems⟩ := Value.exists_list? hf hl
  obtain ⟨target, body, rfl, htarget, hbody⟩ := exists_cons_of_map hitems
  obtain ⟨first', rest', rfl, -, -⟩ := exists_cons_of_map hbody
  obtain ⟨name', params', l', rfl, hname, hparams⟩ := Value.exists_pair htarget
  obtain rfl := Value.eq_symbol_of_bare hname
  exact ⟨params', l', first', rest', hl', hparams, hbody⟩

theorem macroOf_of_not {form tail : Value} {loc : Option Location}
    (h : ¬ ∃ name params l first rest,
      tail.list? = some (.pair (.symbol name) params l :: first :: rest)) :
    t.macroOf settings fuel form tail loc = fail (.badMacroDefinition form) loc := by
  unfold macroOf
  split
  · exact absurd ⟨_, _, _, _, _, ‹_›⟩ h
  · rfl

theorem macroOf_repeats (ht : t.Like t') (hfuel : fuel ≤ fuel') {form form' tail tail' : Value}
    (hform : form'.bare = form.bare) (hf : tail'.bare = tail.bare) (loc loc' : Option Location) :
    Repeats (Upto Macro.bare) (t.macroOf settings fuel form tail loc)
      (t'.macroOf settings fuel' form' tail' loc') := by
  by_cases hs : ∃ name params l first rest,
      tail.list? = some (.pair (.symbol name) params l :: first :: rest)
  · obtain ⟨name, params, l, first, rest, hl⟩ := hs
    obtain ⟨params', l', first', rest', hl', hparams, hbody⟩ := exists_signature hf hl
    simp only [macroOf, hl, hl']
    refine Repeats.bind (R := Eq) (.matched ?_) fun ps _ hps => ?_
    · exact (Parameters.ofForm_matches hparams).mapError fun _ _ he =>
        congrArg (fun e => Error.compile ⟨.badParameters e, none⟩) he
    subst hps
    refine (mapM_expandAll_repeats ht hfuel hbody).bind fun _ _ hforms => ?_
    refine Repeats.bind (R := Upto bareCode) (.matched ?_) fun _ _ hcode =>
      .ok (by simp [Macro.bare, hcode])
    exact (Code.ofProgram_like ps.names hforms).mapError fun _ _ he => congrArg Error.compile he
  · have hs' : ¬ ∃ name params l first rest,
        tail'.list? = some (.pair (.symbol name) params l :: first :: rest) := by
      rintro ⟨name, params, l, first, rest, hl⟩
      obtain ⟨params', l', first', rest', hl', -, -⟩ := exists_signature hf.symm hl
      exact hs ⟨name, params', l', first', rest', hl'⟩
    rw [macroOf_of_not hs, macroOf_of_not hs']
    refine .compile ?_ _ _
    exact congrArg CompileCause.badMacroDefinition hform

theorem eq_of_isDefinition {form : Value} (h : isDefinition form = true) :
    ∃ tail loc, form = .pair (.symbol "defmacro") tail loc := by
  unfold isDefinition at h
  split at h
  · rename_i name tail loc
    obtain rfl := of_decide_eq_true h
    exact ⟨tail, loc, rfl⟩
  · cases h

@[simp] theorem isDefinition_bare (form : Value) : isDefinition form.bare = isDefinition form := by
  cases form with
  | pair head tail loc => cases head <;> rfl
  | _ => rfl

/-- **Programs that are the same up to locations have the same expansion** and define the same
macros, up to locations. -/
theorem expandProgram_repeats (ht : t.Like t') (hfuel : fuel ≤ fuel') {forms forms' : List Value}
    (hf : forms'.map Value.bare = forms.map Value.bare) :
    Repeats (fun p p' => p'.1.map Value.bare = p.1.map Value.bare ∧ p.2.Like p'.2)
      (expandProgram settings fuel t forms) (expandProgram settings fuel' t' forms') := by
  induction forms generalizing t t' forms' with
  | nil =>
    obtain rfl := List.map_eq_nil_iff.mp hf
    exact .ok ⟨rfl, ht⟩
  | cons form forms ih =>
    obtain ⟨form', rest, rfl, hform, hrest⟩ := exists_cons_of_map hf
    have hd' : isDefinition form' = isDefinition form := by
      rw [← isDefinition_bare, hform, isDefinition_bare]
    cases hd : isDefinition form with
    | true =>
      obtain ⟨tail, loc, rfl⟩ := eq_of_isDefinition hd
      obtain ⟨tail', loc', rfl⟩ := eq_of_isDefinition (hd'.trans hd)
      have htail : tail'.bare = tail.bare := by simpa [Value.bare] using hform
      rw [expandProgram, expandProgram]
      exact (macroOf_repeats ht hfuel hform htail loc loc').bind fun _ _ hm =>
        ih (ht.insert hm) hrest
    | false =>
      rw [expandProgram_form _ _ _ hd, expandProgram_form _ _ _ (hd'.trans hd)]
      refine (expandAll_repeats ht hfuel hfuel hform).bind fun _ _ hv => (ih ht hrest).bind ?_
      rintro ⟨vs, u⟩ ⟨vs', u'⟩ ⟨hvs, hu⟩
      exact .ok ⟨by simp [hv, hvs], hu⟩

theorem exists_expandProgram (ht : t.Like t') (hfuel : fuel ≤ fuel') {forms forms' vs : List Value}
    {u : MacroTable} (hf : forms'.map Value.bare = forms.map Value.bare)
    (h : expandProgram settings fuel t forms = .ok (vs, u)) :
    ∃ vs' u', expandProgram settings fuel' t' forms' = .ok (vs', u') ∧
      vs'.map Value.bare = vs.map Value.bare ∧ u.Like u' := by
  obtain ⟨⟨vs', u'⟩, h', hvs, hu⟩ := (expandProgram_repeats ht hfuel hf).exists_ok h
  exact ⟨vs', u', h', hvs, hu⟩

/-- **Programs with the same fuel**: if there is too little of it for the one, there is for the
other. -/
theorem expandProgram_matches (ht : t.Like t') {forms forms' : List Value}
    (hf : forms'.map Value.bare = forms.map Value.bare) :
    Matches (Upto Error.bare) (fun p p' => p'.1.map Value.bare = p.1.map Value.bare ∧ p.2.Like p'.2)
      (expandProgram settings fuel t forms) (expandProgram settings fuel t' forms') :=
  (expandProgram_repeats ht (Nat.le_refl fuel) hf).matches_of_symm
    (expandProgram_repeats ht.symm (Nat.le_refl fuel) hf.symm)

/-- **The expansion of two programs, one after the other.** -/
theorem expandProgram_append {forms rest vs ws : List Value} {u w : MacroTable}
    (h : expandProgram settings fuel t forms = .ok (vs, u))
    (h' : expandProgram settings fuel u rest = .ok (ws, w)) :
    expandProgram settings fuel t (forms ++ rest) = .ok (vs ++ ws, w) := by
  induction forms generalizing t vs with
  | nil =>
    cases h
    exact h'
  | cons form forms ih =>
    cases hd : isDefinition form with
    | true =>
      obtain ⟨tail, loc, rfl⟩ := eq_of_isDefinition hd
      simp only [List.cons_append, expandProgram, bind_eq_ok] at h ⊢
      obtain ⟨m, hm, h⟩ := h
      exact ⟨m, hm, ih h⟩
    | false =>
      rw [expandProgram_form _ _ _ hd] at h
      simp only [bind_eq_ok, pure_eq_ok, Except.ok.injEq, Prod.mk.injEq] at h
      obtain ⟨v, hv, ⟨vs', u'⟩, hvs, rfl, rfl⟩ := h
      rw [List.cons_append, expandProgram_form _ _ _ hd]
      simp [hv, ih hvs, Bind.bind, Except.bind]

end Full

end MacroTable

end StackLisp
