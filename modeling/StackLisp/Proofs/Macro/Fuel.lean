import StackLisp.Proofs.Machine.Twin
import StackLisp.Proofs.Session.Collection

/-!
# Expansions that have succeeded

An expansion that has succeeded with some fuel and some threshold has the same result **with more
fuel and any other threshold** (`MacroTable.expandAll_follows`), as long as there is no step limit
and no closure is among the constants of the macros: what a macro leaves is the same then, and is
sealed again.

The macros of a program are known only when it has been expanded.  `MacroTable.expandPlain` is the
expansion of a program that also tests, macro by macro, that their code has no closures among its
constants.  What succeeds so does with more fuel and any other threshold
(`MacroTable.expandProgram_of_expandPlain`).
-/

namespace StackLisp

/-- **Settings without a step limit**, and with a valid threshold. -/
structure Settings.Unlimited (settings : Settings) : Prop where
  stepLimit : settings.stepLimit = .ok none
  gcThreshold : ∃ k, settings.gcThreshold = .ok k

theorem Settings.unlimited_unset : Settings.unset.Unlimited :=
  ⟨rfl, _, rfl⟩

/-- **The second result follows the first**: if the first has a value, it has the same, with the
property `P`. -/
def Follows {α : Type} (P : α → Prop) (r s : Except Error α) : Prop :=
  ∀ v, r = .ok v → s = .ok v ∧ P v

namespace Follows
variable {α β : Type} {P : α → Prop} {Q : β → Prop} {r s : Except Error α}

theorem ok {v : α} (h : P v) : Follows P (.ok v) (.ok v) := by
  rintro _ ⟨⟩
  exact ⟨rfl, h⟩

theorem error (e : Error) (s : Except Error α) : Follows P (.error e) s :=
  nofun

theorem bind {f g : α → Except Error β} (h : Follows P r s)
    (hf : ∀ v, P v → Follows Q (f v) (g v)) : Follows Q (r >>= f) (s >>= g) := by
  intro w hw
  obtain ⟨v, hv, hw⟩ := bind_eq_ok.mp hw
  obtain ⟨hs, hp⟩ := h v hv
  obtain ⟨hg, hq⟩ := hf v hp w hw
  exact ⟨bind_eq_ok.mpr ⟨v, hs, hg⟩, hq⟩

end Follows

variable {settings settings' : Settings} {fuel fuel' steps steps' : Nat}

/-- **A macro leaves the same** with more fuel and any threshold, and something sealed. -/
theorem Macro.expand_follows (hs : settings.Unlimited) (hs' : settings'.Unlimited)
    (hle : steps ≤ steps') {m : Macro} (hc : Code.Plain m.code) {args : List Value}
    (loc : Option Location) (ha : ∀ a ∈ args, a.Sealed) :
    Follows Value.Sealed (m.expand steps settings args loc)
      (m.expand steps' settings' args loc) := by
  obtain ⟨hl, k, hk⟩ := hs
  obtain ⟨hl', k', hk'⟩ := hs'
  unfold Macro.expand
  simp only [hk, hk', hl, hl']
  cases hb : m.params.bind args with
  | error fault => exact .error _ _
  | ok bindings =>
    simp only [mapError_ok, Bind.bind, Except.bind]
    rcases hr : (Machine.ofProgram m.code (.ofGlobals bindings) 0).run steps none with
      ⟨after, out⟩
    obtain ⟨_, _, _, h₁, href⟩ := (Macro.reference hc ha hb k).run hr
    rw [h₁]
    cases out with
    | running => exact .error _ _
    | fault f =>
      simp only
      split <;> exact .error _ _
    | value v =>
      have hmore := (Machine.run_of_le hle (by rw [hr]; nofun)).trans hr
      obtain ⟨_, _, _, h₂, -⟩ := (Macro.reference hc ha hb k').run hmore
      rw [h₂]
      simp only [Machine.withArena]
      split
      · rename_i form hform
        exact .ok (href.whole.sealed.stack form (by simp [hform]))
      · exact .error _ _

namespace MacroTable
variable {t : MacroTable} {use use' : Use} {P : Value → Prop}

/-! ## Forms -/

/-- Uses of macros of a table that follow other ones, where the arguments have the property. -/
def UsesFollow (t : MacroTable) (P : Value → Prop) (use use' : Use) : Prop :=
  ∀ m ∈ t.macros, ∀ args loc, (∀ a ∈ args, P a) → Follows P (use m args loc) (use' m args loc)

theorem expandUse_follows (hP : Value.Composed P) (hu : t.UsesFollow P use use')
    {form head tail : Value} {loc : Option Location} (hh : P head) (ht : P tail) :
    Follows P (expandUse t use form head tail loc) (expandUse t use' form head tail loc) := by
  unfold expandUse
  split
  · exact .ok (hP.pair.mpr ⟨hh, ht⟩)
  · rename_i m hm
    split
    · rename_i args ha
      exact hu m (mem_of_named? hm) args loc (hP.list ht ha)
    · exact .error _ _

mutual

/-- **The expansion of a form follows** if the uses do. -/
theorem expandForm_follows (hP : Value.Composed P) (hu : t.UsesFollow P use use') (form : Value)
    (hf : P form) : Follows P (t.expandForm use form) (t.expandForm use' form) := by
  match form with
  | .pair head tail loc =>
    obtain ⟨hhead, htail⟩ := hP.pair.mp hf
    have hbody := (expandBody_follows hP hu tail htail).bind fun tail' ht =>
      .ok (hP.pair.mpr ⟨hhead, ht⟩ : P (.pair head tail' loc))
    simp only [expandForm]
    split
    · exact .ok hf
    · exact expandShown_follows hP hu (.pair head tail loc) loc tail htail
    · split
      · exact hbody
      · exact expandUse_follows hP hu hhead htail
    · split
      · exact hbody
      · exact (expandEach_follows hP hu loc tail htail).bind fun tail' ht =>
          expandUse_follows hP hu hhead ht
    · exact (expandForm_follows hP hu head hhead).bind fun head' hh =>
        (expandEach_follows hP hu loc tail htail).bind fun tail' ht =>
          expandUse_follows hP hu hh ht
  | .nil | .bool _ | .number _ | .text _ | .symbol _ | .quoted _ | .template _ _
  | .closure _ _ _ => exact .ok hf
termination_by sizeOf form

theorem expandShown_follows (hP : Value.Composed P) (hu : t.UsesFollow P use use') (form : Value)
    (loc : Option Location) (tail : Value) (hf : P tail) :
    Follows P (t.expandShown use form loc tail) (t.expandShown use' form loc tail) := by
  have shown : ∀ target, Follows P (t.expandForm use target) (t.expandForm use' target) →
      Follows P (do checkUse t form target loc; return .quoted (← t.expandForm use target))
        (do checkUse t form target loc; return .quoted (← t.expandForm use' target)) := by
    intro target hfollows
    cases checkUse t form target loc with
    | ok _ => exact hfollows.bind fun v hv => .ok (hP.quoted.mpr hv)
    | error e => exact .error _ _
  rw [expandShown.eq_def, expandShown.eq_def]
  split
  · rename_i target loc'
    have ht : P target := hP.quoted.mp (hP.pair.mp hf).1
    exact shown target (expandForm_follows hP hu target ht)
  · rename_i target rest l l' l''
    have ht : P target := (hP.pair.mp (hP.pair.mp (hP.pair.mp hf).1).2).1
    exact shown target (expandForm_follows hP hu target ht)
  · exact .error _ _
termination_by sizeOf tail

theorem expandBody_follows (hP : Value.Composed P) (hu : t.UsesFollow P use use') (tail : Value)
    (hf : P tail) : Follows P (t.expandBody use tail) (t.expandBody use' tail) := by
  match tail with
  | .pair binder body loc =>
    obtain ⟨hbinder, hbody⟩ := hP.pair.mp hf
    simp only [expandBody]
    exact (expandEach_follows hP hu body.loc? body hbody).bind fun body' hb =>
      .ok (hP.pair.mpr ⟨hbinder, hb⟩)
  | .nil | .bool _ | .number _ | .text _ | .symbol _ | .quoted _ | .template _ _
  | .closure _ _ _ => exact .ok hf
termination_by sizeOf tail

theorem expandEach_follows (hP : Value.Composed P) (hu : t.UsesFollow P use use')
    (loc : Option Location) (list : Value) (hf : P list) :
    Follows P (t.expandEach use loc list) (t.expandEach use' loc list) := by
  match list with
  | .pair head tail loc' =>
    obtain ⟨hhead, htail⟩ := hP.pair.mp hf
    simp only [expandEach]
    exact (expandForm_follows hP hu head hhead).bind fun head' hh =>
      (expandEach_follows hP hu loc tail htail).bind fun tail' ht =>
        .ok (hP.pair.mpr ⟨hh, ht⟩)
  | .nil | .bool _ | .number _ | .text _ | .symbol _ | .quoted _ | .template _ _
  | .closure _ _ _ => exact .ok hf
termination_by sizeOf list

end

/-! ## Full expansions -/

section Full
variable (hs : settings.Unlimited) (hs' : settings'.Unlimited)
  (hplain : ∀ m ∈ t.macros, Code.Plain m.code)
include hs hs' hplain

/-- **A full expansion that has succeeded** does with more fuel and any threshold. -/
theorem expandAll_follows (hsteps : steps ≤ steps') (hfuel : fuel ≤ fuel') {form : Value}
    (hf : form.Sealed) :
    Follows Value.Sealed (t.expandAll settings steps fuel form)
      (t.expandAll settings' steps' fuel' form) := by
  induction fuel generalizing fuel' form with
  | zero => exact .error _ _
  | succ fuel ih =>
    obtain ⟨fuel', rfl⟩ : ∃ n, fuel' = n + 1 := ⟨fuel' - 1, by omega⟩
    refine expandForm_follows Value.Sealed.composed (fun m hm args loc ha => ?_) form hf
    exact (Macro.expand_follows hs hs' hsteps (hplain m hm) loc ha).bind fun v hv =>
      ih (by omega) hv

theorem mapM_expandAll_follows (hle : fuel ≤ fuel') {forms : List Value}
    (hf : ∀ f ∈ forms, f.Sealed) :
    Follows (fun vs => ∀ v ∈ vs, v.Sealed) (forms.mapM (t.expandAll settings fuel fuel))
      (forms.mapM (t.expandAll settings' fuel' fuel')) := by
  induction forms with
  | nil => exact .ok fun _ h => absurd h List.not_mem_nil
  | cons form forms ih =>
    obtain ⟨hform, hforms⟩ := List.forall_mem_cons.mp hf
    simp only [List.mapM_cons]
    exact (expandAll_follows hs hs' hplain hle hle hform).bind fun v hv =>
      (ih hforms).bind fun vs hvs => .ok (List.forall_mem_cons.mpr ⟨hv, hvs⟩)

theorem macroOf_follows (hle : fuel ≤ fuel') (form : Value) {tail : Value}
    {loc : Option Location} (hf : tail.Sealed) :
    Follows (fun _ => True) (t.macroOf settings fuel form tail loc)
      (t.macroOf settings' fuel' form tail loc) := by
  unfold macroOf
  split
  · rename_i name params loc' first rest ht
    cases Parameters.ofForm params with
    | error e => exact .error _ _
    | ok parameters =>
      have hbody : ∀ f ∈ first :: rest, f.Sealed := fun f hm =>
        Value.Sealed.composed.list hf ht f (List.mem_cons_of_mem _ hm)
      refine (mapM_expandAll_follows hs hs' hplain hle hbody).bind fun body _ => ?_
      intro m hm
      exact ⟨hm, trivial⟩
  · exact .error _ _

end Full

/-! ## Programs -/

/-- **The expansion of a program whose macros have plain code**; there is none if it fails or if
there is a macro with other code. -/
def expandPlain (settings : Settings) (fuel : Nat) :
    MacroTable → List Value → Option (List Value × MacroTable)
  | t, [] => some ([], t)
  | t, .pair (.symbol "defmacro") tail loc :: forms => do
    let m ← (t.macroOf settings fuel (.pair (.symbol "defmacro") tail loc) tail loc).toOption
    if Code.isPlain m.code then expandPlain settings fuel (t.insert m) forms else none
  | t, form :: forms => do
    let expansion ← (t.expandAll settings fuel fuel form).toOption
    let (expansions, after) ← expandPlain settings fuel t forms
    return (expansion :: expansions, after)

/-- **The expansion of a program that has succeeded** with plain macros does with more fuel and any
threshold. -/
theorem expandProgram_of_expandPlain (hs : settings.Unlimited) (hs' : settings'.Unlimited)
    (hle : fuel ≤ fuel') {forms : List Value} (hf : ∀ f ∈ forms, f.Sealed)
    (hplain : ∀ m ∈ t.macros, Code.Plain m.code) {r : List Value × MacroTable}
    (h : expandPlain settings fuel t forms = some r) :
    expandProgram settings' fuel' t forms = .ok r ∧ ∀ m ∈ r.2.macros, Code.Plain m.code := by
  induction forms generalizing t r with
  | nil =>
    obtain rfl := Option.some.inj h
    exact ⟨rfl, hplain⟩
  | cons form forms ih =>
    obtain ⟨hform, hforms⟩ := List.forall_mem_cons.mp hf
    rw [expandPlain.eq_def] at h
    split at h
    · contradiction
    · rename_i tail loc forms' heq
      obtain ⟨rfl, rfl⟩ := List.cons.inj heq
      obtain ⟨m, hm, h⟩ := Option.bind_eq_some_iff.mp h
      obtain ⟨hcode, h⟩ := Option.ite_none_right_eq_some.mp h
      obtain ⟨hm', -⟩ := macroOf_follows hs hs' hplain hle (.pair (.symbol "defmacro") tail loc)
        (Value.Sealed.composed.pair.mp hform).2 m (toOption_eq_some.mp hm)
      rw [expandProgram, hm']
      refine ih hforms (fun k hk => ?_) h
      rcases List.mem_cons.mp hk with rfl | hk
      · exact Code.plain_of_isPlain hcode
      · exact hplain k (List.mem_filter.mp hk).1
    · rename_i form' forms' hne heq
      obtain ⟨rfl, rfl⟩ := List.cons.inj heq
      obtain ⟨expansion, he, h⟩ := Option.bind_eq_some_iff.mp h
      obtain ⟨⟨expansions, after⟩, hrest, h⟩ := Option.bind_eq_some_iff.mp h
      obtain rfl := Option.some.inj h
      obtain ⟨he', -⟩ := expandAll_follows hs hs' hplain hle hle hform expansion
        (toOption_eq_some.mp he)
      obtain ⟨hrest', hmacros⟩ := ih hforms hplain hrest
      have hd : isDefinition form = false := isDefinition_eq_false fun tail loc h => hne tail loc h
      refine ⟨?_, hmacros⟩
      simp only [expandProgram_form settings' fuel' _ hd, he', hrest', Bind.bind, Except.bind]
      rfl

end MacroTable

end StackLisp
