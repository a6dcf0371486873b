import StackLisp.Proofs.Macro.Expansion
import StackLisp.Proofs.Value.Bare

/-!
# Normal forms

A form is **normal** for a table (`MacroTable.Normal`) if no use of a macro is left in it where
uses are expanded.

**A full expansion is normal** (`expandAll_normal`).  The recursion of the expander is not one on
forms: what a macro leaves is expanded again, and may be anything.  So there are two inductions.
The one on the form shows that an expansion is normal if those of the uses in it are
(`expandForm_normal`), and the one on the fuel that those are.  Macros are only given what has been
expanded before (`MacroTable.Given`), so their arguments are normal too.

A normal form has nothing left to expand.  Its expansion is the form itself, up to locations,
unless it asks for an expansion to be shown (`expandForm_of_normal`).  The expander makes each list
anew and gives one location to all its pairs.  That is how the reader locates them
(`Value.AsRead`), so a form that has its locations from the reader keeps them
(`exists_rebuilt`).
-/

namespace StackLisp

namespace Value

/-- **The elements of a list that are evaluated**, as far as the shape of the list tells: none of a
quotation, the body of a function, and otherwise all. -/
def evaluatedElements : Value → List Value
  | pair head tail _ =>
    match head.symbol?, tail with
    | some "quote", _ => []
    | some "lambda", pair _ body _ => body.elements
    | some "define", pair (pair _ _ _) body _ => body.elements
    | _, _ => head :: tail.elements
  | _ => []

theorem mem_elements_of_mem_evaluatedElements {v element : Value}
    (h : element ∈ v.evaluatedElements) : element ∈ v.elements := by
  unfold evaluatedElements at h
  split at h
  · split at h
    · cases h
    · exact List.mem_cons_of_mem _ (List.mem_cons_of_mem _ h)
    · exact List.mem_cons_of_mem _ (List.mem_cons_of_mem _ h)
    · exact h
  · cases h

/-- **The parts of a form that are evaluated**: the form itself, and those of its elements that
are evaluated with their own parts. -/
inductive Evaluates : Value → Value → Prop
  | self (form : Value) : Evaluates form form
  | part {form element part : Value} (he : element ∈ form.evaluatedElements)
      (h : Evaluates element part) : Evaluates form part

theorem evaluates_iff {form part : Value} :
    form.Evaluates part ↔
      part = form ∨ ∃ element ∈ form.evaluatedElements, element.Evaluates part := by
  constructor
  · rintro (_ | ⟨he, h⟩)
    · exact .inl rfl
    · exact .inr ⟨_, he, h⟩
  · rintro (rfl | ⟨element, he, h⟩)
    · exact .self part
    · exact .part he h

/-- **The locations are as the reader gives them**: in each list that may be expanded, all pairs
have the same one. -/
inductive AsRead : Value → Prop
  | atom {v : Value} (h : MacroTable.isPair v = false) : AsRead v
  | pair {head tail : Value} {loc : Option Location} (hh : AsRead head) (ht : AsRead tail)
      (hl : MacroTable.isPair tail = true → tail.loc? = loc) : AsRead (.pair head tail loc)

/-- **What a value is when its lists have been made anew**: the same up to locations, and the same
altogether if its locations are as the reader gives them. -/
structure Rebuilt (v v' : Value) : Prop where
  bare : v'.bare = v.bare
  eq : v.AsRead → v' = v

theorem Rebuilt.refl (v : Value) : v.Rebuilt v :=
  ⟨rfl, fun _ => rfl⟩

theorem AsRead.parts {head tail : Value} {loc : Option Location}
    (h : (Value.pair head tail loc).AsRead) :
    head.AsRead ∧ tail.AsRead ∧ (MacroTable.isPair tail = true → tail.loc? = loc) := by
  cases h with
  | atom h => cases h
  | pair hh ht hl => exact ⟨hh, ht, hl⟩

/-- A list whose first item and whose further items have been made anew. -/
theorem Rebuilt.pair {head head' tail tail' : Value} {loc : Option Location}
    (hh : head.Rebuilt head') (hb : tail'.bare = tail.bare)
    (he : tail.AsRead → (MacroTable.isPair tail = true → tail.loc? = loc) → tail' = tail) :
    (Value.pair head tail loc).Rebuilt (.pair head' tail' loc) := by
  refine ⟨by simp only [Value.bare, hh.bare, hb], fun h => ?_⟩
  obtain ⟨hhead, htail, hloc⟩ := h.parts
  rw [hh.eq hhead, he htail hloc]

end Value

namespace MacroTable

/-- **A normal form**: whatever is no list, a quotation, a function or the definition of a function
with a normal body, and any list of normal elements that does not start with the name of a
macro. -/
inductive Normal (t : MacroTable) : Value → Prop
  | atom {v : Value} (h : isPair v = false) : Normal t v
  | quotation (rest : Value) (loc : Option Location) : Normal t (.pair (.symbol "quote") rest loc)
  | function {params body : Value} {loc loc' : Option Location}
      (h : ∀ v ∈ body.elements, Normal t v) :
      Normal t (.pair (.symbol "lambda") (.pair params body loc) loc')
  | definition {name params body : Value} {loc loc' loc'' : Option Location}
      (h : ∀ v ∈ body.elements, Normal t v) :
      Normal t (.pair (.symbol "define") (.pair (.pair name params loc) body loc') loc'')
  | list {head tail : Value} {loc : Option Location} (hm : t.named? head = none)
      (h : ∀ v ∈ (Value.pair head tail loc).elements, Normal t v) : Normal t (.pair head tail loc)

section
variable {t : MacroTable} {use : Use}

/-! ## The expansion of one form -/

theorem expandUse_eq_ok {form head tail v : Value} {loc : Option Location} :
    expandUse t use form head tail loc = .ok v ↔
      (t.named? head = none ∧ v = .pair head tail loc) ∨
        ∃ m args, t.named? head = some m ∧ tail.list? = some args ∧ use m args loc = .ok v := by
  unfold expandUse
  split
  · rename_i hm
    simp [hm, eq_comm]
  · rename_i m hm
    split
    · rename_i args ha
      simp [hm, ha]
    · rename_i ha
      simp [hm, ha, fail]

theorem expandBody_eq_ok {binder body v : Value} {loc : Option Location} :
    t.expandBody use (.pair binder body loc) = .ok v ↔
      ∃ body', t.expandEach use body.loc? body = .ok body' ∧ v = .pair binder body' loc := by
  simp only [expandBody, bind_eq_ok, pure_eq_ok, Except.ok.injEq, @eq_comm _ v]

theorem exists_of_startsWithPair {v : Value} (h : startsWithPair v = true) :
    ∃ name params loc body loc', v = .pair (.pair name params loc) body loc' := by
  unfold startsWithPair at h
  split at h
  · exact ⟨_, _, _, _, _, rfl⟩
  · cases h

theorem exists_of_isPair {v : Value} (h : isPair v = true) :
    ∃ head tail loc, v = .pair head tail loc := by
  unfold isPair at h
  split at h
  · exact ⟨_, _, _, rfl⟩
  · cases h

/-- What is no list has no elements. -/
theorem elements_of_not_isPair {v : Value} (h : isPair v = false) : v.elements = [] := by
  cases v with
  | pair => cases h
  | _ => rfl

/-- What is no list is its own expansion. -/
theorem expandForm_atom {v : Value} (h : isPair v = false) : t.expandForm use v = .ok v := by
  cases v with
  | pair => cases h
  | _ => rfl

/-! ## Expansions are normal -/

/-- A list of normal elements is normal after the use that it may be has been expanded. -/
theorem normal_of_expandUse (hu : ∀ m args loc v, use m args loc = .ok v → t.Normal v)
    {form head tail v : Value} {loc : Option Location} (hh : t.Normal head)
    (ht : ∀ v ∈ tail.elements, t.Normal v) (h : expandUse t use form head tail loc = .ok v) :
    t.Normal v := by
  rcases expandUse_eq_ok.mp h with ⟨hm, rfl⟩ | ⟨m, args, -, -, h⟩
  · exact .list hm (List.forall_mem_cons.mpr ⟨hh, ht⟩)
  · exact hu m args loc v h

mutual

/-- **An expansion is normal if those of the uses are.** -/
theorem expandForm_normal (hu : ∀ m args loc v, use m args loc = .ok v → t.Normal v)
    (form : Value) {v : Value} (h : t.expandForm use form = .ok v) : t.Normal v := by
  match form with
  | .pair head tail loc =>
    simp only [expandForm] at h
    split at h
    · rename_i hh
      cases h
      obtain rfl := Code.eq_symbol_of_symbol? hh
      exact .quotation tail loc
    · -- an expansion that is shown is quoted
      rw [expandShown.eq_def] at h
      split at h
      · obtain ⟨_, _, _, _, h⟩ := by simpa only [bind_eq_ok] using h
        cases h
        exact .atom rfl
      · obtain ⟨_, _, _, _, h⟩ := by simpa only [bind_eq_ok] using h
        cases h
        exact .atom rfl
      · cases h
    · rename_i hh
      obtain rfl := Code.eq_symbol_of_symbol? hh
      cases hp : isPair tail with
      | true =>
        obtain ⟨params, body, loc', rfl⟩ := exists_of_isPair hp
        simp only [hp, if_true, bind_eq_ok, expandBody_eq_ok] at h
        obtain ⟨_, ⟨body', hb, rfl⟩, h⟩ := h
        cases h
        exact .function (expandEach_normal hu _ body hb)
      | false =>
        simp only [hp, Bool.false_eq_true, if_false] at h
        exact normal_of_expandUse hu (.atom rfl) (by simp [elements_of_not_isPair hp]) h
    · rename_i hh
      obtain rfl := Code.eq_symbol_of_symbol? hh
      cases hs : startsWithPair tail with
      | true =>
        obtain ⟨name, params, loc', body, loc'', rfl⟩ := exists_of_startsWithPair hs
        simp only [hs, if_true, bind_eq_ok, expandBody_eq_ok] at h
        obtain ⟨_, ⟨body', hb, rfl⟩, h⟩ := h
        cases h
        exact .definition (expandEach_normal hu _ body hb)
      | false =>
        simp only [hs, Bool.false_eq_true, if_false, bind_eq_ok] at h
        obtain ⟨tail', ht, h⟩ := h
        exact normal_of_expandUse hu (.atom rfl) (expandEach_normal hu loc tail ht) h
    · simp only [bind_eq_ok] at h
      obtain ⟨head', hh, tail', ht, h⟩ := h
      exact normal_of_expandUse hu (expandForm_normal hu head hh)
        (expandEach_normal hu loc tail ht) h
  | .nil | .bool _ | .number _ | .text _ | .symbol _ | .quoted _ | .template _ _
  | .closure _ _ _ =>
    cases h
    exact .atom rfl
termination_by sizeOf form

/-- The elements of a list that has been expanded are normal. -/
theorem expandEach_normal (hu : ∀ m args loc v, use m args loc = .ok v → t.Normal v)
    (loc : Option Location) (list : Value) {list' : Value}
    (h : t.expandEach use loc list = .ok list') : ∀ v ∈ list'.elements, t.Normal v := by
  match list with
  | .pair head tail loc' =>
    simp only [expandEach, bind_eq_ok, pure_eq_ok] at h
    obtain ⟨head', hhead, tail', htail, h⟩ := h
    cases h
    exact List.forall_mem_cons.mpr
      ⟨expandForm_normal hu head hhead, expandEach_normal hu loc tail htail⟩
  | .nil | .bool _ | .number _ | .text _ | .symbol _ | .quoted _ | .template _ _
  | .closure _ _ _ =>
    cases h
    exact fun _ hm => absurd hm List.not_mem_nil
termination_by sizeOf list

end

mutual

/-- **The arguments of a use are expanded before the use is.** -/
theorem Uses.normal (hu : ∀ m args loc v, use m args loc = .ok v → t.Normal v) {m : Macro}
    {args : List Value} {loc : Option Location} {form : Value} :
    t.Uses use m args loc form → ∀ a ∈ args, t.Normal a
  | .shown _ _ h | .head _ h => Uses.normal hu h
  | .lambdaBody _ h | .defineBody _ _ h | .defineEach _ _ h | .each _ _ h => UsesEach.normal hu h
  | .lambdaUse _ ht _ ha => by
    rw [← Code.elements_of_list? ha, elements_of_not_isPair ht]
    exact fun _ hm => absurd hm List.not_mem_nil
  | .defineUse _ _ ht _ ha | .use _ _ ht _ ha => by
    rw [← Code.elements_of_list? ha]
    exact expandEach_normal hu _ _ ht

theorem UsesEach.normal (hu : ∀ m args loc v, use m args loc = .ok v → t.Normal v) {m : Macro}
    {args : List Value} {loc : Option Location} {list : Value} :
    t.UsesEach use m args loc list → ∀ a ∈ args, t.Normal a
  | .head h => Uses.normal hu h
  | .tail _ h => UsesEach.normal hu h

end

/-! ## Normal forms have nothing to expand -/

/-- Nowhere in the form is an expansion asked for that is to be shown. -/
def ShowsNothing (form : Value) : Prop :=
  ∀ tail loc, ¬ form.Evaluates (.pair (.symbol "macroexpand") tail loc)

theorem ShowsNothing.element {form element : Value} (h : ShowsNothing form)
    (he : element ∈ form.evaluatedElements) : ShowsNothing element :=
  fun tail loc hp => h tail loc (.part he hp)

/-- A list whose elements are rebuilt is rebuilt, with one location. -/
theorem exists_expandEach (loc : Option Location) (list : Value)
    (h : ∀ v ∈ list.elements, ∃ v', t.expandForm use v = .ok v' ∧ v.Rebuilt v') :
    ∃ list', t.expandEach use loc list = .ok list' ∧ list'.bare = list.bare ∧
      (list.AsRead → (isPair list = true → list.loc? = loc) → list' = list) := by
  match list with
  | .pair head tail loc' =>
    obtain ⟨⟨head', hhead, hb⟩, htail⟩ := List.forall_mem_cons.mp h
    obtain ⟨tail', ht, hb', he⟩ := exists_expandEach loc tail htail
    refine ⟨.pair head' tail' loc, ?_, by simp only [Value.bare, hb.bare, hb'], fun hr hl => ?_⟩
    · simp only [expandEach, bind_eq_ok, pure_eq_ok]
      exact ⟨head', hhead, tail', ht, rfl⟩
    · obtain rfl : loc' = loc := hl rfl
      obtain ⟨hhr, htr, hlr⟩ := hr.parts
      rw [hb.eq hhr, he htr hlr]
  | .nil | .bool _ | .number _ | .text _ | .symbol _ | .quoted _ | .template _ _
  | .closure _ _ _ => exact ⟨_, rfl, rfl, fun _ _ => rfl⟩

theorem named?_of_bare {v w : Value} (h : v.bare = w.bare) : t.named? v = t.named? w := by
  rw [named?, named?, ← Value.symbol?_bare, h, Value.symbol?_bare]

/-- A list that does not start with the name of a macro is no use. -/
theorem expandUse_of_not_named {form head tail : Value} {loc : Option Location}
    (h : t.named? head = none) : expandUse t use form head tail loc = .ok (.pair head tail loc) :=
  expandUse_eq_ok.mpr (.inl ⟨h, rfl⟩)

/-- The operands of a form that binds names, with a body that is rebuilt. -/
theorem exists_expandBody {head binder body : Value} {loc loc' : Option Location}
    (h : ∀ v ∈ body.elements, ∃ v', t.expandForm use v = .ok v' ∧ v.Rebuilt v') :
    ∃ tail', t.expandBody use (.pair binder body loc) = .ok tail' ∧
      (Value.pair head (.pair binder body loc) loc').Rebuilt (.pair head tail' loc') := by
  obtain ⟨body', hb, hbare, he⟩ := exists_expandEach body.loc? body h
  refine ⟨.pair binder body' loc, expandBody_eq_ok.mpr ⟨body', hb, rfl⟩,
    by simp only [Value.bare, hbare], fun hr => ?_⟩
  rw [he hr.parts.2.1.parts.2.1 fun _ => rfl]

/-- A function is rebuilt if the elements of its body are. -/
theorem exists_expandForm_function {params body : Value} {loc loc' : Option Location}
    (h : ∀ v ∈ body.elements, ∃ v', t.expandForm use v = .ok v' ∧ v.Rebuilt v') :
    ∃ v, t.expandForm use (.pair (.symbol "lambda") (.pair params body loc) loc') = .ok v ∧
      (Value.pair (.symbol "lambda") (.pair params body loc) loc').Rebuilt v := by
  obtain ⟨tail', hb, hr⟩ := exists_expandBody h
  refine ⟨.pair (.symbol "lambda") tail' loc', ?_, hr⟩
  simp only [expandForm, Value.symbol?, isPair, if_true, bind_eq_ok]
  exact ⟨tail', hb, rfl⟩

/-- The definition of a function is rebuilt if the elements of the body are. -/
theorem exists_expandForm_definition {name params body : Value} {loc loc' loc'' : Option Location}
    (h : ∀ v ∈ body.elements, ∃ v', t.expandForm use v = .ok v' ∧ v.Rebuilt v') :
    ∃ v, t.expandForm use
        (.pair (.symbol "define") (.pair (.pair name params loc) body loc') loc'') = .ok v ∧
      (Value.pair (.symbol "define")
        (.pair (.pair name params loc) body loc') loc'').Rebuilt v := by
  obtain ⟨tail', hb, hr⟩ := exists_expandBody h
  refine ⟨.pair (.symbol "define") tail' loc'', ?_, hr⟩
  simp only [expandForm, Value.symbol?, startsWithPair, if_true, bind_eq_ok]
  exact ⟨tail', hb, rfl⟩

/-- A list that does not start with the name of a macro is rebuilt if its elements are. -/
theorem exists_expandForm_list {head tail : Value} {loc : Option Location}
    (hm : t.named? head = none) (hs : head.symbol? ≠ some "macroexpand")
    (h : ∀ v ∈ (Value.pair head tail loc).evaluatedElements,
      ∃ v', t.expandForm use v = .ok v' ∧ v.Rebuilt v') :
    ∃ v, t.expandForm use (.pair head tail loc) = .ok v ∧ (Value.pair head tail loc).Rebuilt v := by
  simp only [Value.evaluatedElements] at h
  split at h
  · rename_i hh
    exact ⟨_, by simp only [expandForm, hh], .refl _⟩
  · rename_i params body loc' hh
    obtain rfl := Code.eq_symbol_of_symbol? hh
    exact exists_expandForm_function h
  · rename_i name params loc' body loc'' hh
    obtain rfl := Code.eq_symbol_of_symbol? hh
    exact exists_expandForm_definition h
  · rename_i tail _ _ hquote hlambda hdefine
    obtain ⟨⟨head', hhead, hb⟩, htail⟩ := List.forall_mem_cons.mp h
    obtain ⟨tail', ht, hb', he⟩ := exists_expandEach loc tail htail
    simp only [expandForm]
    split
    · exact ⟨_, rfl, .refl _⟩
    · rename_i hh
      exact absurd hh hs
    · rename_i hh
      cases hp : isPair tail with
      | true =>
        obtain ⟨params, body, loc', rfl⟩ := exists_of_isPair hp
        exact (hlambda _ _ _ hh rfl).elim
      | false => exact ⟨_, expandUse_of_not_named hm, .refl _⟩
    · rename_i hh
      cases hp : startsWithPair tail with
      | true =>
        obtain ⟨name, params, loc', body, loc'', rfl⟩ := exists_of_startsWithPair hp
        exact (hdefine _ _ _ _ _ hh rfl).elim
      | false =>
        refine ⟨.pair head tail' loc, ?_, .pair (.refl head) hb' he⟩
        simp only [Bool.false_eq_true, if_false, ht]
        exact expandUse_of_not_named hm
    · refine ⟨.pair head' tail' loc, ?_, .pair hb hb' he⟩
      simp only [hhead, ht]
      exact expandUse_of_not_named ((named?_of_bare hb.bare).trans hm)

/-- **The expansion of a normal form is the form made anew**, if it shows nothing. -/
theorem exists_rebuilt {form : Value} (hn : t.Normal form) (hs : ShowsNothing form) :
    ∃ v, t.expandForm use form = .ok v ∧ form.Rebuilt v := by
  induction hn with
  | atom h => exact ⟨_, expandForm_atom h, .refl _⟩
  | quotation rest loc => exact ⟨_, by simp only [expandForm, Value.symbol?], .refl _⟩
  | function _ ih => exact exists_expandForm_function fun v hv => ih v hv (hs.element hv)
  | definition _ ih => exact exists_expandForm_definition fun v hv => ih v hv (hs.element hv)
  | @list head tail loc hm _ ih =>
    refine exists_expandForm_list hm (fun hh => ?_) fun v hv => ih v ?_ (hs.element hv)
    · obtain rfl := Code.eq_symbol_of_symbol? hh
      exact hs tail loc (.self _)
    · exact Value.mem_elements_of_mem_evaluatedElements hv

/-- **A normal form is its own expansion**, up to locations, if it shows nothing. -/
theorem expandForm_of_normal {form : Value} (hn : t.Normal form) (hs : ShowsNothing form) :
    ∃ v, t.expandForm use form = .ok v ∧ v.bare = form.bare := by
  obtain ⟨v, hv, hr⟩ := exists_rebuilt hn hs
  exact ⟨v, hv, hr.bare⟩

end

/-! ## Full expansions -/

/-- **What macros are given** in the course of the full expansion of a form. -/
inductive Given (t : MacroTable) (settings : Settings) (steps : Nat) (m : Macro)
    (args : List Value) (loc : Option Location) : Nat → Value → Prop
  | here {fuel : Nat} {form : Value} (hu : t.Uses (t.fullUse settings steps fuel) m args loc form) :
      Given t settings steps m args loc (fuel + 1) form
  | again {fuel : Nat} {form expansion : Value} {m' : Macro} {args' : List Value}
      {loc' : Option Location} (hu : t.Uses (t.fullUse settings steps fuel) m' args' loc' form)
      (he : m'.expand steps settings args' loc' = .ok expansion)
      (h : Given t settings steps m args loc fuel expansion) :
      Given t settings steps m args loc (fuel + 1) form

/-- The full expansion of a form, if `run` is what macros do. -/
def expandAllBy (t : MacroTable) (run : Use) : Nat → Value → Except Error Value
  | 0 => fun _ => .error .outOfFuel
  | fuel + 1 => t.expandForm fun m args loc => do
    let expansion ← run m args loc
    expandAllBy t run fuel expansion

section Full
variable {t : MacroTable} {settings : Settings} {steps fuel : Nat}

theorem normal_of_expandAll {form v : Value}
    (h : t.expandAll settings steps fuel form = .ok v) : t.Normal v := by
  induction fuel generalizing form v with
  | zero => cases h
  | succ fuel ih =>
    refine expandForm_normal (fun m args loc v hv => ?_) form h
    obtain ⟨expansion, -, hv⟩ := bind_eq_ok.mp hv
    exact ih hv

theorem normal_of_fullUse (m : Macro) (args : List Value) (loc : Option Location) (v : Value)
    (h : t.fullUse settings steps fuel m args loc = .ok v) : t.Normal v := by
  obtain ⟨expansion, -, h⟩ := bind_eq_ok.mp h
  exact normal_of_expandAll h

/-- **Macros are given normal forms.** -/
theorem Given.normal {m : Macro} {args : List Value} {loc : Option Location} {form : Value}
    (h : t.Given settings steps m args loc fuel form) : ∀ a ∈ args, t.Normal a := by
  induction h with
  | here hu => exact hu.normal normal_of_fullUse
  | again _ _ _ ih => exact ih

/-- **A full expansion depends only on what macros make of what they are given.** -/
theorem expandAllBy_eq {run : Use} {form : Value}
    (h : ∀ m args loc, t.Given settings steps m args loc fuel form →
      run m args loc = m.expand steps settings args loc) :
    t.expandAllBy run fuel form = t.expandAll settings steps fuel form := by
  have hany : Value.Composed fun _ => True := ⟨by simp, by simp⟩
  induction fuel generalizing form with
  | zero => rfl
  | succ fuel ih =>
    refine (expandForm_same (E := fun _ => True) hany (fun _ => trivial) form trivial
      fun m _ args loc hu _ => ?_).eq.symm
    refine Same.of_eq ?_
    simp only [h m args loc (.here hu)]
    cases he : m.expand steps settings args loc with
    | error e => rfl
    | ok expansion => exact (ih fun m' args' loc' hg => h m' args' loc' (.again hu he hg)).symm

/-- **A full expansion is normal.**  So is all that macros are given on the way, and what they make
of anything else does not matter.  The expansion is its own expansion, up to locations, if it
shows nothing. -/
theorem full_expansion_normal {form r : Value}
    (h : t.expandAll settings steps fuel form = .ok r) :
    t.Normal r ∧
    (∀ m args loc, t.Given settings steps m args loc fuel form → ∀ a ∈ args, t.Normal a) ∧
    (∀ run : Use, (∀ m args loc, t.Given settings steps m args loc fuel form →
        run m args loc = m.expand steps settings args loc) → t.expandAllBy run fuel form = .ok r) ∧
    ((∀ tail loc, ¬ r.Evaluates (.pair (.symbol "macroexpand") tail loc)) →
      ∀ settings' steps' fuel', ∃ r', t.expandAll settings' steps' (fuel' + 1) r = .ok r' ∧
        r'.bare = r.bare) := by
  have hn := normal_of_expandAll h
  refine ⟨hn, fun m args loc hg => hg.normal, fun run hrun => (expandAllBy_eq hrun).trans h,
    fun hs settings' steps' fuel' => ?_⟩
  exact expandForm_of_normal hn hs

/-- The macro that makes a list of its two arguments, the second in front. -/
def swapMacro : Macro :=
  ⟨"swap", ⟨["a", "b"], none⟩, [.lookup "b", .lookup "a", .pushConst .nil,
    .callPrimitive "cons" 2, .callPrimitive "cons" 2, .ret], none⟩

/-- The macro that leaves its argument. -/
def idMacro : Macro := ⟨"id", ⟨["a"], none⟩, [.lookup "a", .ret], none⟩

/-- The inner use of `swap` leaves a use of `id`, and the outer one is given what that leaves. -/
theorem full_expansion_normal_nested :
    let t : MacroTable := ⟨[swapMacro, idMacro]⟩
    let list (items : List Value) := Value.ofList items none .nil
    let form := list [.symbol "swap", list [.symbol "swap", .symbol "x", .symbol "id"], .symbol "f"]
    let expansion := list [.symbol "f", .symbol "x"]
    t.expandAll .unset 20 3 form = .ok expansion ∧ t.Normal expansion ∧
      ∀ settings steps fuel, ∃ again, t.expandAll settings steps (fuel + 1) expansion = .ok again ∧
        again.bare = expansion.bare := by
  intro t list form expansion
  have h : t.expandAll .unset 20 3 form = .ok expansion := rfl
  obtain ⟨hn, -, -, hagain⟩ := full_expansion_normal h
  refine ⟨h, hn, hagain fun tail loc => ?_⟩
  change ¬ (Value.pair (.symbol "f") (.pair (.symbol "x") .nil none) none).Evaluates _
  rw [Value.evaluates_iff]
  rintro (heq | ⟨element, he, hp⟩)
  · simp at heq
  · obtain ⟨name, rfl⟩ : ∃ name, element = .symbol name := by
      simp only [Value.evaluatedElements, Value.symbol?, Value.elements] at he
      rcases List.mem_cons.mp he with rfl | he
      · exact ⟨_, rfl⟩
      · exact ⟨_, List.mem_singleton.mp he⟩
    rw [Value.evaluates_iff] at hp
    rcases hp with heq | ⟨_, he, _⟩ <;> contradiction

end Full

end MacroTable

end StackLisp
