import StackLisp.Macro.Expand
import StackLisp.Proofs.Form

/-!
# What expansion keeps

Expanding a form takes it apart, puts it together again and asks for the expansion of some uses
of macros.  `MacroTable.Uses` says which uses these are.  So a property of values that pairs and
quoted values share with their parts is one of the expansion, if the form has it and **the uses
keep it** (`expandForm_same`).  Likewise, two ways to expand uses that agree on those that are
asked for give the same expansion.
-/

namespace StackLisp

theorem Value.Composed.list {P : Value → Prop} (hP : Value.Composed P) {v : Value}
    {items : List Value} (hv : P v) (hl : v.list? = some items) : ∀ item ∈ items, P item := by
  rw [← Code.elements_of_list? hl]
  clear hl
  induction v using Value.elements.induct with
  | case1 head tail loc ih =>
    obtain ⟨hh, ht⟩ := hP.pair.mp hv
    exact List.forall_mem_cons.mpr ⟨hh, ih ht⟩
  | case2 v hv => simp [Value.elements]

namespace MacroTable

/-- **Two outcomes that are the same**: a value with the property `P`, or an error with the
property `E`. -/
inductive Same {α : Type} (P : α → Prop) (E : Error → Prop) : (r s : Except Error α) → Prop
  | ok {v : α} (h : P v) : Same P E (.ok v) (.ok v)
  | error {e : Error} (h : E e) : Same P E (.error e) (.error e)

theorem Same.bind {α β : Type} {P : β → Prop} {Q : α → Prop} {E : Error → Prop}
    {r s : Except Error α} {f g : α → Except Error β} (h : Same Q E r s)
    (hf : ∀ v, r = .ok v → Q v → Same P E (f v) (g v)) : Same P E (r >>= f) (s >>= g) := by
  cases h with
  | ok h => exact hf _ rfl h
  | error h => exact .error h

theorem Same.of_ok {α : Type} {P : α → Prop} {E : Error → Prop} {r s : Except Error α} {v : α}
    (h : Same P E r s) (hv : r = .ok v) : P v := by
  subst hv
  cases h
  assumption

/-- Outcomes that are the same are equal. -/
theorem Same.eq {α : Type} {P : α → Prop} {E : Error → Prop} {r s : Except Error α}
    (h : Same P E r s) : r = s := by
  cases h <;> rfl

theorem Same.of_eq {α : Type} {r s : Except Error α} (h : r = s) :
    Same (fun _ => True) (fun _ => True) r s := by
  subst h
  cases r
  · exact .error trivial
  · exact .ok trivial

/-- The form that an operand of `macroexpand` shows the expansion of. -/
inductive Shows : Value → Value → Prop
  | quoted (target : Value) (loc : Option Location) : Shows (.pair (.quoted target) .nil loc) target
  | quotation (target rest : Value) (loc loc' loc'' : Option Location) :
      Shows (.pair (.pair (.symbol "quote") (.pair target rest loc) loc') .nil loc'') target

/-- The names whose forms are not expanded like calls. -/
def specialNames : List String := ["quote", "macroexpand", "lambda", "define"]

mutual

/-- **The uses of macros that the expansion of a form asks for**, given how uses are expanded. -/
inductive Uses (t : MacroTable) (use : Use) (m : Macro) (args : List Value) :
    Option Location → Value → Prop
  | shown {head tail target : Value} {loc loc' : Option Location}
      (hh : head.symbol? = some "macroexpand") (hs : Shows tail target)
      (h : Uses t use m args loc target) : Uses t use m args loc (.pair head tail loc')
  | lambdaBody {head binder body : Value} {loc loc' loc'' : Option Location}
      (hh : head.symbol? = some "lambda") (h : UsesEach t use m args loc body) :
      Uses t use m args loc (.pair head (.pair binder body loc') loc'')
  | lambdaUse {head tail : Value} {loc : Option Location} (hh : head.symbol? = some "lambda")
      (ht : isPair tail = false) (hm : t.named? head = some m) (ha : tail.list? = some args) :
      Uses t use m args loc (.pair head tail loc)
  | defineBody {head binder body : Value} {loc loc' loc'' : Option Location}
      (hh : head.symbol? = some "define") (hs : startsWithPair (.pair binder body loc') = true)
      (h : UsesEach t use m args loc body) :
      Uses t use m args loc (.pair head (.pair binder body loc') loc'')
  | defineEach {head tail : Value} {loc loc' : Option Location}
      (hh : head.symbol? = some "define") (hs : startsWithPair tail = false)
      (h : UsesEach t use m args loc tail) : Uses t use m args loc (.pair head tail loc')
  | defineUse {head tail tail' : Value} {loc : Option Location}
      (hh : head.symbol? = some "define") (hs : startsWithPair tail = false)
      (ht : expandEach t use loc tail = .ok tail') (hm : t.named? head = some m)
      (ha : tail'.list? = some args) : Uses t use m args loc (.pair head tail loc)
  | head {head tail : Value} {loc loc' : Option Location}
      (hh : ∀ name ∈ specialNames, head.symbol? ≠ some name) (h : Uses t use m args loc head) :
      Uses t use m args loc (.pair head tail loc')
  | each {head head' tail : Value} {loc loc' : Option Location}
      (hh : ∀ name ∈ specialNames, head.symbol? ≠ some name)
      (he : expandForm t use head = .ok head') (h : UsesEach t use m args loc tail) :
      Uses t use m args loc (.pair head tail loc')
  | use {head head' tail tail' : Value} {loc : Option Location}
      (hh : ∀ name ∈ specialNames, head.symbol? ≠ some name)
      (he : expandForm t use head = .ok head') (ht : expandEach t use loc tail = .ok tail')
      (hm : t.named? head' = some m) (ha : tail'.list? = some args) :
      Uses t use m args loc (.pair head tail loc)

/-- The uses that the expansion of the elements of a list asks for. -/
inductive UsesEach (t : MacroTable) (use : Use) (m : Macro) (args : List Value) :
    Option Location → Value → Prop
  | head {head tail : Value} {loc loc' : Option Location} (h : Uses t use m args loc head) :
      UsesEach t use m args loc (.pair head tail loc')
  | tail {head head' tail : Value} {loc loc' : Option Location}
      (he : expandForm t use head = .ok head') (h : UsesEach t use m args loc tail) :
      UsesEach t use m args loc (.pair head tail loc')

end

section Same
variable {t : MacroTable} {use use' : Use} {P : Value → Prop} {E : Error → Prop}

/-- Uses are asked for of macros in the table. -/
theorem mem_of_named? {v : Value} {m : Macro} (h : t.named? v = some m) : m ∈ t.macros := by
  obtain ⟨name, -, hf⟩ := Option.bind_eq_some_iff.mp h
  exact List.mem_of_find?_eq_some hf

/-- A form whose parts have been expanded. -/
theorem expandUse_same (hP : Value.Composed P) (hE : ∀ e, E (.compile e)) {form head tail : Value}
    {loc : Option Location} (hh : P head) (ht : P tail)
    (hu : ∀ m args, t.named? head = some m → tail.list? = some args → (∀ a ∈ args, P a) →
      Same P E (use m args loc) (use' m args loc)) :
    Same P E (expandUse t use form head tail loc) (expandUse t use' form head tail loc) := by
  unfold expandUse
  split
  · exact .ok (hP.pair.mpr ⟨hh, ht⟩)
  · rename_i m hm
    split
    · rename_i args ha
      exact hu m args hm ha (hP.list ht ha)
    · exact .error (hE _)

mutual

/-- **An expansion keeps what its uses keep**, and is the same if they are. -/
theorem expandForm_same (hP : Value.Composed P) (hE : ∀ e, E (.compile e)) (form : Value)
    (hf : P form) (hu : ∀ m ∈ t.macros, ∀ args loc, t.Uses use m args loc form →
      (∀ a ∈ args, P a) → Same P E (use m args loc) (use' m args loc)) :
    Same P E (t.expandForm use form) (t.expandForm use' form) := by
  match form with
  | .pair head tail loc =>
    obtain ⟨hhead, htail⟩ := hP.pair.mp hf
    simp only [expandForm]
    split
    · exact .ok hf
    · rename_i hh
      exact expandShown_same hP hE (.pair head tail loc) loc tail htail
        (fun target hs m hm args loc h => hu m hm args loc (.shown hh hs h))
    · rename_i hh
      cases ht : isPair tail with
      | true =>
        refine (expandBody_same hP hE tail htail ?_).bind fun tail' _ ht' =>
          .ok (hP.pair.mpr ⟨hhead, ht'⟩)
        rintro binder body loc' rfl m hm args loc h
        exact hu m hm args loc (.lambdaBody hh h)
      | false =>
        exact expandUse_same hP hE hhead htail fun m args hm ha =>
          hu m (mem_of_named? hm) args loc (.lambdaUse hh ht hm ha)
    · rename_i hh
      cases hs : startsWithPair tail with
      | true =>
        refine (expandBody_same hP hE tail htail ?_).bind fun tail' _ ht' =>
          .ok (hP.pair.mpr ⟨hhead, ht'⟩)
        rintro binder body loc' rfl m hm args loc h
        exact hu m hm args loc (.defineBody hh hs h)
      | false =>
        refine (expandEach_same hP hE loc tail htail fun m hm args loc h =>
          hu m hm args loc (.defineEach hh hs h)).bind fun tail' ht ht' => ?_
        exact expandUse_same hP hE hhead ht' fun m args hm ha =>
          hu m (mem_of_named? hm) args loc (.defineUse hh hs ht hm ha)
    · rename_i hquote hexpand hlambda hdefine
      have hh : ∀ name ∈ specialNames, head.symbol? ≠ some name := by
        simp only [specialNames, List.forall_mem_cons]
        exact ⟨hquote, hexpand, hlambda, hdefine, fun _ h => absurd h List.not_mem_nil⟩
      refine (expandForm_same hP hE head hhead fun m hm args loc h =>
        hu m hm args loc (.head hh h)).bind fun head' he hhead' => ?_
      refine (expandEach_same hP hE loc tail htail fun m hm args loc h =>
        hu m hm args loc (.each hh he h)).bind fun tail' ht htail' => ?_
      exact expandUse_same hP hE hhead' htail' fun m args hm ha =>
        hu m (mem_of_named? hm) args loc (.use hh he ht hm ha)
  | .nil | .bool _ | .number _ | .text _ | .symbol _ | .quoted _ | .template _ _
  | .closure _ _ _ => exact .ok hf
termination_by sizeOf form

theorem expandShown_same (hP : Value.Composed P) (hE : ∀ e, E (.compile e)) (form : Value)
    (loc : Option Location) (tail : Value) (hf : P tail)
    (hu : ∀ target, Shows tail target → ∀ m ∈ t.macros, ∀ args loc,
      t.Uses use m args loc target → (∀ a ∈ args, P a) →
      Same P E (use m args loc) (use' m args loc)) :
    Same P E (t.expandShown use form loc tail) (t.expandShown use' form loc tail) := by
  have shown : ∀ target, Same P E (t.expandForm use target) (t.expandForm use' target) →
      Same P E (do checkUse t form target loc; return .quoted (← t.expandForm use target))
        (do checkUse t form target loc; return .quoted (← t.expandForm use' target)) := by
    intro target hsame
    cases hc : checkUse t form target loc with
    | ok _ => exact hsame.bind fun v _ hv => .ok (hP.quoted.mpr hv)
    | error e =>
      have he : ∃ c, e = .compile c := by
        unfold checkUse fail at hc
        split at hc
        · split at hc <;> cases hc
          exact ⟨_, rfl⟩
        · cases hc
          exact ⟨_, rfl⟩
      obtain ⟨c, rfl⟩ := he
      exact .error (hE c)
  rw [expandShown.eq_def, expandShown.eq_def]
  split
  · rename_i target loc'
    have ht : P target := hP.quoted.mp (hP.pair.mp hf).1
    exact shown target (expandForm_same hP hE target ht (hu target (.quoted ..)))
  · rename_i target rest l l' l''
    have ht : P target := (hP.pair.mp (hP.pair.mp (hP.pair.mp hf).1).2).1
    exact shown target (expandForm_same hP hE target ht (hu target (.quotation ..)))
  · exact .error (hE _)
termination_by sizeOf tail

/-- The body of a form that binds names. -/
theorem expandBody_same (hP : Value.Composed P) (hE : ∀ e, E (.compile e)) (tail : Value)
    (hf : P tail)
    (hu : ∀ binder body loc', tail = .pair binder body loc' → ∀ m ∈ t.macros, ∀ args loc,
      t.UsesEach use m args loc body → (∀ a ∈ args, P a) →
      Same P E (use m args loc) (use' m args loc)) :
    Same P E (t.expandBody use tail) (t.expandBody use' tail) := by
  match tail with
  | .pair binder body loc =>
    obtain ⟨hbinder, hbody⟩ := hP.pair.mp hf
    simp only [expandBody]
    exact (expandEach_same hP hE body.loc? body hbody (hu binder body loc rfl)).bind
      fun body' _ hb => .ok (hP.pair.mpr ⟨hbinder, hb⟩)
  | .nil | .bool _ | .number _ | .text _ | .symbol _ | .quoted _ | .template _ _
  | .closure _ _ _ => exact .ok hf
termination_by sizeOf tail

theorem expandEach_same (hP : Value.Composed P) (hE : ∀ e, E (.compile e))
    (loc : Option Location) (list : Value) (hf : P list)
    (hu : ∀ m ∈ t.macros, ∀ args loc, t.UsesEach use m args loc list →
      (∀ a ∈ args, P a) → Same P E (use m args loc) (use' m args loc)) :
    Same P E (t.expandEach use loc list) (t.expandEach use' loc list) := by
  match list with
  | .pair head tail loc' =>
    obtain ⟨hhead, htail⟩ := hP.pair.mp hf
    simp only [expandEach]
    refine (expandForm_same hP hE head hhead fun m hm args loc h =>
      hu m hm args loc (.head h)).bind fun head' he hhead' => ?_
    exact (expandEach_same hP hE loc tail htail fun m hm args loc h =>
      hu m hm args loc (.tail he h)).bind fun tail' _ htail' => .ok (hP.pair.mpr ⟨hhead', htail'⟩)
  | .nil | .bool _ | .number _ | .text _ | .symbol _ | .quoted _ | .template _ _
  | .closure _ _ _ => exact .ok hf
termination_by sizeOf list

end

end Same

/-! ## Full expansions -/

/-- How uses are expanded in a full expansion. -/
def fullUse (t : MacroTable) (settings : Settings) (steps fuel : Nat) : Use := fun m args loc => do
  let expansion ← m.expand steps settings args loc
  expandAll t settings steps fuel expansion

/-- **What macros leave** in the course of the full expansion of a form. -/
inductive Leaves (t : MacroTable) (settings : Settings) (steps : Nat) :
    Nat → Value → Value → Prop
  | left {fuel : Nat} {form v : Value} {m : Macro} {args : List Value} {loc : Option Location}
      (hu : t.Uses (t.fullUse settings steps fuel) m args loc form)
      (hv : m.expand steps settings args loc = .ok v) : Leaves t settings steps (fuel + 1) form v
  | again {fuel : Nat} {form expansion v : Value} {m : Macro} {args : List Value}
      {loc : Option Location} (hu : t.Uses (t.fullUse settings steps fuel) m args loc form)
      (he : m.expand steps settings args loc = .ok expansion)
      (h : Leaves t settings steps fuel expansion v) : Leaves t settings steps (fuel + 1) form v

/-- What macros leave in the course of the expansion of forms, one after the other. -/
inductive LeavesEach (t : MacroTable) (settings : Settings) (fuel : Nat) : List Value → Value → Prop
  | head {form v : Value} {forms : List Value} (h : Leaves t settings fuel fuel form v) :
      LeavesEach t settings fuel (form :: forms) v
  | tail {form expansion v : Value} {forms : List Value}
      (he : t.expandAll settings fuel fuel form = .ok expansion)
      (h : LeavesEach t settings fuel forms v) : LeavesEach t settings fuel (form :: forms) v

section Full
variable {t : MacroTable} {settings settings' : Settings} {fuel steps : Nat} {P Q : Value → Prop}
  {E : Error → Prop}

/-- **A full expansion keeps what macros keep.**  `Q` is what macros do by themselves, and `P`
what the values have that they leave here. -/
theorem expandAll_same (hP : Value.Composed P) (hE : ∀ e, E (.compile e)) (hfuel : E .outOfFuel)
    (hx : ∀ m ∈ t.macros, ∀ args loc, (∀ a ∈ args, P a) →
      Same Q E (m.expand steps settings args loc) (m.expand steps settings' args loc))
    {form : Value} (hf : P form) (hl : ∀ v, t.Leaves settings steps fuel form v → Q v → P v) :
    Same P E (t.expandAll settings steps fuel form) (t.expandAll settings' steps fuel form) := by
  induction fuel generalizing form with
  | zero => exact .error hfuel
  | succ fuel ih =>
    refine expandForm_same hP hE form hf fun m hm args loc hu ha => ?_
    refine (hx m hm args loc ha).bind fun v hv hq => ?_
    exact ih (hl v (.left hu hv) hq) fun w hw => hl w (.again hu hv hw)

theorem mapM_expandAll_same (hP : Value.Composed P) (hE : ∀ e, E (.compile e))
    (hfuel : E .outOfFuel)
    (hx : ∀ m ∈ t.macros, ∀ args loc, (∀ a ∈ args, P a) →
      Same Q E (m.expand fuel settings args loc) (m.expand fuel settings' args loc))
    {forms : List Value} (hf : ∀ f ∈ forms, P f)
    (hl : ∀ v, t.LeavesEach settings fuel forms v → Q v → P v) :
    Same (fun vs => ∀ v ∈ vs, P v) E (forms.mapM (t.expandAll settings fuel fuel))
      (forms.mapM (t.expandAll settings' fuel fuel)) := by
  induction forms with
  | nil => exact .ok fun _ h => absurd h List.not_mem_nil
  | cons form forms ih =>
    obtain ⟨hform, hforms⟩ := List.forall_mem_cons.mp hf
    have hsame := expandAll_same hP hE hfuel hx hform fun v hv => hl v (.head hv)
    simp only [List.mapM_cons]
    refine hsame.bind fun v hv hpv => ?_
    exact (ih hforms fun w hw => hl w (.tail hv hw)).bind fun vs _ hvs =>
      .ok (List.forall_mem_cons.mpr ⟨hpv, hvs⟩)

end Full

/-! ## Programs -/

/-- Is the form the definition of a macro? -/
def isDefinition : Value → Bool
  | .pair (.symbol name) _ _ => name = "defmacro"
  | _ => false

/-- **The course of the expansion of a program**: which table there is when which forms are left. -/
inductive Course (settings : Settings) (fuel : Nat) :
    MacroTable → List Value → MacroTable → List Value → Prop
  | start (t : MacroTable) (forms : List Value) : Course settings fuel t forms t forms
  | definition {t t' : MacroTable} {tail : Value} {loc : Option Location} {m : Macro}
      {forms rest : List Value}
      (hm : t.macroOf settings fuel (.pair (.symbol "defmacro") tail loc) tail loc = .ok m)
      (h : Course settings fuel (t.insert m) forms t' rest) :
      Course settings fuel t (.pair (.symbol "defmacro") tail loc :: forms) t' rest
  | form {t t' : MacroTable} {form expansion : Value} {forms rest : List Value}
      (hd : isDefinition form = false) (he : t.expandAll settings fuel fuel form = .ok expansion)
      (h : Course settings fuel t forms t' rest) : Course settings fuel t (form :: forms) t' rest

/-- The macros that are defined in the course of the expansion of a program. -/
def Defines (t : MacroTable) (settings : Settings) (fuel : Nat) (forms : List Value) (m : Macro) :
    Prop :=
  ∃ t' tail loc rest,
    Course settings fuel t forms t' (.pair (.symbol "defmacro") tail loc :: rest) ∧
    t'.macroOf settings fuel (.pair (.symbol "defmacro") tail loc) tail loc = .ok m

/-- The forms that are expanded for the first form of a program: the body of the definition of a
macro, or else the form itself. -/
inductive Expanded : Value → List Value → Prop
  | body {tail params first : Value} {name : String} {rest : List Value} {parameters : Parameters}
      {loc loc' : Option Location}
      (ht : tail.list? = some (.pair (.symbol name) params loc :: first :: rest))
      (hp : Parameters.ofForm params = .ok parameters) :
      Expanded (.pair (.symbol "defmacro") tail loc') (first :: rest)
  | form {form : Value} (hd : isDefinition form = false) : Expanded form [form]

/-- **What macros leave** in the course of the expansion of a program. -/
def ProgramLeaves (t : MacroTable) (settings : Settings) (fuel : Nat) (forms : List Value)
    (v : Value) : Prop :=
  ∃ t' form rest expanded, Course settings fuel t forms t' (form :: rest) ∧
    Expanded form expanded ∧ t'.LeavesEach settings fuel expanded v

section Programs
variable {t : MacroTable} {settings settings' : Settings} {fuel : Nat} {P Q : Value → Prop}
  {E : Error → Prop} {T : Macro → Prop}

/-- What a definition of a macro makes of what macros do. -/
theorem macroOf_same (hP : Value.Composed P) (hE : ∀ e, E (.compile e)) (hfuel : E .outOfFuel)
    (hx : ∀ m ∈ t.macros, ∀ args loc, (∀ a ∈ args, P a) →
      Same Q E (m.expand fuel settings args loc) (m.expand fuel settings' args loc))
    {tail : Value} {loc : Option Location} (hf : P tail)
    (hl : ∀ expanded, Expanded (.pair (.symbol "defmacro") tail loc) expanded →
      ∀ v, t.LeavesEach settings fuel expanded v → Q v → P v) (form : Value) :
    Same (fun m => ∃ bound body, (∀ f ∈ body, P f) ∧ Code.ofProgram bound body = .ok m.code) E
      (t.macroOf settings fuel form tail loc) (t.macroOf settings' fuel form tail loc) := by
  unfold macroOf
  split
  · rename_i name params loc' first rest ht
    cases hp : Parameters.ofForm params with
    | error e => exact .error (hE _)
    | ok parameters =>
      have hbody : ∀ f ∈ first :: rest, P f := fun f hm =>
        hP.list hf ht f (List.mem_cons_of_mem _ hm)
      have hsame := mapM_expandAll_same hP hE hfuel hx hbody (hl _ (.body ht hp))
      refine hsame.bind fun body _ hb => ?_
      cases hc : Code.ofProgram parameters.names body with
      | error e => exact .error (hE _)
      | ok code => exact .ok ⟨_, body, hb, hc⟩
  · exact .error (hE _)

theorem isDefinition_eq_false {form : Value}
    (h : ∀ tail loc, form ≠ .pair (.symbol "defmacro") tail loc) : isDefinition form = false := by
  unfold isDefinition
  split
  · rename_i name tail loc
    refine decide_eq_false fun hn => ?_
    subst hn
    exact h tail loc rfl
  · rfl

/-- A form that defines no macro is expanded. -/
theorem expandProgram_form (settings : Settings) (fuel : Nat) (t : MacroTable) {form : Value}
    (hd : isDefinition form = false) (forms : List Value) :
    expandProgram settings fuel t (form :: forms) = do
      let expansion ← t.expandAll settings fuel fuel form
      let (expansions, after) ← expandProgram settings fuel t forms
      return (expansion :: expansions, after) := by
  rw [expandProgram.eq_def]
  split
  · contradiction
  · rename_i heq
    cases heq
    cases hd
  · rename_i heq
    cases heq
    rfl

/-- **The expansion of a program keeps what macros keep.**  `T` is what the macros of the table
are known by. -/
theorem expandProgram_same (hP : Value.Composed P) (hE : ∀ e, E (.compile e))
    (hfuel : E .outOfFuel)
    (hx : ∀ m, T m → ∀ args loc, (∀ a ∈ args, P a) →
      Same Q E (m.expand fuel settings args loc) (m.expand fuel settings' args loc))
    {forms : List Value} (hf : ∀ f ∈ forms, P f) (ht : ∀ m ∈ t.macros, T m)
    (hl : ∀ v, t.ProgramLeaves settings fuel forms v → Q v → P v)
    (hT : ∀ m, t.Defines settings fuel forms m →
      (∃ bound body, (∀ f ∈ body, P f) ∧ Code.ofProgram bound body = .ok m.code) → T m) :
    Same (fun r => (∀ f ∈ r.1, P f) ∧ ∀ m ∈ r.2.macros, T m) E
      (expandProgram settings fuel t forms) (expandProgram settings' fuel t forms) := by
  induction forms generalizing t with
  | nil => exact .ok ⟨fun _ h => absurd h List.not_mem_nil, ht⟩
  | cons form forms ih =>
    obtain ⟨hform, hforms⟩ := List.forall_mem_cons.mp hf
    have hx' := fun m hm => hx m (ht m hm)
    rw [expandProgram.eq_def, expandProgram.eq_def]
    split
    · contradiction
    · rename_i tail loc forms' heq
      obtain ⟨rfl, rfl⟩ := List.cons.inj heq
      have hsame := macroOf_same hP hE hfuel hx' (hP.pair.mp hform).2
        (fun expanded he v hv => hl v ⟨_, _, _, expanded, .start _ _, he, hv⟩)
        (.pair (.symbol "defmacro") tail loc)
      refine hsame.bind fun m hm hcode => ih hforms (fun k hk => ?_) (fun v hv => ?_) fun k hk => ?_
      · rcases List.mem_cons.mp hk with rfl | hk
        · exact hT k ⟨_, tail, loc, _, .start _ _, hm⟩ hcode
        · exact ht k (List.mem_filter.mp hk).1
      · obtain ⟨t', form, rest, expanded, hcourse, he⟩ := hv
        exact hl v ⟨t', form, rest, expanded, .definition hm hcourse, he⟩
      · obtain ⟨t', tail', loc', rest, hcourse, hm'⟩ := hk
        exact hT k ⟨t', tail', loc', rest, .definition hm hcourse, hm'⟩
    · rename_i form' forms' hne heq
      obtain ⟨rfl, rfl⟩ := List.cons.inj heq
      have hd : isDefinition form = false := isDefinition_eq_false fun tail loc h => hne tail loc h
      refine (expandAll_same hP hE hfuel hx' hform fun v hv =>
        hl v ⟨_, _, _, _, .start _ _, .form hd, .head hv⟩).bind fun expansion he hexp => ?_
      refine (ih hforms ht (fun v hv => ?_) fun k hk => ?_).bind fun r _ hr =>
        .ok ⟨List.forall_mem_cons.mpr ⟨hexp, hr.1⟩, hr.2⟩
      · obtain ⟨t', form, rest, expanded, hcourse, hx⟩ := hv
        exact hl v ⟨t', form, rest, expanded, .form hd he hcourse, hx⟩
      · obtain ⟨t', tail', loc', rest, hcourse, hm'⟩ := hk
        exact hT k ⟨t', tail', loc', rest, .form hd he hcourse, hm'⟩

end Programs

end MacroTable

end StackLisp
