import StackLisp.Proofs.Arena.Reached
import StackLisp.Proofs.Code.Constants
import StackLisp.Proofs.Code.Height

/-!
# The names that code binds

The compiler calls a primitive directly if no form binds its name, as far as the walk over the
forms can see (`Value.boundNames`).  Here is what compiled code makes of that.  Let `N` hold of
the bound names of some forms and of the dot.  Then their code, and the code of every function
that it makes, defines only names of `N`, gives its functions only parameters of `N`, and calls
no primitive directly whose name is bound (`Code.Within`).

Which functions does code make?  A template that is data is never made a closure, since the
instruction that makes one comes right behind the template that belongs to it (`Code.Makes`).
So what is said of templates is said of those only.
-/

namespace StackLisp

/-- Instructions that define names of `N` only, do not call a primitive directly whose name is
bound, and push no closure. -/
def Instruction.Allowed (bound : List String) (N : String → Prop) : Instruction → Prop
  | .callPrimitive name _ => name ∉ bound
  | .define name => N name
  | .pushConst v => ∀ id, ¬ v.Holds id
  | _ => True

namespace Code

/-- **Code that keeps to the names `N`**, and so does the code of the functions that it makes. -/
inductive Within (bound : List String) (N : String → Prop) : Code → Prop
  | mk {code : Code} (each : ∀ i ∈ code, i.Allowed bound N)
      (start : code.head? ≠ some .makeClosure)
      (parameters : ∀ params body, Makes code params body → ∀ name ∈ params.names, N name)
      (balanced : ∀ params body, Makes code params body → Balanced body 0)
      (bodies : ∀ params body, Makes code params body → Within bound N body) :
      Within bound N code

/-- **A name that code binds**: the code defines it, or makes a function that has it as a parameter
or whose code binds it. -/
inductive Binds : Code → String → Prop
  | defines {code : Code} {name : String} (h : .define name ∈ code) : Binds code name
  | parameter {code body : Code} {params : Parameters} {name : String}
      (hm : Makes code params body) (h : name ∈ params.names) : Binds code name
  | body {code body : Code} {params : Parameters} {name : String} (hm : Makes code params body)
      (h : Binds body name) : Binds code name

/-- Code that keeps to some names binds no others. -/
theorem Within.of_binds {bound : List String} {N : String → Prop} {name : String} {code : Code}
    (hcode : Within bound N code) (h : Binds code name) : N name := by
  induction h with
  | defines h =>
    obtain ⟨each, -, -, -, -⟩ := hcode
    exact each _ h
  | parameter hm h =>
    obtain ⟨-, -, parameters, -, -⟩ := hcode
    exact parameters _ _ hm _ h
  | body hm _ ih =>
    obtain ⟨-, -, -, -, bodies⟩ := hcode
    exact ih (bodies _ _ hm)

/-- Code that keeps to some names keeps to those that it binds. -/
theorem Within.of_forall_binds {bound : List String} {N M : String → Prop} {code : Code}
    (h : Within bound N code) (hM : ∀ name, Binds code name → M name) : Within bound M code := by
  induction h with
  | mk each start parameters balanced bodies ih =>
    refine ⟨fun i hi => ?_, start, fun _ _ hm name hn => hM name (.parameter hm hn), balanced,
      fun _ _ hm => ih _ _ hm fun name hb => hM name (.body hm hb)⟩
    cases i with
    | define name => exact hM name (.defines hi)
    | _ => exact each _ hi

/-- Nothing is made across a joint in the code. -/
theorem makes_append {c d : Code} {params : Parameters} {body : Code}
    (h : Makes (c ++ d) params body) (hd : d.head? ≠ some .makeClosure) :
    Makes c params body ∨ Makes d params body := by
  obtain ⟨before, after, h⟩ := h
  rw [List.append_assoc] at h
  rcases List.append_eq_append_iff.mp h with ⟨mid, rfl, hmid⟩ | ⟨mid, rfl, rfl⟩
  · match mid, hmid with
    | [], hmid => exact .inr ⟨[], after, hmid⟩
    | [i], hmid =>
      obtain ⟨-, rfl⟩ := List.cons.inj hmid
      exact absurd rfl hd
    | i :: j :: mid, hmid =>
      simp only [List.cons_append, List.nil_append, List.cons.injEq] at hmid
      obtain ⟨rfl, rfl, -⟩ := hmid
      exact .inl ⟨before, mid, by simp⟩
  · exact .inr ⟨mid, after, by simp⟩

namespace Within
variable {bound : List String} {N : String → Prop} {c d : Code}

theorem nil : Within bound N [] := by
  have hmakes : ∀ params body, ¬ Makes [] params body := fun _ _ h => by simp [Makes] at h
  exact ⟨fun _ hi => absurd hi List.not_mem_nil, nofun, fun _ _ h => absurd h (hmakes _ _),
    fun _ _ h => absurd h (hmakes _ _), fun _ _ h => absurd h (hmakes _ _)⟩

theorem append (hc : Within bound N c) (hd : Within bound N d) : Within bound N (c ++ d) := by
  obtain ⟨each, start, parameters, balanced, bodies⟩ := hc
  obtain ⟨each', start', parameters', balanced', bodies'⟩ := hd
  refine ⟨List.forall_mem_append.mpr ⟨each, each'⟩, ?_, fun params body h => ?_,
    fun params body h => ?_, fun params body h => ?_⟩
  · cases c with
    | nil => exact start'
    | cons i c => exact start
  · exact (makes_append h start').elim (parameters params body) (parameters' params body)
  · exact (makes_append h start').elim (balanced params body) (balanced' params body)
  · exact (makes_append h start').elim (bodies params body) (bodies' params body)

theorem cons {i : Instruction} (hi : i.Allowed bound N) (hne : i ≠ .makeClosure)
    (hc : Within bound N c) : Within bound N (i :: c) := by
  have hmakes : ∀ params body, ¬ Makes [i] params body := fun params body h => by
    have := h.length_le
    simp at this
  have hi : Within bound N [i] := ⟨by simpa using hi, by simpa using hne,
    fun _ _ h => absurd h (hmakes _ _), fun _ _ h => absurd h (hmakes _ _),
    fun _ _ h => absurd h (hmakes _ _)⟩
  exact hi.append hc

/-- Code that makes no closures. -/
theorem plain (h : ∀ i ∈ c, i.Allowed bound N ∧ i ≠ .makeClosure) : Within bound N c := by
  induction c with
  | nil => exact nil
  | cons i c ih =>
    obtain ⟨⟨hi, hne⟩, hc⟩ := List.forall_mem_cons.mp h
    exact .cons hi hne (ih hc)

/-- The code that makes a function. -/
theorem function {params : Parameters} {body : Code} (hparams : ∀ name ∈ params.names, N name)
    (hb : Balanced body 0) (hbody : Within bound N body) :
    Within bound N [.pushConst (.template params body), .makeClosure] := by
  have hmakes : ∀ params' body', Makes [.pushConst (.template params body), .makeClosure] params'
      body' → params' = params ∧ body' = body := by
    intro params' body' h
    have heq := h.eq_of_length rfl
    simpa using heq
  refine ⟨?_, nofun, fun params' body' h => ?_, fun params' body' h => ?_, fun params' body' h => ?_⟩
  · intro i hi
    simp only [List.mem_cons, List.not_mem_nil, or_false] at hi
    rcases hi with rfl | rfl
    · exact fun id h => nomatch h
    · trivial
  all_goals obtain ⟨rfl, rfl⟩ := hmakes _ _ h
  · exact hparams
  · exact hb
  · exact hbody

end Within

end Code

/-! ## What a form binds -/

namespace Value

/-- A form without closures whose bound names are all in `N`. -/
structure Allows (N : String → Prop) (form : Value) : Prop where
  closures : ∀ id, ¬ form.Holds id
  names : ∀ name ∈ form.boundNames, N name

variable {N : String → Prop} {first tail : Value} {loc : Option Location}

/-- The elements of a list bind no names that the list does not bind. -/
theorem mem_boundInEach {v item : Value} {name : String} (hm : item ∈ v.elements)
    (h : name ∈ item.boundNames) : name ∈ v.boundInEach := by
  induction v using Value.elements.induct with
  | case1 head tail loc ih =>
    rw [boundInEach]
    rcases List.mem_cons.mp hm with rfl | hm
    · exact List.mem_append_left _ h
    · exact List.mem_append_right _ (ih hm)
  | case2 v hv =>
    cases v with
    | pair head tail loc => exact absurd rfl (hv head tail loc)
    | _ => cases hm

theorem Allows.parts (h : (pair first tail loc).Allows N) (hq : first.symbol? ≠ some "quote") :
    (∀ name ∈ targetNames first tail, N name) ∧ (∀ name ∈ first.boundNames, N name) ∧
      ∀ name ∈ tail.boundInEach, N name := by
  have hnames := h.names
  rw [boundNames, if_neg hq] at hnames
  simpa only [List.forall_mem_append] using hnames

theorem Allows.head (h : (pair first tail loc).Allows N) (hq : first.symbol? ≠ some "quote") :
    first.Allows N :=
  ⟨fun id hid => h.closures id (.head hid), (h.parts hq).2.1⟩

/-- **The elements of a list bind what the list allows**, unless it is a quotation. -/
theorem Allows.item (h : (pair first tail loc).Allows N) (hq : first.symbol? ≠ some "quote")
    {items : List Value} (ht : tail.list? = some items) : ∀ item ∈ items, item.Allows N := by
  rw [← Code.elements_of_list? ht]
  intro item hm
  refine ⟨?_, fun name hn => (h.parts hq).2.2 name (mem_boundInEach hm hn)⟩
  have hclosures : ∀ id, ¬ tail.Holds id := fun id hid => h.closures id (.tail hid)
  refine Value.forall_elements (P := fun v => ∀ id, ¬ v.Holds id) ?_ hclosures item hm
  exact fun h => ⟨fun id hid => h id (.head hid), fun id hid => h id (.tail hid)⟩

@[simp] theorem not_holds_nil (id : ScopeId) : ¬ nil.Holds id :=
  nofun

@[simp] theorem not_holds_bool (b : Bool) (id : ScopeId) : ¬ (bool b).Holds id :=
  nofun

@[simp] theorem allows_nil : nil.Allows N where
  closures _ h := nomatch h
  names name h := by simp [boundNames] at h

/-- What a list has as its second element. -/
theorem eq_pair_of_list? {v item : Value} {items : List Value}
    (h : v.list? = some (item :: items)) : ∃ rest loc, v = pair item rest loc := by
  have helements := Code.elements_of_list? h
  cases v with
  | pair head tail loc =>
    obtain ⟨rfl, -⟩ := List.cons.inj helements
    exact ⟨tail, loc, rfl⟩
  | _ => cases helements

end Value

/-- A proper list of symbols has the names that it is said to have. -/
theorem Parameters.filterMap_of_names? {form : Value} {names : List String}
    (h : Parameters.names? form = some names) : form.elements.filterMap Value.symbol? = names := by
  obtain ⟨items, hitems, hmap⟩ := Option.bind_eq_some_iff.mp h
  rw [Code.elements_of_list? hitems]
  clear h hitems
  induction items generalizing names with
  | nil =>
    cases hmap
    rfl
  | cons item items ih =>
    simp only [List.mapM_cons, Option.bind_eq_bind, Option.bind_eq_some_iff, Option.pure_def,
      Option.some.injEq] at hmap
    obtain ⟨name, hname, rest, hrest, rfl⟩ := hmap
    rw [List.filterMap_cons_some hname, ih hrest]

/-- **The names of a parameter list** are its symbols, or the dot. -/
theorem Parameters.names_of_ofForm {form : Value} {params : Parameters}
    (h : Parameters.ofForm form = .ok params) {name : String} (hn : name ∈ params.names) :
    name ∈ form.symbolNames ∨ name = Parameters.dot := by
  unfold Parameters.ofForm at h
  split at h
  · rename_i names hnames
    have hmem : name ∈ names := by
      unfold Parameters.ofNames at h
      split at h
      · cases h
        simpa [Parameters.names] using hn
      · rename_i mark rest hdrop
        cases h
        simp only [Parameters.names, Option.toList_some, List.mem_append,
          List.mem_singleton] at hn
        rcases hn with hn | rfl
        · exact (List.takeWhile_prefix _).subset hn
        · have hlast : name ∈ names.dropWhile (· ≠ Parameters.dot) := by
            rw [hdrop]
            exact List.mem_cons_of_mem _ List.mem_cons_self
          exact (List.dropWhile_suffix _).subset hlast
      · cases h
    by_cases hdot : name = Parameters.dot
    · exact .inr hdot
    · refine .inl (List.mem_filter.mpr ⟨?_, by simpa using hdot⟩)
      rwa [Parameters.filterMap_of_names? hnames]
  · cases h

/-! ## Compiled code keeps to its names -/

namespace Code

section Within
variable {bound : List String} {N : String → Prop}

/-- The name of a primitive that is called directly is not bound. -/
theorem not_mem_of_directPrimitive? {head : Value} {p : Primitive}
    (h : directPrimitive? bound head = some p) : p.name ∉ bound := by
  unfold directPrimitive? at h
  split at h
  · rename_i name
    split at h
    · cases h
    · rename_i hname
      rwa [Primitive.name_of_ofName? h]
  · cases h

mutual

/-- **The code of a form keeps to the names that the form binds.** -/
theorem Emits.within (hN : N Parameters.dot) : ∀ {form : Value} {code : Code},
    Emits bound form code → form.Allows N → Within bound N code
  | _, _, .variable name, _ => .plain (by simp [Instruction.Allowed])
  | _, _, .constant _, hf => .plain (by simpa [Instruction.Allowed] using hf.closures)
  | _, _, .quoted datum, hf => by
    have hdatum : ∀ id, ¬ datum.Holds id := fun id hid => hf.closures id (.quoted hid)
    exact .plain (by simpa [Instruction.Allowed] using hdatum)
  | _, _, @Emits.quotation _ tail datum loc ht, hf => by
    obtain ⟨rest, loc', rfl⟩ := Value.eq_pair_of_list? ht
    have hdatum : ∀ id, ¬ datum.Holds id := fun id hid => hf.closures id (.tail (.head hid))
    exact .plain (by simpa [Instruction.Allowed] using hdatum)
  | _, _, @Emits.function _ tail params body loc code ht _ h, hf => by
    have hitems := List.forall_mem_cons.mp (hf.item (by decide) ht)
    obtain ⟨rest, loc', rfl⟩ := Value.eq_pair_of_list? ht
    exact h.within hN (hf.parts (by decide)).1 hitems.2
  | _, _, @Emits.definition _ tail value name loc code ht h, hf => by
    have hvalue := hf.item (by decide) ht value (by simp)
    obtain ⟨rest, loc', rfl⟩ := Value.eq_pair_of_list? ht
    have hname : N name := (hf.parts (by decide)).1 name (by simp [Value.targetNames])
    exact (h.within hN hvalue).append (.plain (by simp [Instruction.Allowed, hname]))
  | _, _, @Emits.functionDefinition _ tail params body name loc loc' code ht h, hf => by
    have hitems := List.forall_mem_cons.mp (hf.item (by decide) ht)
    obtain ⟨rest, loc'', rfl⟩ := Value.eq_pair_of_list? ht
    have htarget := (hf.parts (by decide)).1
    have hname : N name := by
      by_cases hdot : name = Parameters.dot
      · exact hdot ▸ hN
      · refine htarget name ?_
        simp [Value.targetNames, Value.symbolNames, Value.symbol?, hdot]
    have hparams : ∀ other ∈ params.symbolNames, N other := by
      intro other ho
      obtain ⟨ho, hdot⟩ := List.mem_filter.mp ho
      refine htarget other (List.mem_filter.mpr ⟨?_, hdot⟩)
      exact List.mem_cons_of_mem _ ho
    exact (h.within hN hparams hitems.2).append (.plain (by simp [Instruction.Allowed, hname]))
  | _, _, @Emits.conditional _ tail test yes no loc t y n ht htest hyes hno, hf => by
    have hparts : test.Allows N ∧ yes.Allows N ∧ no.Allows N := by
      rcases ht with ht | ⟨ht, rfl⟩
      · simpa using hf.item (by decide) ht
      · simpa using hf.item (by decide) ht
    obtain ⟨htest', hyes', hno'⟩ := hparts
    have hjump : Within bound N (.jumpIfFalsy (y.length + 2) :: y) :=
      .cons trivial nofun (hyes.within hN hyes')
    exact (((htest.within hN htest').append hjump).append
      (.plain (by simp [Instruction.Allowed]))).append (hno.within hN hno')
  | _, _, .conjunction ht h, hf => h.within hN (hf.item (by decide) ht)
  | _, _, .disjunction ht h, hf => h.within hN (hf.item (by decide) ht)
  | _, _, .spread ht h h', hf =>
    ((h.within hN (hf.item (by decide) ht _ (by simp))).append
      (h'.within hN (hf.item (by decide) ht _ (by simp)))).append
      (.plain (by simp [Instruction.Allowed]))
  | _, _, .display ht h, hf =>
    (h.within hN (hf.item (by decide) ht _ (by simp))).append
      (.plain (by simp [Instruction.Allowed]))
  | _, _, .primitive ho ht hp _ h, hf => by
    have hq := ho "quote" (by decide)
    have hname := not_mem_of_directPrimitive? hp
    exact (h.within hN (hf.item hq ht)).append (.plain (by simp [Instruction.Allowed, hname]))
  | _, _, .call ho ht _ h hs, hf => by
    have hq := ho "quote" (by decide)
    exact ((h.within hN (hf.head hq)).append (hs.within hN (hf.item hq ht))).append
      (.plain (by simp [Instruction.Allowed]))

theorem EmitsEach.within (hN : N Parameters.dot) : ∀ {forms : List Value} {code : Code},
    EmitsEach bound forms code → (∀ f ∈ forms, f.Allows N) → Within bound N code
  | _, _, .nil, _ => .nil
  | _, _, .cons h hs, hf =>
    (h.within hN (hf _ List.mem_cons_self)).append
      (hs.within hN (fun f hm => hf f (List.mem_cons_of_mem _ hm)))

theorem EmitsAnd.within (hN : N Parameters.dot) : ∀ {forms : List Value} {code : Code},
    EmitsAnd bound forms code → (∀ f ∈ forms, f.Allows N) → Within bound N code
  | _, _, .nil, _ => .plain (by simp [Instruction.Allowed])
  | _, _, .last h, hf => h.within hN (hf _ List.mem_cons_self)
  | _, _, .cons _ h hs, hf =>
    ((h.within hN (hf _ List.mem_cons_self)).append
      (.plain (by simp [Instruction.Allowed]))).append
      (hs.within hN (fun f hm => hf f (List.mem_cons_of_mem _ hm)))

theorem EmitsOr.within (hN : N Parameters.dot) : ∀ {forms : List Value} {code : Code},
    EmitsOr bound forms code → (∀ f ∈ forms, f.Allows N) → Within bound N code
  | _, _, .nil, _ => .plain (by simp [Instruction.Allowed])
  | _, _, .last h, hf => h.within hN (hf _ List.mem_cons_self)
  | _, _, .cons _ h hs, hf =>
    ((h.within hN (hf _ List.mem_cons_self)).append
      (.plain (by simp [Instruction.Allowed]))).append
      (hs.within hN (fun f hm => hf f (List.mem_cons_of_mem _ hm)))

/-- The code of a body keeps to the names that its forms bind. -/
theorem EmitsBody.within (hN : N Parameters.dot) : ∀ {forms : List Value} {code : Code},
    EmitsBody bound forms code → (∀ f ∈ forms, f.Allows N) → Within bound N code
  | _, _, .last h, hf =>
    (h.within hN (hf _ List.mem_cons_self)).append (.plain (by simp [Instruction.Allowed]))
  | _, _, .cons h hs, hf =>
    (h.within hN (hf _ List.mem_cons_self)).append
      (.cons trivial nofun (hs.within hN (fun f hm => hf f (List.mem_cons_of_mem _ hm))))

theorem EmitsFunction.within (hN : N Parameters.dot) :
    ∀ {params : Value} {body : List Value} {code : Code}, EmitsFunction bound params body code →
      (∀ name ∈ params.symbolNames, N name) → (∀ f ∈ body, f.Allows N) → Within bound N code
  | _, _, _, .mk hp hne hc h, hnames, hf => by
    refine .function (fun name hn => ?_) (balanced_of_ofBody hne hc) (h.within hN hf)
    rcases Parameters.names_of_ofForm hp hn with hn | rfl
    · exact hnames name hn
    · exact hN

end

end Within

/-- **The code of a program keeps to the names that its forms bind**, and calls no primitive
directly that the program may bind. -/
theorem within_of_ofProgram {bound : List String} {forms : List Value} {code : Code}
    {N : String → Prop} (hN : N Parameters.dot)
    (hnames : ∀ name ∈ forms.flatMap Value.boundNames, N name)
    (hforms : ∀ form ∈ forms, ∀ id, ¬ form.Holds id) (h : ofProgram bound forms = .ok code) :
    Balanced code 0 ∧ Within (programNames bound forms) N code := by
  unfold ofProgram at h
  split at h
  · cases h
    exact ⟨.pushConst .nil (.ret []), .plain (by simp [Instruction.Allowed])⟩
  · rename_i hne
    have hne : forms ≠ [] := by simpa using hne
    refine ⟨balanced_of_ofBody hne h, (emitsBody_of_ofBody hne h).within hN fun form hm => ?_⟩
    exact ⟨hforms form hm, fun name hn => hnames name (List.mem_flatMap.mpr ⟨form, hm, hn⟩)⟩

/-- **The names of primitives that the code of a program binds** are bound names of its forms. -/
theorem Binds.mem_boundNames {bound : List String} {forms : List Value} {code : Code}
    {name : String} {p : Primitive} (hforms : ∀ form ∈ forms, ∀ id, ¬ form.Holds id)
    (h : ofProgram bound forms = .ok code) (hb : code.Binds name)
    (hp : Primitive.ofName? name = some p) : name ∈ forms.flatMap Value.boundNames := by
  obtain ⟨-, hwithin⟩ := within_of_ofProgram
    (N := fun name => name ∈ forms.flatMap Value.boundNames ∨ name = Parameters.dot) (.inr rfl)
    (fun _ hn => .inl hn) hforms h
  rcases hwithin.of_binds hb with hn | rfl
  · exact hn
  · cases hp

end Code

end StackLisp
