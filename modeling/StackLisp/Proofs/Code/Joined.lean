import StackLisp.Proofs.Code.Constants

/-!
# The code of programs that are joined

What does the code of a program have to do with that of its parts?  If no primitive has its name
bound, a form has the same code whatever else a program binds (`Code.ofForm_unbound`).  So **the
code of two programs, one after the other, is their code with a pop in place of the first's
return** (`Code.ofProgram_append`).
-/

namespace StackLisp

namespace Code

/-! ## Names that are bound -/

/-- **No primitive has its name bound.** -/
def Unbound (bound : List String) : Prop :=
  ∀ p : Primitive, p.name ∉ bound

theorem directPrimitive?_unbound {bound : List String} (h : Unbound bound) (head : Value) :
    directPrimitive? bound head = directPrimitive? [] head := by
  cases head with
  | symbol name =>
    simp only [directPrimitive?, List.not_mem_nil, if_false]
    split
    · rename_i hb
      cases hp : Primitive.ofName? name with
      | none => rfl
      | some p =>
        rw [← Primitive.name_of_ofName? hp] at hb
        exact absurd hb (h p)
    · rfl
  | _ => rfl

theorem ofList_unbound {bound : List String} (h : Unbound bound) (head tail : Value)
    (loc : Option Location) (function : Outcome) (parts : List Outcome) :
    ofList bound head tail loc function parts = ofList [] head tail loc function parts := by
  have happlication : application bound head loc function parts =
      application [] head loc function parts := by
    rw [application_eq, application_eq, directPrimitive?_unbound h]
  unfold ofList
  rw [happlication]

mutual

/-- **A form has the same code whatever names are bound**, as long as they are no primitives'. -/
theorem ofForm_unbound {bound : List String} (h : Unbound bound) :
    ∀ form : Value, ofForm bound form = ofForm [] form
  | .pair head tail loc => by
    rw [ofForm, ofForm, ofForm_unbound h head, ofEach_unbound h tail, ofList_unbound h]
  | .nil | .bool _ | .number _ | .text _ | .symbol _ | .quoted _ | .template _ _
  | .closure _ _ _ => by rw [ofForm, ofForm] <;> simp

theorem ofEach_unbound {bound : List String} (h : Unbound bound) :
    ∀ forms : Value, ofEach bound forms = ofEach [] forms
  | .pair head tail _ => by rw [ofEach, ofEach, ofForm_unbound h head, ofEach_unbound h tail]
  | .nil | .bool _ | .number _ | .text _ | .symbol _ | .quoted _ | .template _ _
  | .closure _ _ _ => rfl

end

/-! ## Bodies -/

section Return
variable {bound : List String}

mutual

/-- The code of a form does not return. -/
theorem Emits.ret_not_mem : ∀ {form : Value} {code : Code}, Emits bound form code →
    Instruction.ret ∉ code
  | _, _, .variable _ | _, _, .constant _ | _, _, .quoted _ | _, _, .quotation _ => by simp
  | _, _, .function _ _ h => h.ret_not_mem
  | _, _, .definition _ h => by simpa using h.ret_not_mem
  | _, _, .functionDefinition _ h => by simpa using h.ret_not_mem
  | _, _, .conditional _ ht hy hn => by simp [ht.ret_not_mem, hy.ret_not_mem, hn.ret_not_mem]
  | _, _, .conjunction _ h => h.ret_not_mem
  | _, _, .disjunction _ h => h.ret_not_mem
  | _, _, .spread _ hf ha => by simp [hf.ret_not_mem, ha.ret_not_mem]
  | _, _, .display _ h => by simpa using h.ret_not_mem
  | _, _, .primitive _ _ _ _ h => by simpa using h.ret_not_mem
  | _, _, .call _ _ _ hf ha => by simp [hf.ret_not_mem, ha.ret_not_mem]

theorem EmitsEach.ret_not_mem : ∀ {forms : List Value} {code : Code}, EmitsEach bound forms code →
    Instruction.ret ∉ code
  | _, _, .nil => by simp
  | _, _, .cons h hs => by simp [h.ret_not_mem, hs.ret_not_mem]

theorem EmitsAnd.ret_not_mem : ∀ {forms : List Value} {code : Code}, EmitsAnd bound forms code →
    Instruction.ret ∉ code
  | _, _, .nil => by simp
  | _, _, .last h => h.ret_not_mem
  | _, _, .cons _ h hs => by simp [h.ret_not_mem, hs.ret_not_mem]

theorem EmitsOr.ret_not_mem : ∀ {forms : List Value} {code : Code}, EmitsOr bound forms code →
    Instruction.ret ∉ code
  | _, _, .nil => by simp
  | _, _, .last h => h.ret_not_mem
  | _, _, .cons _ h hs => by simp [h.ret_not_mem, hs.ret_not_mem]

theorem EmitsFunction.ret_not_mem : ∀ {params : Value} {body : List Value} {code : Code},
    EmitsFunction bound params body code → Instruction.ret ∉ code
  | _, _, _, .mk _ _ _ _ => by simp

end

end Return

/-- **The code of one program followed by that of a second**: a pop takes the place of the return.
A program without forms leaves no code. -/
inductive Joined (second : Code) : Code → Code → Prop
  | empty : Joined second [.pushConst .nil, .ret] second
  | sequel {first : Code} (hr : Instruction.ret ∉ first) :
      Joined second (first ++ [.ret]) (first ++ .pop :: second)

theorem Joined.plain {first second joined : Code} (h : Joined second first joined)
    (hf : Plain first) (hs : Plain second) : Plain joined := by
  cases h with
  | empty => exact hs
  | sequel hr =>
    have hfirst : Constants Value.Plain _ := fun v hv => hf v (List.mem_append_left _ hv)
    exact hfirst.append (.cons (by simp) hs)

/-- The code of a body ends where the code of more forms goes on. -/
theorem sequence_append {bound : List String} {forms rest : List Value} {code second : Code}
    (hne : forms ≠ []) (hrest : rest ≠ []) (h : sequence (forms.map (ofForm bound)) = .ok code)
    (hs : sequence (rest.map (ofForm bound)) = .ok second) :
    ∃ first, code = first ++ [.ret] ∧ Instruction.ret ∉ first ∧
      sequence ((forms ++ rest).map (ofForm bound)) = .ok (first ++ .pop :: second) := by
  induction forms generalizing code with
  | nil => exact absurd rfl hne
  | cons form forms ih =>
    cases forms with
    | nil =>
      simp only [List.map_cons, List.map_nil, sequence, bind_eq_ok, pure_eq_ok,
        Except.ok.injEq] at h
      obtain ⟨c, hc, rfl⟩ := h
      obtain ⟨next, rest, rfl⟩ := List.exists_cons_of_ne_nil hrest
      refine ⟨c, rfl, (emits_of_ofForm form hc).ret_not_mem, ?_⟩
      rw [List.map_cons] at hs
      simp [sequence, hc, hs, Bind.bind, Except.bind]
    | cons next forms =>
      simp only [List.map_cons, sequence, bind_eq_ok, pure_eq_ok, Except.ok.injEq] at h
      obtain ⟨c, hc, d, hd, rfl⟩ := h
      obtain ⟨first, rfl, hr, hj⟩ := ih (List.cons_ne_nil _ _) hd
      refine ⟨c ++ .pop :: first, by simp, ?_, ?_⟩
      · simpa [hr] using (emits_of_ofForm form hc).ret_not_mem
      · rw [List.cons_append, List.map_cons, List.map_append] at hj
        simp [sequence, hc, hj, Bind.bind, Except.bind]

/-! ## Programs -/

theorem ofProgram_unbound {bound : List String} {forms : List Value}
    (hb : Unbound bound) (hn : Unbound (forms.flatMap Value.boundNames)) (hne : forms ≠ []) :
    ofProgram bound forms = ofBody [] forms := by
  have hnames : Unbound (programNames bound forms) := by
    intro p hp
    rcases List.mem_append.mp hp with hp | hp
    · exact hb p hp
    · exact hn p hp
  have hempty : forms.isEmpty = false := by simpa using hne
  rw [ofProgram, hempty, ofBody, ofBody, funext (ofForm_unbound hnames)]
  rfl

/-- **The code of two programs, one after the other.** -/
theorem ofProgram_append {bound bound' : List String} {forms rest : List Value}
    {code second : Code} (hb : Unbound bound) (hb' : Unbound bound')
    (hn : Unbound (forms.flatMap Value.boundNames)) (hn' : Unbound (rest.flatMap Value.boundNames))
    (hrest : rest ≠ []) (h : ofProgram bound forms = .ok code)
    (hs : ofProgram bound' rest = .ok second) :
    ∃ joined, ofProgram bound (forms ++ rest) = .ok joined ∧ Joined second code joined := by
  have hjoined : Unbound ((forms ++ rest).flatMap Value.boundNames) := by
    intro p hp
    rw [List.flatMap_append] at hp
    rcases List.mem_append.mp hp with hp | hp
    · exact hn p hp
    · exact hn' p hp
  rw [ofProgram_unbound hb' hn' hrest] at hs
  rw [ofProgram_unbound hb hjoined (by simp [hrest])]
  by_cases hne : forms = []
  · subst hne
    cases h
    exact ⟨second, hs, .empty⟩
  · rw [ofProgram_unbound hb hn hne] at h
    obtain ⟨first, rfl, hr, hj⟩ := sequence_append hne hrest h hs
    exact ⟨_, hj, .sequel hr⟩

end Code

end StackLisp
