import StackLisp.Proofs.Code.Emits

/-!
# The constants of compiled code

Which values can code push?  Only what its forms are made of, the empty list and booleans, and
the templates of functions whose bodies are among the forms.  So whatever is **inherited** by
the parts of a form (`Inherited`) also holds of every constant (`Emits.constants`).

Two such properties carry the later proofs.  A value is **compiled** (`Value.Compiled`) if the
code of every function in it was made by the compiler, from forms that are compiled values
themselves.  It is **plain** (`Value.Plain`) if there is no closure in it, nor among the
constants of its templates.
-/

namespace StackLisp

/-- The elements of a list have what its pairs hand on. -/
theorem Value.forall_elements {P : Value → Prop}
    (hP : ∀ {head tail loc}, P (.pair head tail loc) → P head ∧ P tail) {v : Value} (hv : P v) :
    ∀ item ∈ v.elements, P item := by
  induction v using Value.elements.induct with
  | case1 head tail loc ih =>
    intro item hm
    rcases List.mem_cons.mp hm with rfl | hm
    · exact (hP hv).1
    · exact ih (hP hv).2 item hm
  | case2 v h =>
    cases v with
    | pair head tail loc => exact absurd rfl (h head tail loc)
    | _ => exact fun item hm => absurd hm List.not_mem_nil

namespace Code

/-- The values that code pushes have a property. -/
def Constants (P : Value → Prop) (code : Code) : Prop :=
  ∀ v, Instruction.pushConst v ∈ code → P v

/-- **A property that parts inherit**: what the compiler takes out of a form has it if the form
has, and so has a template whose constants and body have it. -/
structure Inherited (P : Value → Prop) : Prop where
  nil : P .nil
  bool : ∀ b, P (.bool b)
  quoted : ∀ {datum}, P (.quoted datum) → P datum
  pair : ∀ {head tail loc}, P (.pair head tail loc) → P head ∧ P tail
  template : ∀ {bound body code} (params : Parameters), body ≠ [] → (∀ form ∈ body, P form) →
    ofBody bound body = .ok code → Constants P code → P (.template params code)

namespace Constants
variable {P : Value → Prop} {c d : Code}

theorem append (hc : Constants P c) (hd : Constants P d) : Constants P (c ++ d) :=
  fun v hv => (List.mem_append.mp hv).elim (hc v) (hd v)

theorem nil : Constants P [] :=
  fun _ hv => absurd hv List.not_mem_nil

theorem push {v : Value} (hv : P v) (hc : Constants P c) : Constants P (.pushConst v :: c) := by
  intro w hw
  rcases List.mem_cons.mp hw with h | h
  · cases h
    exact hv
  · exact hc w h

theorem cons {i : Instruction} (hi : ∀ v, i ≠ .pushConst v) (hc : Constants P c) :
    Constants P (i :: c) := by
  intro w hw
  rcases List.mem_cons.mp hw with h | h
  · exact absurd h.symm (hi w)
  · exact hc w h

end Constants

namespace Inherited
variable {P : Value → Prop}

theorem list (hP : Inherited P) {head tail : Value} {loc : Option Location} {items : List Value}
    (hv : P (.pair head tail loc)) (ht : tail.list? = some items) : ∀ item ∈ items, P item := by
  rw [← elements_of_list? ht]
  exact Value.forall_elements (fun h => hP.pair h) (hP.pair hv).2

theorem conditional (hP : Inherited P) {head tail test yes no : Value} {loc : Option Location}
    (hv : P (.pair head tail loc)) (ht : IsConditional tail test yes no) :
    P test ∧ P yes ∧ P no := by
  rcases ht with ht | ⟨ht, rfl⟩
  · exact ⟨hP.list hv ht _ (by simp), hP.list hv ht _ (by simp), hP.list hv ht _ (by simp)⟩
  · exact ⟨hP.list hv ht _ (by simp), hP.list hv ht _ (by simp), hP.nil⟩

end Inherited

section Constants
variable {P : Value → Prop} {bound : List String}

mutual

/-- **The constants of a form's code inherit its properties.** -/
theorem Emits.constants (hP : Inherited P) :
    ∀ {form : Value} {code : Code}, Emits bound form code → P form → Constants P code
  | _, _, .variable name, _ => .cons (by simp) .nil
  | _, _, .constant _, hf => .push hf .nil
  | _, _, .quoted datum, hf => .push (hP.quoted hf) .nil
  | _, _, .quotation ht, hf => .push (hP.list hf ht _ (by simp)) .nil
  | _, _, .function ht _ h, hf =>
    h.constants hP (fun f hm => hP.list hf ht f (List.mem_cons_of_mem _ hm))
  | _, _, .definition ht h, hf =>
    (h.constants hP (hP.list hf ht _ (by simp))).append (.cons (by simp) (.push hP.nil .nil))
  | _, _, .functionDefinition ht h, hf =>
    (h.constants hP (fun f hm => hP.list hf ht f (List.mem_cons_of_mem _ hm))).append
      (.cons (by simp) (.push hP.nil .nil))
  | _, _, .conditional ht htest hyes hno, hf => by
    obtain ⟨ht', hy', hn'⟩ := hP.conditional hf ht
    exact (((htest.constants hP ht').append (.cons (by simp) (hyes.constants hP hy'))).append
      (.push (hP.bool false) (.cons (by simp) .nil))).append (hno.constants hP hn')
  | _, _, .conjunction ht h, hf => h.constants hP (hP.list hf ht)
  | _, _, .disjunction ht h, hf => h.constants hP (hP.list hf ht)
  | _, _, .spread ht h h', hf =>
    ((h.constants hP (hP.list hf ht _ (by simp))).append
      (h'.constants hP (hP.list hf ht _ (by simp)))).append (.cons (by simp) .nil)
  | _, _, .display ht h, hf =>
    (h.constants hP (hP.list hf ht _ (by simp))).append (.cons (by simp) .nil)
  | _, _, .primitive _ ht _ _ h, hf =>
    (h.constants hP (hP.list hf ht)).append (.cons (by simp) .nil)
  | _, _, .call _ ht _ h hs, hf =>
    ((h.constants hP (hP.pair hf).1).append (hs.constants hP (hP.list hf ht))).append
      (.cons (by simp) .nil)

theorem EmitsEach.constants (hP : Inherited P) :
    ∀ {forms : List Value} {code : Code}, EmitsEach bound forms code → (∀ f ∈ forms, P f) →
      Constants P code
  | _, _, .nil, _ => .nil
  | _, _, .cons h hs, hf =>
    (h.constants hP (hf _ List.mem_cons_self)).append
      (hs.constants hP (fun f hm => hf f (List.mem_cons_of_mem _ hm)))

theorem EmitsAnd.constants (hP : Inherited P) :
    ∀ {forms : List Value} {code : Code}, EmitsAnd bound forms code → (∀ f ∈ forms, P f) →
      Constants P code
  | _, _, .nil, _ => .push (hP.bool true) .nil
  | _, _, .last h, hf => h.constants hP (hf _ List.mem_cons_self)
  | _, _, .cons _ h hs, hf =>
    ((h.constants hP (hf _ List.mem_cons_self)).append
      (.cons (by simp) (.push (hP.bool false) (.cons (by simp) (.cons (by simp) .nil))))).append
      (hs.constants hP (fun f hm => hf f (List.mem_cons_of_mem _ hm)))

theorem EmitsOr.constants (hP : Inherited P) :
    ∀ {forms : List Value} {code : Code}, EmitsOr bound forms code → (∀ f ∈ forms, P f) →
      Constants P code
  | _, _, .nil, _ => .push (hP.bool false) .nil
  | _, _, .last h, hf => h.constants hP (hf _ List.mem_cons_self)
  | _, _, .cons _ h hs, hf =>
    ((h.constants hP (hf _ List.mem_cons_self)).append
      (.cons (by simp) (.cons (by simp) .nil))).append
      (hs.constants hP (fun f hm => hf f (List.mem_cons_of_mem _ hm)))

/-- The constants of a body's code inherit the properties of its forms. -/
theorem EmitsBody.constants (hP : Inherited P) :
    ∀ {forms : List Value} {code : Code}, EmitsBody bound forms code → (∀ f ∈ forms, P f) →
      Constants P code
  | _, _, .last h, hf =>
    (h.constants hP (hf _ List.mem_cons_self)).append (.cons (by simp) .nil)
  | _, _, .cons h hs, hf =>
    (h.constants hP (hf _ List.mem_cons_self)).append
      (.cons (by simp) (hs.constants hP (fun f hm => hf f (List.mem_cons_of_mem _ hm))))

theorem EmitsFunction.constants (hP : Inherited P) :
    ∀ {params : Value} {body : List Value} {code : Code}, EmitsFunction bound params body code →
      (∀ f ∈ body, P f) → Constants P code
  | _, _, _, .mk _ hne hc h, hf =>
    .push (hP.template _ hne hf hc (h.constants hP hf)) (.cons (by simp) .nil)

end

/-- The constants of a compiled body. -/
theorem constants_of_ofBody (hP : Inherited P) {forms : List Value} {code : Code}
    (hne : forms ≠ []) (hf : ∀ f ∈ forms, P f) (h : ofBody bound forms = .ok code) :
    Constants P code :=
  (emitsBody_of_ofBody hne h).constants hP hf

end Constants

end Code

/-! ## Compiled values -/

mutual

/-- **A compiled value**: the code of all functions in it comes from the compiler. -/
inductive Value.Compiled : Value → Prop
  | nil : Value.Compiled .nil
  | bool (b : Bool) : Value.Compiled (.bool b)
  | number (x : Float) : Value.Compiled (.number x)
  | text (s : String) : Value.Compiled (.text s)
  | symbol (name : String) : Value.Compiled (.symbol name)
  | quoted {v : Value} (h : Value.Compiled v) : Value.Compiled (.quoted v)
  | pair {head tail : Value} {loc : Option Location} (hh : Value.Compiled head)
      (ht : Value.Compiled tail) : Value.Compiled (.pair head tail loc)
  | template {params : Parameters} {code : Code} (h : Code.Compiled code) :
      Value.Compiled (.template params code)
  | closure {params : Parameters} {code : Code} {scope : ScopeId} (h : Code.Compiled code) :
      Value.Compiled (.closure params code scope)

/-- **Compiled code**: the code of a body whose forms are compiled values. -/
inductive Code.Compiled : Code → Prop
  | ofBody {bound : List String} {forms : List Value} {code : Code} (hne : forms ≠ [])
      (hf : ∀ form ∈ forms, Value.Compiled form) (h : Code.ofBody bound forms = .ok code) :
      Code.Compiled code

end

/-- Parts of compiled values are compiled. -/
theorem Value.Compiled.inherited : Code.Inherited Value.Compiled where
  nil := .nil
  bool := .bool
  quoted h := by cases h; assumption
  pair h := by cases h; constructor <;> assumption
  template _ hne hf hc _ := .template (.ofBody hne hf hc)

/-- **The constants of compiled code are compiled values.** -/
theorem Code.Compiled.constants {code : Code} (h : Code.Compiled code) :
    Code.Constants Value.Compiled code := by
  obtain ⟨hne, hf, hc⟩ := h
  exact Code.constants_of_ofBody Value.Compiled.inherited hne hf hc

/-- The code of a program is compiled code. -/
theorem Code.compiled_of_ofProgram {bound : List String} {forms : List Value} {code : Code}
    (hf : ∀ form ∈ forms, form.Compiled) (h : Code.ofProgram bound forms = .ok code) :
    Code.Compiled code := by
  unfold Code.ofProgram at h
  split at h
  · -- a program without forms has the code of the form `()`
    cases h
    exact .ofBody (List.cons_ne_nil .nil []) (by simpa using Value.Compiled.nil)
      (show Code.ofBody [] [.nil] = _ from rfl)
  · rename_i hne
    exact .ofBody (by simpa using hne) hf h

/-! ## Plain values -/

/-- **A plain value**: there is no closure in it, nor among the constants of its templates. -/
inductive Value.Plain : Value → Prop
  | nil : Value.Plain .nil
  | bool (b : Bool) : Value.Plain (.bool b)
  | number (x : Float) : Value.Plain (.number x)
  | text (s : String) : Value.Plain (.text s)
  | symbol (name : String) : Value.Plain (.symbol name)
  | quoted {v : Value} (h : Value.Plain v) : Value.Plain (.quoted v)
  | pair {head tail : Value} {loc : Option Location} (hh : Value.Plain head)
      (ht : Value.Plain tail) : Value.Plain (.pair head tail loc)
  | template {params : Parameters} {code : Code}
      (h : ∀ v, Instruction.pushConst v ∈ code → Value.Plain v) :
      Value.Plain (.template params code)

/-- Plain code: its constants are plain values. -/
def Code.Plain (code : Code) : Prop :=
  Code.Constants Value.Plain code

mutual

/-- Is a value plain? -/
def Value.isPlain : Value → Bool
  | .nil | .bool _ | .number _ | .text _ | .symbol _ => true
  | .quoted v => v.isPlain
  | .pair head tail _ => head.isPlain && tail.isPlain
  | .template _ code => Code.isPlain code
  | .closure _ _ _ => false

/-- Does an instruction push only plain constants? -/
def Instruction.isPlain : Instruction → Bool
  | .pushConst v => v.isPlain
  | .pop | .lookup _ | .define _ | .jumpIfTruthy _ | .jumpIfFalsy _ | .ret | .makeClosure
  | .call _ | .callPrimitive _ _ | .apply | .display | .undefined _ => true

/-- Is code plain? -/
def Code.isPlain : List Instruction → Bool
  | [] => true
  | i :: code => i.isPlain && Code.isPlain code

end

theorem Code.mem_isPlain : ∀ {code : Code}, Code.isPlain code = true → ∀ i ∈ code, i.isPlain = true
  | [], _, _, hi => absurd hi List.not_mem_nil
  | i :: code, h, j, hj => by
    rw [Code.isPlain, Bool.and_eq_true] at h
    rcases List.mem_cons.mp hj with rfl | hj
    · exact h.1
    · exact mem_isPlain h.2 j hj

theorem Value.plain_of_isPlain : ∀ {v : Value}, v.isPlain = true → v.Plain
  | .nil, _ => .nil
  | .bool b, _ => .bool b
  | .number x, _ => .number x
  | .text s, _ => .text s
  | .symbol name, _ => .symbol name
  | .quoted v, h => .quoted (plain_of_isPlain (by rwa [isPlain] at h))
  | .pair head tail _, h => by
    rw [isPlain, Bool.and_eq_true] at h
    exact .pair (plain_of_isPlain h.1) (plain_of_isPlain h.2)
  | .template params code, h => by
    rw [isPlain] at h
    refine .template fun v hv => ?_
    have hlt := List.sizeOf_lt_of_mem hv
    have hi := Code.mem_isPlain h _ hv
    rw [Instruction.isPlain] at hi
    exact plain_of_isPlain hi
termination_by v => sizeOf v
decreasing_by
  all_goals simp_all
  all_goals omega

/-- **The test is sound.** -/
theorem Code.plain_of_isPlain {code : Code} (h : Code.isPlain code = true) : Code.Plain code :=
  fun v hv => Value.plain_of_isPlain (by simpa [Instruction.isPlain] using Code.mem_isPlain h _ hv)

/-- **A sealed value**: the code of all functions in it is plain. -/
inductive Value.Sealed : Value → Prop
  | nil : Value.Sealed .nil
  | bool (b : Bool) : Value.Sealed (.bool b)
  | number (x : Float) : Value.Sealed (.number x)
  | text (s : String) : Value.Sealed (.text s)
  | symbol (name : String) : Value.Sealed (.symbol name)
  | quoted {v : Value} (h : Value.Sealed v) : Value.Sealed (.quoted v)
  | pair {head tail : Value} {loc : Option Location} (hh : Value.Sealed head)
      (ht : Value.Sealed tail) : Value.Sealed (.pair head tail loc)
  | template {params : Parameters} {code : Code} (h : Code.Plain code) :
      Value.Sealed (.template params code)
  | closure {params : Parameters} {code : Code} {scope : ScopeId} (h : Code.Plain code) :
      Value.Sealed (.closure params code scope)

/-- Parts of plain values are plain. -/
theorem Value.Plain.inherited : Code.Inherited Value.Plain where
  nil := .nil
  bool := .bool
  quoted h := by cases h; assumption
  pair h := by cases h; constructor <;> assumption
  template _ _ _ _ h := .template h

/-- A plain value is sealed. -/
theorem Value.Plain.sealed {v : Value} (h : v.Plain) : v.Sealed := by
  induction h with
  | nil => exact .nil
  | bool b => exact .bool b
  | number x => exact .number x
  | text s => exact .text s
  | symbol name => exact .symbol name
  | quoted _ ih => exact .quoted ih
  | pair _ _ ihh iht => exact .pair ihh iht
  | template h => exact .template h

/-- **The code of plain forms is plain.** -/
theorem Code.plain_of_ofProgram {bound : List String} {forms : List Value} {code : Code}
    (hf : ∀ form ∈ forms, form.Plain) (h : Code.ofProgram bound forms = .ok code) :
    Code.Plain code := by
  unfold Code.ofProgram at h
  split at h
  · cases h
    exact .push .nil (.cons (by simp) .nil)
  · rename_i hne
    exact Code.constants_of_ofBody Value.Plain.inherited (by simpa using hne) hf h

end StackLisp
