import StackLisp.Proofs.Evaluation
import StackLisp.Proofs.Machine.Discipline

/-!
# Compiled code does what its forms mean

The machine runs the code of a form, from wherever it stands, to the verdict of evaluating the form
(`Emits.pushes`): if the form has a value, it is pushed, and the machine stands behind the code; if
evaluating fails, the machine comes to a step that fails in the same way; and **if the verdict is
open at a depth, the machine takes at least so many steps**.  So a run that ends is decided at some
depth, and one proof, by induction on the depth and then on the code of a form, gives both
directions of `compiler_correct`.
-/

namespace StackLisp

namespace Machine

/-- The store of a machine. -/
def store (m : Machine) : Store := ⟨m.arena, m.output⟩

@[simp] theorem jump_store {m : Machine} (offset : Int) : (m.jump offset).store = m.store := by
  simp [store]

/-- **Where a machine stands**: in a scope, with code ahead, above its callers, and with given
values on the stack and a given store.  It never collects scopes. -/
structure Stands (m : Machine) (scope : ScopeId) (callers : List Frame) (rest : Code)
    (stack : List Value) (s : Store) : Prop where
  frames : ∃ f : Frame, m.frames = f :: callers ∧ f.scope = scope ∧ 0 ≤ f.ip ∧ f.ahead = rest
  stack : m.stack = stack
  store : m.store = s
  zero : m.gcThreshold = 0
  compiled : m.Compiled

/-- **A machine comes to a verdict.**  If it is a value, `P` is what it comes to, and if the verdict
is open, it takes at least `n` steps. -/
def Meets {α : Type} (n : Nat) (m : Machine) (P : α → Store → Machine → Prop) : Verdict α → Prop
  | .value a s => ∃ k last, Steps k m last ∧ P a s last
  | .fault f s => ∃ k last, Steps k m last ∧ last.halted = false ∧ last.advance = .error f ∧
      last.store = s
  | .undecided => ∃ last, Steps n m last

/-- The value of a verdict comes on top of a stack, with given code ahead. -/
def Pushes (n : Nat) (m : Machine) (scope : ScopeId) (callers : List Frame) (rest : Code)
    (stack : List Value) : Verdict Value → Prop :=
  m.Meets n fun v s last => last.Stands scope callers rest (v :: stack) s

section Meets
variable {α β : Type} {n k : Nat} {m next : Machine} {P : α → Store → Machine → Prop}
  {Q : β → Store → Machine → Prop}

theorem Meets.of_steps {r : Verdict α} (h : Steps k m next) (hr : next.Meets n P r) :
    m.Meets n P r := by
  cases r with
  | value a s =>
    obtain ⟨j, last, hs, hp⟩ := hr
    exact ⟨k + j, last, h.trans hs, hp⟩
  | fault f s =>
    obtain ⟨j, last, hs, hf⟩ := hr
    exact ⟨k + j, last, h.trans hs, hf⟩
  | undecided =>
    obtain ⟨last, hs⟩ := hr
    obtain ⟨mid, hmid, -⟩ := (h.trans hs).split_of_le (Nat.le_add_left n k)
    exact ⟨mid, hmid⟩

/-- One step further the verdict is open at one more. -/
theorem Meets.of_step {r : Verdict α} (h : m.advance = .ok next) (hr : next.Meets n P r) :
    m.Meets (n + 1) P r := by
  cases r with
  | undecided =>
    obtain ⟨last, hs⟩ := hr
    exact ⟨last, .succ h hs⟩
  | value a s => exact Meets.of_steps (n := n) (r := .value a s) (.single h) hr
  | fault f s => exact Meets.of_steps (n := n) (r := .fault f s) (.single h) hr

/-- **Computations one after the other.** -/
theorem Meets.bind {x : Evaluation α} {f : α → Evaluation β} {s : Store} (hx : m.Meets n P (x s))
    (hf : ∀ a s next, P a s next → next.Meets n Q (f a s)) : m.Meets n Q ((x >>= f) s) := by
  cases hr : x s with
  | value a t =>
    rw [hr] at hx
    obtain ⟨k, next, hs, hp⟩ := hx
    rw [Evaluation.bind_value hr]
    exact (hf a t next hp).of_steps hs
  | fault fault t =>
    rw [hr] at hx
    rw [Evaluation.bind_fault hr]
    exact hx
  | undecided =>
    rw [hr] at hx
    rw [Evaluation.bind_undecided hr]
    exact hx

/-- Further steps after a value. -/
theorem Meets.then {Q : α → Store → Machine → Prop} {r : Verdict α} (h : m.Meets n P r)
    (hf : ∀ a s next, P a s next → ∃ k after, Steps k next after ∧ Q a s after) :
    m.Meets n Q r := by
  cases r with
  | value a s =>
    obtain ⟨k, next, hs, hp⟩ := h
    obtain ⟨j, after, hs', hq⟩ := hf a s next hp
    exact ⟨k + j, after, hs.trans hs', hq⟩
  | fault f s => exact h
  | undecided => exact h

end Meets

namespace Stands
variable {m next : Machine} {scope : ScopeId} {callers : List Frame} {i : Instruction}
  {rest : Code} {stack : List Value} {s : Store} {v : Value} {n : Nat} {α : Type}
  {P : α → Store → Machine → Prop}

/-! ## Single instructions -/

theorem not_halted (h : m.Stands scope callers rest stack s) : m.halted = false := by
  obtain ⟨f, hf, -⟩ := h.frames
  simp [halted, hf]

/-- A step executes the next instruction. -/
theorem advance_eq (h : m.Stands scope callers (i :: rest) stack s) :
    m.advance = do
      let after ← (m.jump 1).execute scope i
      return { after with steps := after.steps + 1 } := by
  obtain ⟨f, hf, rfl, hip, ha⟩ := h.frames
  exact advance_of_ahead hf hip ha

theorem stack_jump (h : m.Stands scope callers rest stack s) (offset : Int) :
    (m.jump offset).stack = stack := by
  rw [jump_stack, h.stack]

theorem store_jump (h : m.Stands scope callers rest stack s) (offset : Int) :
    (m.jump offset).store = s :=
  (jump_store offset).trans h.store

theorem arena_jump (h : m.Stands scope callers rest stack s) (offset : Int) :
    (m.jump offset).arena = s.arena :=
  congrArg Store.arena (h.store_jump offset)

/-- An instruction that fails. -/
theorem meets_fault (h : m.Stands scope callers (i :: rest) stack s) {fault : Fault}
    (hf : (m.jump 1).Fails scope i fault) : m.Meets n P (.fault fault s) := by
  refine ⟨0, m, .zero m, h.not_halted, ?_, h.store⟩
  rw [h.advance_eq, execute_eq_error.mpr hf]
  rfl

theorem advance_of_effect (h : m.Stands scope callers (i :: rest) stack s)
    (he : (m.jump 1).Effect scope i next) :
    m.advance = .ok { next with steps := next.steps + 1 } := by
  rw [h.advance_eq, execute_of_effect he]
  rfl

/-- **An instruction that succeeds** and jumps over the next `k`. -/
theorem jumps (h : m.Stands scope callers (i :: rest) stack s) (he : (m.jump 1).Effect scope i next)
    {k : Nat} (hf : next.frames = ((m.jump 1).jump k).frames) {stack' : List Value}
    (hs : next.stack = stack') {s' : Store} (hstore : next.store = s') :
    ∃ after, m.advance = .ok after ∧ after.Stands scope callers (rest.drop k) stack' s' := by
  obtain ⟨f, hframes, hscope, hip, ha⟩ := h.frames
  have hadv := h.advance_of_effect he
  refine ⟨_, hadv, ⟨{ f with ip := f.ip + 1 + k }, ?_, hscope, ?_, ?_⟩, hs, hstore, ?_, ?_⟩
  · simpa [jump, hframes] using hf
  · show 0 ≤ f.ip + 1 + (k : Int)
    omega
  · exact Frame.ahead_move hip ha k
  · exact (gcThreshold_of_advance hadv).trans h.zero
  · exact h.compiled.advance hadv

/-- An instruction that succeeds and goes on with the next. -/
theorem goes_on (h : m.Stands scope callers (i :: rest) stack s)
    (he : (m.jump 1).Effect scope i next) (hf : next.frames = (m.jump 1).frames)
    {stack' : List Value} (hs : next.stack = stack') {s' : Store} (hstore : next.store = s') :
    ∃ after, m.advance = .ok after ∧ after.Stands scope callers rest stack' s' := by
  refine h.jumps he (k := 0) (hf.trans ?_) hs hstore
  obtain ⟨f, hframes, -⟩ := h.frames
  simp [jump, hframes]

theorem pushConst (h : m.Stands scope callers (.pushConst v :: rest) stack s) :
    ∃ after, m.advance = .ok after ∧ after.Stands scope callers rest (v :: stack) s :=
  h.goes_on (.pushConst v) rfl (congrArg (v :: ·) (h.stack_jump 1)) (h.store_jump 1)

theorem pop (h : m.Stands scope callers (.pop :: rest) (v :: stack) s) :
    ∃ after, m.advance = .ok after ∧ after.Stands scope callers rest stack s :=
  h.goes_on (.pop (h.stack_jump 1)) rfl rfl (h.store_jump 1)

theorem makeClosure {params : Parameters} {code : Code}
    (h : m.Stands scope callers (.makeClosure :: rest) (.template params code :: stack) s) :
    ∃ after, m.advance = .ok after ∧
      after.Stands scope callers rest (.closure params code scope :: stack) s :=
  h.goes_on (.makeClosure (h.stack_jump 1)) rfl rfl (h.store_jump 1)

theorem display (h : m.Stands scope callers (.display :: rest) (v :: stack) s) :
    ∃ after, m.advance = .ok after ∧ after.Stands scope callers rest (.nil :: stack)
      { s with output := s.output ++ [v.toText] } := by
  refine h.goes_on (.display (h.stack_jump 1)) rfl rfl ?_
  rw [← h.store_jump 1]
  rfl

theorem define {name : String} {arena : Arena}
    (h : m.Stands scope callers (.define name :: rest) (v :: stack) s)
    (hd : s.arena.define scope name v = .ok arena) :
    ∃ after, m.advance = .ok after ∧
      after.Stands scope callers rest stack { s with arena := arena } := by
  refine h.goes_on (.define (h.stack_jump 1) ((h.arena_jump 1).symm ▸ hd)) rfl rfl ?_
  rw [← h.store_jump 1]
  rfl

theorem jumpIfTruthy {k : Nat}
    (h : m.Stands scope callers (.jumpIfTruthy k :: rest) (v :: stack) s) :
    ∃ after, m.advance = .ok after ∧ after.Stands scope callers
      (if v.isFalsy then rest else rest.drop k) (v :: stack) s := by
  have he : (m.jump 1).Effect scope (.jumpIfTruthy k) _ := .jumpIfTruthy (h.stack_jump 1)
  cases hv : v.isFalsy with
  | true =>
    rw [hv] at he
    exact h.goes_on he rfl (h.stack_jump 1) (h.store_jump 1)
  | false =>
    rw [hv] at he
    exact h.jumps he rfl ((jump_stack _).trans (h.stack_jump 1))
      ((jump_store _).trans (h.store_jump 1))

theorem jumpIfFalsy {k : Nat}
    (h : m.Stands scope callers (.jumpIfFalsy k :: rest) (v :: stack) s) :
    ∃ after, m.advance = .ok after ∧ after.Stands scope callers
      (if v.isFalsy then rest.drop k else rest) stack s := by
  have he : (m.jump 1).Effect scope (.jumpIfFalsy k) _ := .jumpIfFalsy (h.stack_jump 1)
  cases hv : v.isFalsy with
  | true =>
    rw [hv] at he
    refine h.jumps he ?_ (jump_stack _) ((jump_store _).trans (h.store_jump 1))
    obtain ⟨f, hframes, -⟩ := h.frames
    simp [jump, hframes]
  | false =>
    rw [hv] at he
    exact h.goes_on he rfl rfl (h.store_jump 1)

/-- A jump that is always taken. -/
theorem goto {k : Nat}
    (h : m.Stands scope callers (.pushConst (.bool false) :: .jumpIfFalsy k :: rest) stack s) :
    ∃ after, Steps 2 m after ∧ after.Stands scope callers (rest.drop k) stack s := by
  obtain ⟨next, hpush, hs⟩ := h.pushConst
  obtain ⟨after, hjump, hs⟩ := hs.jumpIfFalsy
  exact ⟨after, .succ hpush (.single hjump), hs⟩

/-- The call of a closure, in whose code the machine then stands. -/
theorem enter {id : ScopeId} {code : Code} {stack' : List Value} {s' : Store}
    (h : m.Stands scope callers (i :: rest) stack s)
    (he : (m.jump 1).Effect scope i next.noteAllocation)
    (hf : next.frames = ⟨code, 0, id⟩ :: (m.jump 1).frames) (hs : next.stack = stack')
    (hstore : next.store = s') (hzero : next.gcThreshold = (m.jump 1).gcThreshold) :
    ∃ after caller, m.advance = .ok after ∧ 0 ≤ caller.ip ∧ caller.scope = scope ∧
      caller.ahead = rest ∧ after.Stands id (caller :: callers) code stack' s' := by
  obtain ⟨f, hframes, hscope, hip, ha⟩ := h.frames
  have hadv := h.advance_of_effect he
  have hcount := noteAllocation_of_zero (hzero.trans ((jump_gcThreshold 1).trans h.zero))
  refine ⟨_, { f with ip := f.ip + 1 }, hadv, Int.add_nonneg hip (by decide), hscope, ?_,
    ⟨⟨code, 0, id⟩, ?_, rfl, Int.le_refl 0, rfl⟩, noteAllocation_stack.trans hs, ?_,
    (gcThreshold_of_advance hadv).trans h.zero, h.compiled.advance hadv⟩
  · simpa using Frame.ahead_move hip ha 0
  · rw [noteAllocation_frames, hf]
    simp [jump, hframes]
  · rw [hcount]
    exact hstore

/-- The return from a call, in whose caller the machine then stands. -/
theorem ret {caller : Frame} {params : Parameters} {code : Code} {closed : ScopeId}
    (h : m.Stands scope (caller :: callers) (.ret :: rest)
      (v :: .closure params code closed :: stack) s) (hip : 0 ≤ caller.ip) :
    ∃ after, m.advance = .ok after ∧
      after.Stands caller.scope callers caller.ahead (v :: stack) s := by
  obtain ⟨f, hframes, -⟩ := h.frames
  have hf : (m.jump 1).frames = { f with ip := f.ip + 1 } :: caller :: callers := by
    simp [jump, hframes]
  have hadv := h.advance_of_effect (.ret hf (h.stack_jump 1))
  exact ⟨_, hadv, ⟨caller, rfl, rfl, hip, rfl⟩, rfl, h.store_jump 1,
    (gcThreshold_of_advance hadv).trans h.zero, h.compiled.advance hadv⟩

/-- The return from the program. -/
theorem finish (h : m.Stands scope [] (.ret :: rest) (v :: stack) s) :
    ∃ after, m.advance = .ok after ∧ after.frames = [] ∧ after.stack = v :: stack ∧
      after.store = s := by
  obtain ⟨f, hframes, -⟩ := h.frames
  have hf : (m.jump 1).frames = [{ f with ip := f.ip + 1 }] := by
    simp [jump, hframes]
  have hadv := h.advance_of_effect (.finish hf (h.stack_jump 1))
  exact ⟨_, hadv, rfl, h.stack_jump 1, h.store_jump 1⟩

/-! ## Instructions and their verdicts -/

theorem lookup {name : String} (h : m.Stands scope callers (.lookup name :: rest) stack s) :
    m.Pushes n scope callers rest stack (Evaluation.lookup scope name s) := by
  have harena := h.arena_jump 1
  unfold Evaluation.lookup
  rw [← harena]
  cases hf : (m.jump 1).arena.find scope name with
  | error fault => exact h.meets_fault (.lookup hf)
  | ok found =>
    have hstack (v : Value) : ((m.jump 1).push v).stack = v :: stack :=
      congrArg (v :: ·) (h.stack_jump 1)
    cases found with
    | some found =>
      obtain ⟨after, hadv, hs⟩ := h.goes_on (.lookup hf) rfl (hstack _) (h.store_jump 1)
      exact ⟨1, after, .single hadv, hs⟩
    | none =>
      cases hp : Primitive.ofName? name with
      | some p =>
        obtain ⟨after, hadv, hs⟩ := h.goes_on (.lookupPrimitive hf hp) rfl (hstack _)
          (h.store_jump 1)
        exact ⟨1, after, .single hadv, hs⟩
      | none => exact h.meets_fault (.unbound hf hp)

theorem definition {name : String}
    (h : m.Stands scope callers (.define name :: .pushConst .nil :: rest) (v :: stack) s) :
    m.Pushes n scope callers rest stack (Evaluation.define scope name v s) := by
  have harena := h.arena_jump 1
  unfold Evaluation.define
  cases hd : s.arena.define scope name v with
  | error fault =>
    simp only [Arena.define, bind_eq_error] at hd
    rcases hd with hg | ⟨_, -, hd⟩
    · exact h.meets_fault (.missingScope (harena.symm ▸ hg))
    · cases hd
  | ok arena =>
    obtain ⟨next, hdefine, hs⟩ := h.define hd
    obtain ⟨after, hpush, hs⟩ := hs.pushConst
    exact ⟨2, after, .succ hdefine (.single hpush), hs⟩

theorem primitive {p : Primitive} {vs : List Value} {argc : Int} (hn : argc = vs.length)
    (h : m.Stands scope callers (.callPrimitive p.name argc :: rest) (vs.reverse ++ stack) s) :
    m.Pushes n scope callers rest stack (Evaluation.ofExcept (p.apply vs) s) := by
  have hargc : argc.toNat = vs.length := by omega
  have hstack := h.stack_jump 1
  have hp := p.ofName?_name
  cases ha : p.apply vs with
  | error fault => exact h.meets_fault (.callPrimitive hstack hargc hp ha)
  | ok value =>
    obtain ⟨after, hadv, hs⟩ := h.goes_on (.callPrimitive hstack hargc hp ha) rfl rfl
      (h.store_jump 1)
    exact ⟨1, after, .single hadv, hs⟩

end Stands

/-! ## Calls -/

/-- **Calls come to their verdicts**: wherever an instruction calls a value with arguments. -/
def CallsMeet (n : Nat) (call : Evaluation.Call) : Prop :=
  ∀ (m : Machine) (scope : ScopeId) (callers : List Frame) (i : Instruction) (rest : Code)
    (stack below : List Value) (s : Store) (callee : Value) (args : List Value),
    m.Stands scope callers (i :: rest) stack s → callee.Compiled →
    (m.jump 1).execute scope i = (m.jump 1).callValue callee args (callee :: below) below →
    m.Pushes n scope callers rest below (call callee args s)

section Calls
variable {m : Machine} {scope : ScopeId} {callers : List Frame} {rest : Code}
  {stack below : List Value} {s : Store} {callee : Value} {n : Nat} {calls : Evaluation.Call}

theorem Stands.call (hcall : CallsMeet n calls) {args : List Value} {argc : Int}
    (hn : argc = args.length)
    (h : m.Stands scope callers (.call argc :: rest) (args.reverse ++ callee :: below) s) :
    m.Pushes n scope callers rest below (calls callee args s) := by
  subst hn
  have hcallee : callee.Compiled := h.compiled.stack _ (by rw [h.stack]; simp)
  refine hcall m scope callers _ rest _ below s callee args h hcallee ?_
  have hneg : ¬ (args.length : Int) < 0 := by omega
  simp only [execute, if_neg hneg, h.stack_jump, Int.toNat_natCast, callWith_append]

theorem Stands.apply (hcall : CallsMeet n calls) {list : Value}
    (h : m.Stands scope callers (.apply :: rest) (list :: callee :: below) s) :
    m.Pushes n scope callers rest below (Evaluation.spread calls callee list s) := by
  have hcallee : callee.Compiled := h.compiled.stack _ (by rw [h.stack]; simp)
  unfold Evaluation.spread
  cases hl : list.list? with
  | none => exact h.meets_fault (.notArguments (h.stack_jump 1) hl)
  | some items =>
    refine hcall m scope callers _ rest _ below s callee items h hcallee ?_
    simp only [execute, applyList, h.stack_jump, hl, callWith_append]

end Calls

end Machine

/-! ## The code of forms -/

namespace Code

open Machine (Stands Steps CallsMeet)

section Pushes
variable {n : Nat} {call : Evaluation.Call} {bound : List String} {scope : ScopeId}
  {callers : List Frame}

/-- A function is made of its template. -/
theorem EmitsFunction.pushes {params : Value} {body : List Value} {code rest : Code} {m : Machine}
    {stack : List Value} {s : Store} (he : EmitsFunction bound params body code)
    (h : m.Stands scope callers (code ++ rest) stack s) :
    m.Pushes n scope callers rest stack (Evaluation.function bound scope params body s) := by
  obtain ⟨hp, -, hc, -⟩ := he
  obtain ⟨next, hpush, hs⟩ := h.pushConst
  obtain ⟨after, hmake, hs⟩ := hs.makeClosure
  rw [Evaluation.function, hp, hc]
  exact ⟨2, after, .succ hpush (.single hmake), hs⟩

mutual

/-- **The code of a form comes to its verdict**, whatever is ahead of it and below on the stack. -/
theorem Emits.pushes (hcall : CallsMeet n call) :
    ∀ {form : Value} {code : Code}, Emits bound form code →
    ∀ {m : Machine} {rest : Code} {stack : List Value} {s : Store},
      m.Stands scope callers (code ++ rest) stack s →
      m.Pushes n scope callers rest stack (Evaluation.ofForm call bound scope form s)
  | _, _, .variable name, _, _, _, _, h => by
    rw [Evaluation.ofForm]
    exact h.lookup
  | _, _, .constant hv, _, _, _, _, h => by
    obtain ⟨after, hadv, hs⟩ := h.pushConst
    rw [Evaluation.ofForm_constant hv]
    exact ⟨1, after, .single hadv, hs⟩
  | _, _, .quoted datum, _, _, _, _, h => by
    obtain ⟨after, hadv, hs⟩ := h.pushConst
    rw [Evaluation.ofForm]
    exact ⟨1, after, .single hadv, hs⟩
  | _, _, .quotation ht, _, _, _, _, h => by
    obtain ⟨after, hadv, hs⟩ := h.pushConst
    rw [Evaluation.ofForm_quotation ht]
    exact ⟨1, after, .single hadv, hs⟩
  | _, _, .function ht _ hf, _, _, _, _, h => by
    rw [Evaluation.ofForm_function ht]
    exact hf.pushes h
  | _, _, .definition ht hv, _, _, _, _, h => by
    rw [List.append_assoc] at h
    rw [Evaluation.ofForm_definition ht]
    exact (hv.pushes hcall h).bind fun v s next hs => hs.definition
  | _, _, .functionDefinition ht hf, _, _, _, _, h => by
    rw [List.append_assoc] at h
    rw [Evaluation.ofForm_functionDefinition ht]
    exact (hf.pushes h).bind fun v s next hs => hs.definition
  | _, _, .conditional (y := y) (n := no) ht htest hyes hno, _, rest, _, _, h => by
    simp only [List.append_assoc, List.cons_append, List.nil_append] at h
    rw [Evaluation.ofForm_conditional ht]
    refine (htest.pushes hcall h).bind fun v s next hs => ?_
    obtain ⟨after, hjump, hs⟩ := hs.jumpIfFalsy (k := y.length + 2)
    refine Machine.Meets.of_steps (.single hjump) ?_
    cases hv : v.isFalsy with
    | true =>
      -- the jump goes over the consequent and the two instructions that end it
      have hskip : (y ++ .pushConst (.bool false) :: .jumpIfFalsy no.length :: (no ++ rest)).drop
          (y.length + 2) = no ++ rest := by
        rw [← List.drop_drop, List.drop_left]
        rfl
      rw [hv, if_pos rfl, hskip] at hs
      exact hno.pushes hcall hs
    | false =>
      rw [hv, if_neg Bool.false_ne_true] at hs
      refine Machine.Meets.then (hyes.pushes hcall hs) fun v s next hs => ?_
      obtain ⟨after, hgoto, hs⟩ := hs.goto
      rw [List.drop_left] at hs
      exact ⟨2, after, hgoto, hs⟩
  | _, _, .conjunction ht hs, _, _, _, _, h => by
    rw [Evaluation.ofForm_conjunction ht]
    exact hs.pushes hcall h
  | _, _, .disjunction ht hs, _, _, _, _, h => by
    rw [Evaluation.ofForm_disjunction ht]
    exact hs.pushes hcall h
  | _, _, .spread ht hf ha, _, _, _, _, h => by
    simp only [List.append_assoc] at h
    rw [Evaluation.ofForm_spread ht]
    refine (hf.pushes hcall h).bind fun f s next hs => ?_
    exact (ha.pushes hcall hs).bind fun v s next hs => hs.apply hcall
  | _, _, .display ht ha, _, _, _, _, h => by
    rw [List.append_assoc] at h
    rw [Evaluation.ofForm_display ht]
    refine (ha.pushes hcall h).bind fun v s next hs => ?_
    obtain ⟨after, hadv, hs⟩ := hs.display
    exact ⟨1, after, .single hadv, hs⟩
  | _, _, .primitive ho ht hp ha hs, _, _, _, _, h => by
    rw [List.append_assoc] at h
    rw [Evaluation.ofForm_application ho ht, Evaluation.application, hp]
    refine (hs.pushes hcall h).bind fun vs s next hs => ?_
    exact hs.2.primitive (congrArg _ hs.1.symm)
  | _, _, .call ho ht hp hf hs, _, _, _, _, h => by
    simp only [List.append_assoc] at h
    rw [Evaluation.ofForm_application ho ht, Evaluation.application, hp]
    refine (hf.pushes hcall h).bind fun f s next hf => ?_
    refine (hs.pushes hcall hf).bind fun vs s next hs => ?_
    exact hs.2.call hcall (congrArg _ hs.1.symm)

theorem EmitsEach.pushes (hcall : CallsMeet n call) :
    ∀ {forms : List Value} {code : Code}, EmitsEach bound forms code →
    ∀ {m : Machine} {rest : Code} {stack : List Value} {s : Store},
      m.Stands scope callers (code ++ rest) stack s →
      m.Meets n (fun vs s last => vs.length = forms.length ∧
          last.Stands scope callers rest (vs.reverse ++ stack) s)
        (Evaluation.each (forms.map (Evaluation.ofForm call bound scope)) s)
  | _, _, .nil, m, _, _, _, h => ⟨0, m, .zero m, rfl, h⟩
  | _, _, .cons hf hs, _, _, stack, _, h => by
    rw [List.append_assoc] at h
    refine (hf.pushes hcall h).bind fun v s next hv => ?_
    refine (hs.pushes hcall hv).bind fun vs s next hvs => ?_
    refine ⟨0, next, .zero next, congrArg (· + 1) hvs.1, ?_⟩
    rw [List.reverse_cons, List.append_assoc]
    exact hvs.2

theorem EmitsAnd.pushes (hcall : CallsMeet n call) :
    ∀ {forms : List Value} {code : Code}, EmitsAnd bound forms code →
    ∀ {m : Machine} {rest : Code} {stack : List Value} {s : Store},
      m.Stands scope callers (code ++ rest) stack s →
      m.Pushes n scope callers rest stack
        (Evaluation.conjunction (forms.map (Evaluation.ofForm call bound scope)) s)
  | _, _, .nil, _, _, _, _, h => by
    obtain ⟨after, hadv, hs⟩ := h.pushConst
    exact ⟨1, after, .single hadv, hs⟩
  | _, _, .last hf, _, _, _, _, h => hf.pushes hcall h
  | _, _, .cons (d := d) hne hf hs, _, rest, _, _, h => by
    simp only [List.append_assoc, List.cons_append, List.nil_append] at h
    rw [List.map_cons, Evaluation.conjunction_cons (mt List.map_eq_nil_iff.mp hne)]
    refine (hf.pushes hcall h).bind fun v s next hv => ?_
    obtain ⟨after, hjump, hv⟩ := hv.jumpIfTruthy (k := 2)
    refine Machine.Meets.of_steps (.single hjump) ?_
    cases hfalsy : v.isFalsy with
    | true =>
      -- the value decides, and stays
      rw [hfalsy, if_pos rfl] at hv
      obtain ⟨last, hgoto, hv⟩ := hv.goto (k := 1 + d.length)
      rw [Nat.add_comm, List.drop_succ_cons, List.drop_left] at hv
      exact ⟨2, last, hgoto, hv⟩
    | false =>
      rw [hfalsy, if_neg Bool.false_ne_true] at hv
      obtain ⟨last, hpop, hv⟩ := hv.pop
      exact Machine.Meets.of_steps (.single hpop) (hs.pushes hcall hv)

theorem EmitsOr.pushes (hcall : CallsMeet n call) :
    ∀ {forms : List Value} {code : Code}, EmitsOr bound forms code →
    ∀ {m : Machine} {rest : Code} {stack : List Value} {s : Store},
      m.Stands scope callers (code ++ rest) stack s →
      m.Pushes n scope callers rest stack
        (Evaluation.disjunction (forms.map (Evaluation.ofForm call bound scope)) s)
  | _, _, .nil, _, _, _, _, h => by
    obtain ⟨after, hadv, hs⟩ := h.pushConst
    exact ⟨1, after, .single hadv, hs⟩
  | _, _, .last hf, _, _, _, _, h => hf.pushes hcall h
  | _, _, .cons (d := d) hne hf hs, _, rest, _, _, h => by
    simp only [List.append_assoc, List.cons_append, List.nil_append] at h
    rw [List.map_cons, Evaluation.disjunction_cons (mt List.map_eq_nil_iff.mp hne)]
    refine (hf.pushes hcall h).bind fun v s next hv => ?_
    obtain ⟨after, hjump, hv⟩ := hv.jumpIfTruthy (k := 1 + d.length)
    refine Machine.Meets.of_steps (.single hjump) ?_
    cases hfalsy : v.isFalsy with
    | true =>
      rw [hfalsy, if_pos rfl] at hv
      obtain ⟨last, hpop, hv⟩ := hv.pop
      exact Machine.Meets.of_steps (.single hpop) (hs.pushes hcall hv)
    | false =>
      rw [hfalsy, if_neg Bool.false_ne_true, Nat.add_comm, List.drop_succ_cons,
        List.drop_left] at hv
      exact ⟨0, after, .zero after, hv⟩

end

/-- The code of a body comes to the value that is returned. -/
theorem EmitsBody.pushes (hcall : CallsMeet n call) {forms : List Value} {code : Code}
    (he : EmitsBody bound forms code) {m : Machine} {stack : List Value} {s : Store}
    (h : m.Stands scope callers code stack s) :
    m.Pushes n scope callers [.ret] stack (Evaluation.ofBody call bound scope forms s) := by
  induction forms generalizing code m s with
  | nil => cases he
  | cons form forms ih =>
    cases he with
    | last hf => exact hf.pushes hcall h
    | cons hf hs =>
      have hne : forms ≠ [] := by
        rintro rfl
        cases hs
      rw [Evaluation.ofBody, List.map_cons,
        Evaluation.sequence_cons (mt List.map_eq_nil_iff.mp hne)]
      refine (hf.pushes hcall h).bind fun v s next hv => ?_
      obtain ⟨after, hpop, hv⟩ := hv.pop
      exact Machine.Meets.of_steps (.single hpop) (ih hs hv)

end Pushes

end Code

namespace Machine

/-! ## All depths -/

/-- **Calls come to their verdicts** at every depth, since the call itself takes a step. -/
theorem callsMeet_ofCall (sources : Code.Sources) (n : Nat) :
    CallsMeet n (Evaluation.ofCall sources n) := by
  induction n with
  | zero => exact fun m _ _ _ _ _ _ _ _ _ _ _ _ => ⟨m, .zero m⟩
  | succ n ih =>
    intro m scope callers i rest stack below s callee args h hcallee he
    have hfails : ∀ {fault}, (m.jump 1).Uncalled args callee fault →
        (m.jump 1).Fails scope i fault := fun hf =>
      execute_eq_error.mp (he.trans (callValue_eq_error.mpr hf))
    have hcalled : ∀ {next}, (m.jump 1).Called args (callee :: below) below callee next →
        (m.jump 1).Effect scope i next := fun hc =>
      execute_eq_ok.mp (he.trans (callValue_eq_ok.mpr hc))
    cases callee with
    | closure params code closed =>
      cases hb : params.bind args with
      | error fault =>
        rw [Evaluation.ofCall_closure_arguments hb]
        exact h.meets_fault (hfails (.arguments hb))
      | ok bindings =>
        cases ha : s.arena.allocate bindings closed with
        | error fault =>
          rw [Evaluation.ofCall_closure_missing hb ha]
          obtain ⟨hmissing, rfl⟩ := allocate_eq_error.mp ha
          exact h.meets_fault (hfails (.missingParent hb ((h.arena_jump 1).symm ▸ hmissing)))
        | ok r =>
          obtain ⟨id, arena⟩ := r
          rw [Evaluation.ofCall_closure hb ha]
          have hstore : (⟨arena, (m.jump 1).output⟩ : Store) = { s with arena := arena } := by
            rw [← h.store_jump 1]
            rfl
          obtain ⟨next, caller, hadv, hip, rfl, rfl, hnext⟩ := h.enter
            (hcalled (.closure hb ((h.arena_jump 1).symm ▸ ha))) rfl rfl hstore rfl
          have hcode : Code.Compiled code := by
            cases hcallee
            assumption
          have hbody := (Code.emitsBody_of_ofBody (sources.body_ne_nil code hcode)
            (sources.ofBody_body code hcode)).pushes ih hnext
          refine Meets.of_step hadv (hbody.then fun v s next hs => ?_)
          obtain ⟨after, hret, hs⟩ := hs.ret hip
          exact ⟨1, after, .single hret, hs⟩
    | symbol name =>
      cases hp : Primitive.ofName? name with
      | none =>
        rw [Evaluation.ofCall_symbol_none hp]
        refine h.meets_fault (hfails (.notFunction (fun _ _ _ => nofun) fun name hn => ?_))
        cases hn
        exact hp
      | some p =>
        rw [Evaluation.ofCall_symbol hp]
        cases ha : p.apply args with
        | error fault => exact h.meets_fault (hfails (.primitive hp ha))
        | ok v =>
          obtain ⟨after, hadv, hs⟩ := h.goes_on (hcalled (.primitive hp ha)) rfl rfl
            (h.store_jump 1)
          exact ⟨1, after, .single hadv, hs⟩
    | _ => exact h.meets_fault (hfails (.notFunction (fun _ _ _ => nofun) fun _ => nofun))

end Machine

end StackLisp
