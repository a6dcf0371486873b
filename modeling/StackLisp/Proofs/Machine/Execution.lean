import StackLisp.Proofs.Arena.Environment
import StackLisp.Proofs.Machine.Discipline
import StackLisp.Proofs.Machine.WellFormed

/-!
# Executing given code

What a given piece of code does can be computed, as far as it neither calls nor defines: then it
only moves values on the stack, and all it asks the arena for are the values of names.
`Code.settle` is that computation, with an environment instead of an arena.

A machine that comes **before** some code (`Machine.Before`) shows the environment of the scope that
the code runs in, and those of scopes further out that the callers need.  From there it goes where
`Code.settle` says (`Before.settle`), it may define names (`Before.define`), and a call of a closure
does what the body does in a new scope (`answers_closure`).  Collections may happen at any call:
whatever is shown belongs to the frames or to the global scope, and stays.

What a call comes to is said by `Machine.Answers`, for whoever calls: the value on the stack in
place of the function and its arguments, and all else as before, or the fault that stops the
machine.  A program that comes to a return ends with what it returns (`Returns.run`).
-/

namespace StackLisp

/-! ## Instructions that only work on the stack -/

namespace Instruction

/-- **What an instruction does that only works on the stack**: how many instructions it jumps over
and the stack after it.  There is none for other instructions and where too little is on the
stack. -/
@[simp] def onStack? (env : Environment) (scope : ScopeId) :
    Instruction → List Value → Option (Except Fault (Nat × List Value))
  | .pushConst v, stack => some (.ok (0, v :: stack))
  | .pop, _ :: stack => some (.ok (0, stack))
  | .lookup name, stack =>
    match env.get? name, Primitive.ofName? name with
    | some v, _ => some (.ok (0, v :: stack))
    | none, some _ => some (.ok (0, .symbol name :: stack))
    | none, none => some (.error (.unbound name))
  | .jumpIfFalsy offset, v :: stack =>
    if 0 ≤ offset then some (.ok (if v.isFalsy then offset.toNat else 0, stack)) else none
  | .makeClosure, .template params code :: stack =>
    some (.ok (0, .closure params code scope :: stack))
  | .callPrimitive name argc, stack =>
    match Primitive.ofName? name with
    | some p =>
      if argc.toNat ≤ stack.length then
        match p.apply (stack.take argc.toNat).reverse with
        | .ok value => some (.ok (0, value :: stack.drop argc.toNat))
        | .error fault => some (.error fault)
      else none
    | none => none
  | _, _ => none

end Instruction

namespace Code

/-- **Executes code as far as it only works on the stack**, from behind the next `skip`
instructions: the code that is left, and the stack before it. -/
@[simp] def settle (env : Environment) (scope : ScopeId) :
    Nat → Code → List Value → Except Fault (Code × List Value)
  | _, [], stack => .ok ([], stack)
  | skip + 1, _ :: code, stack => settle env scope skip code stack
  | 0, i :: code, stack =>
    match i.onStack? env scope stack with
    | some (.ok (skip, stack)) => settle env scope skip code stack
    | some (.error fault) => .error fault
    | none => .ok (i :: code, stack)

/-- The instructions to skip do not matter. -/
theorem settle_eq_drop (env : Environment) (scope : ScopeId) (skip : Nat) (code : Code)
    (stack : List Value) :
    settle env scope skip code stack = settle env scope 0 (code.drop skip) stack := by
  induction code generalizing skip with
  | nil => cases skip <;> rfl
  | cons i code ih =>
    cases skip with
    | zero => rfl
    | succ skip => exact ih skip

end Code

/-- How a run ends that comes to a result. -/
def Outcome.ofExcept : Except Fault Value → Outcome
  | .ok v => .value v
  | .error f => .fault f

namespace Machine

/-! ## What a machine comes to -/

/-- **A machine comes to a result**: to a machine of which `P` holds with the value, or to a step
that fails. -/
def Gives {α : Type} (m : Machine) (P : α → Machine → Prop) : Except Fault α → Prop
  | .ok a => ∃ n last, Steps n m last ∧ P a last
  | .error fault => ∃ n last, Steps n m last ∧ last.halted = false ∧ last.advance = .error fault

section Gives
variable {α β : Type} {n : Nat} {m next : Machine} {P : α → Machine → Prop}
  {Q : β → Machine → Prop} {r : Except Fault α}

theorem Gives.of_steps (hs : Steps n m next) (h : next.Gives P r) : m.Gives P r := by
  cases r with
  | ok a =>
    obtain ⟨k, last, hk, hp⟩ := h
    exact ⟨n + k, last, hs.trans hk, hp⟩
  | error fault =>
    obtain ⟨k, last, hk, hf⟩ := h
    exact ⟨n + k, last, hs.trans hk, hf⟩

theorem Gives.of_advance (ha : m.advance = .ok next) (h : next.Gives P r) : m.Gives P r :=
  h.of_steps (.single ha)

theorem Gives.pure {a : α} (h : P a m) : m.Gives P (.ok a) :=
  ⟨0, m, .zero m, h⟩

/-- **One computation after the other.** -/
theorem Gives.bind {f : α → Except Fault β} (h : m.Gives P r)
    (hf : ∀ a next, P a next → next.Gives Q (f a)) : m.Gives Q (r >>= f) := by
  cases r with
  | ok a =>
    obtain ⟨n, next, hs, hp⟩ := h
    exact (hf a next hp).of_steps hs
  | error fault => exact h

end Gives

/-! ## Collections -/

section NoteAllocation
variable {m : Machine}

/-- What scopes of frames show stays when an allocation is noted, and so does what the global scope
shows. -/
theorem shows_noteAllocation {id : ScopeId} {env : Environment} (h : m.arena.Shows id env)
    (hid : id = Arena.globalId ∨ ∃ f ∈ m.frames, f.scope = id) :
    m.noteAllocation.arena.Shows id env := by
  have hr : m.Reached id := by
    rcases hid with rfl | ⟨f, hf, rfl⟩
    · exact reached_global m
    · exact reached_frame hf
  unfold noteAllocation
  simp only
  split
  · exact h.collect hr
  · exact h

theorem fresh_noteAllocation (h : ∀ id, m.arena.contains id = true → id < m.arena.nextId)
    (id : ScopeId) (hid : m.noteAllocation.arena.contains id = true) :
    id < m.noteAllocation.arena.nextId := by
  rw [noteAllocation_nextId]
  refine h id ?_
  unfold noteAllocation at hid
  simp only at hid
  split at hid
  · obtain ⟨s, hs⟩ := Arena.contains_iff.mp hid
    exact Arena.contains_iff.mpr ⟨s, (Arena.reached_of_get?_collect hs).1⟩
  · exact hid

end NoteAllocation

/-! ## Machines before code -/

/-- **A machine before some code**, in a scope with an environment, above its callers and with
given values on the stack.  The environments of the `outer` scopes are known too; these are the
scopes of callers, or global. -/
structure Before (m : Machine) (scope : ScopeId) (env : Environment)
    (outer : List (ScopeId × Environment)) (callers : List Frame) (rest : Code)
    (stack : List Value) : Prop where
  frames : ∃ f : Frame, m.frames = f :: callers ∧ f.scope = scope ∧ 0 ≤ f.ip ∧ f.ahead = rest
  stack : m.stack = stack
  fresh : ∀ id, m.arena.contains id = true → id < m.arena.nextId
  shows : m.arena.Shows scope env
  outer : ∀ p ∈ outer, m.arena.Shows p.1 p.2 ∧ p.1 < scope ∧
    (p.1 = Arena.globalId ∨ ∃ f ∈ callers, f.scope = p.1)

namespace Before
variable {m next : Machine} {scope : ScopeId} {env : Environment}
  {outer : List (ScopeId × Environment)} {callers : List Frame} {i : Instruction} {rest : Code}
  {stack : List Value} {α : Type} {P : α → Machine → Prop} {r : Except Fault α}

theorem not_halted (h : m.Before scope env outer callers rest stack) : m.halted = false := by
  obtain ⟨f, hf, -⟩ := h.frames
  simp [halted, hf]

theorem advance_eq (h : m.Before scope env outer callers (i :: rest) stack) :
    m.advance = do
      let after ← (m.jump 1).execute scope i
      return { after with steps := after.steps + 1 } := by
  obtain ⟨f, hf, rfl, hip, ha⟩ := h.frames
  exact advance_of_ahead hf hip ha

theorem advance_of_effect (h : m.Before scope env outer callers (i :: rest) stack)
    (he : (m.jump 1).Effect scope i next) :
    m.advance = .ok { next with steps := next.steps + 1 } := by
  rw [h.advance_eq, execute_of_effect he]
  rfl

theorem advance_of_fails (h : m.Before scope env outer callers (i :: rest) stack) {fault : Fault}
    (hf : (m.jump 1).Fails scope i fault) : m.advance = .error fault := by
  rw [h.advance_eq, execute_eq_error.mpr hf]
  rfl

theorem stack_jump (h : m.Before scope env outer callers rest stack) (offset : Int) :
    (m.jump offset).stack = stack := by
  rw [jump_stack, h.stack]

/-- A step that fails. -/
theorem gives_error (h : m.Before scope env outer callers (i :: rest) stack) {fault : Fault}
    (hf : (m.jump 1).Fails scope i fault) : m.Gives P (.error fault) :=
  ⟨0, m, .zero m, h.not_halted, h.advance_of_fails hf⟩

/-- **An instruction that leaves the arena alone** and jumps over the next `n`. -/
theorem goes_on (h : m.Before scope env outer callers (i :: rest) stack)
    (he : (m.jump 1).Effect scope i next) {n : Nat}
    (hf : next.frames = ((m.jump 1).jump n).frames) (ha : next.arena = m.arena) :
    ∃ after, m.advance = .ok after ∧
      after.Before scope env outer callers (rest.drop n) next.stack := by
  obtain ⟨f, hframes, hscope, hip, hahead⟩ := h.frames
  refine ⟨_, h.advance_of_effect he, ⟨{ f with ip := f.ip + 1 + n }, ?_, hscope, ?_, ?_⟩, rfl,
    ?_, ?_, ?_⟩
  · simpa [jump, hframes] using hf
  · show 0 ≤ f.ip + 1 + (n : Int)
    omega
  · exact Frame.ahead_move hip hahead n
  · exact ha ▸ h.fresh
  · exact ha ▸ h.shows
  · exact ha ▸ h.outer

/-- An instruction that leaves the arena alone and goes on with the next. -/
theorem goes_on_next (h : m.Before scope env outer callers (i :: rest) stack)
    (he : (m.jump 1).Effect scope i next) (hf : next.frames = (m.jump 1).frames)
    (ha : next.arena = m.arena) :
    ∃ after, m.advance = .ok after ∧ after.Before scope env outer callers rest next.stack := by
  refine h.goes_on he (n := 0) (hf.trans ?_) ha
  obtain ⟨f, hframes, -⟩ := h.frames
  simp [jump, hframes]

/-! ### Single steps -/

/-- **Instructions do what is said of the stack**, and nothing else. -/
theorem step (h : m.Before scope env outer callers (i :: rest) stack)
    {result : Except Fault (Nat × List Value)} (hi : i.onStack? env scope stack = some result) :
    m.Gives (fun p after => after.Before scope env outer callers (rest.drop p.1) p.2) result := by
  have succeeds {skip : Nat} {stack' : List Value} {next : Machine}
      (he : (m.jump 1).Effect scope i next) (hf : next.frames = ((m.jump 1).jump skip).frames)
      (ha : next.arena = m.arena) (hs : next.stack = stack') :
      m.Gives (fun p after => after.Before scope env outer callers (rest.drop p.1) p.2)
        (.ok (skip, stack')) := by
    obtain ⟨after, hadv, hb⟩ := h.goes_on he hf ha
    exact ⟨1, after, .single hadv, hs ▸ hb⟩
  have hzero : (m.jump 1).frames = ((m.jump 1).jump (0 : Nat)).frames := by
    obtain ⟨f, hframes, -⟩ := h.frames
    simp [jump, hframes]
  have hs := h.stack_jump 1
  have ha : (m.jump 1).arena = m.arena := jump_arena 1
  cases i with
  | pushConst v =>
    cases hi
    exact succeeds (.pushConst v) hzero ha (congrArg _ hs)
  | pop =>
    cases stack with
    | nil => cases hi
    | cons v stack =>
      cases hi
      exact succeeds (.pop hs) hzero ha rfl
  | lookup name =>
    obtain ⟨found, hf, hfound⟩ := h.shows.find name
    rw [← ha] at hf
    simp only [Instruction.onStack?, ← hfound] at hi
    cases found with
    | some found =>
      cases hi
      exact succeeds (.lookup hf) hzero ha (congrArg _ hs)
    | none =>
      cases hp : Primitive.ofName? name with
      | some p =>
        simp only [hp, Option.map_none, Option.some.injEq] at hi
        subst hi
        exact succeeds (.lookupPrimitive hf hp) hzero ha (congrArg _ hs)
      | none =>
        simp only [hp, Option.map_none, Option.some.injEq] at hi
        subst hi
        exact h.gives_error (.unbound hf hp)
  | jumpIfFalsy offset =>
    cases stack with
    | nil => cases hi
    | cons v stack =>
      simp only [Instruction.onStack?] at hi
      split at hi
      · rename_i hle
        obtain ⟨n, rfl⟩ := Int.eq_ofNat_of_zero_le hle
        cases hi
        have he : (m.jump 1).Effect scope (.jumpIfFalsy n) _ := .jumpIfFalsy hs
        cases hv : v.isFalsy with
        | true =>
          rw [hv] at he
          refine succeeds he ?_ (by simp) (by simp)
          obtain ⟨f, hframes, -⟩ := h.frames
          simp [jump, hframes]
        | false =>
          rw [hv] at he
          exact succeeds he hzero ha rfl
      · cases hi
  | makeClosure =>
    rcases stack with _ | ⟨v, stack⟩
    · cases hi
    · cases v with
      | template params code =>
        cases hi
        exact succeeds (.makeClosure hs) hzero ha rfl
      | _ => cases hi
  | callPrimitive name argc =>
    simp only [Instruction.onStack?] at hi
    split at hi
    · rename_i p hp
      split at hi
      · rename_i hle
        have hargs : (m.jump 1).stack =
            (stack.take argc.toNat).reverse.reverse ++ stack.drop argc.toNat := by
          rw [List.reverse_reverse, List.take_append_drop, hs]
        have hlen : argc.toNat = (stack.take argc.toNat).reverse.length := by
          rw [List.length_reverse, List.length_take, Nat.min_eq_left hle]
        cases hr : p.apply (stack.take argc.toNat).reverse with
        | ok value =>
          rw [hr] at hi
          cases hi
          exact succeeds (.callPrimitive hargs hlen hp hr) hzero ha rfl
        | error fault =>
          rw [hr] at hi
          cases hi
          exact h.gives_error (.callPrimitive hargs hlen hp hr)
      · cases hi
    · cases hi
  | _ => cases hi

/-- **Code that only works on the stack does what was computed**, also from behind some
instructions. -/
theorem settle_drop {n : Nat} (h : m.Before scope env outer callers (rest.drop n) stack) :
    m.Gives (fun p after => after.Before scope env outer callers p.1 p.2)
      (Code.settle env scope n rest stack) := by
  induction rest generalizing m n stack with
  | nil =>
    rw [List.drop_nil] at h
    cases n <;> exact .pure h
  | cons i code ih =>
    cases n with
    | succ n => exact ih h
    | zero =>
      unfold Code.settle
      cases hi : i.onStack? env scope stack with
      | none => exact .pure h
      | some result =>
        have hstep := h.step hi
        cases result with
        | error fault => exact hstep
        | ok p =>
          obtain ⟨n, after, hs, hb⟩ := hstep
          exact (ih hb).of_steps hs

theorem settle (h : m.Before scope env outer callers rest stack) :
    m.Gives (fun p after => after.Before scope env outer callers p.1 p.2)
      (Code.settle env scope 0 rest stack) :=
  h.settle_drop (n := 0)

/-- What the machine comes to behind such code. -/
theorem settles (h : m.Before scope env outer callers rest stack) (rest' : Code)
    (stack' : List Value) (hs : Code.settle env scope 0 rest stack = .ok (rest', stack'))
    (hnext : ∀ next : Machine, next.Before scope env outer callers rest' stack' →
      next.Gives P r) : m.Gives P r := by
  have hsettle := h.settle
  rw [hs] at hsettle
  obtain ⟨n, next, hsteps, hb⟩ := hsettle
  exact (hnext next hb).of_steps hsteps

/-! ### Definitions, calls and returns -/

/-- **A definition** changes the environment of the scope. -/
theorem define {vars : Bindings} {name : String} {v : Value}
    (h : m.Before scope (vars :: env) outer callers (.define name :: rest) (v :: stack)) :
    ∃ after, m.advance = .ok after ∧
      after.Before scope (vars.set name v :: env) outer callers rest stack := by
  obtain ⟨f, hframes, hscope, hip, hahead⟩ := h.frames
  obtain ⟨b, hd, hshows⟩ := h.shows.define name v
  have he : (m.jump 1).Effect scope (.define name) { m.jump 1 with stack := stack, arena := b } :=
    .define (h.stack_jump 1) ((jump_arena 1).symm ▸ hd)
  refine ⟨_, h.advance_of_effect he, ⟨{ f with ip := f.ip + 1 }, ?_, hscope, ?_, ?_⟩, rfl, ?_,
    hshows, ?_⟩
  · simp [jump, hframes]
  · exact Int.add_nonneg hip (by decide)
  · simpa using Frame.ahead_move hip hahead 0
  · exact fun id hid => (Arena.Changed.defined hd).fresh h.fresh hid
  · exact fun p hp => (h.outer p hp).imp_left fun hs => hs.define_of_lt hd (h.outer p hp).2.1

/-- The scopes that are shown belong to frames, or are global, also while a call is running. -/
theorem held (h : m.Before scope env outer callers rest stack) {p : ScopeId × Environment}
    (hp : p ∈ (scope, env) :: outer) (caller : Frame) (hc : caller.scope = scope) :
    m.arena.Shows p.1 p.2 ∧
      (p.1 = Arena.globalId ∨ ∃ f ∈ caller :: callers, f.scope = p.1) := by
  rcases List.mem_cons.mp hp with rfl | hp
  · exact ⟨h.shows, .inr ⟨caller, List.mem_cons_self, hc⟩⟩
  · obtain ⟨hs, -, hheld⟩ := h.outer p hp
    exact ⟨hs, hheld.imp_right fun ⟨f, hf, he⟩ => ⟨f, List.mem_cons_of_mem _ hf, he⟩⟩

/-- **The call of a closure**, before whose code the machine then is. -/
theorem enter {params : Parameters} {code : Code} {closed : ScopeId} {env' : Environment}
    {vars : Bindings} {args below : List Value}
    (h : m.Before scope env outer callers (.call args.length :: rest)
      (args.reverse ++ .closure params code closed :: below))
    (hb : params.bind args = .ok vars) (hclosed : (closed, env') ∈ (scope, env) :: outer) :
    ∃ after caller id, m.advance = .ok after ∧ 0 ≤ caller.ip ∧ caller.scope = scope ∧
      caller.ahead = rest ∧ after.Before id (vars :: env') ((scope, env) :: outer)
        (caller :: callers) code (.closure params code closed :: below) := by
  obtain ⟨f, hframes, hscope, hip, hahead⟩ := h.frames
  have hparent : m.arena.Shows closed env' := (h.held hclosed f hscope).1
  obtain ⟨b, halloc⟩ : ∃ b, m.arena.allocate vars closed = .ok (m.arena.nextId, b) := by
    simp [Arena.allocate, hparent.contains]
  have hframes' : (m.jump 1).frames = { f with ip := f.ip + 1 } :: callers := by
    simp [jump, hframes]
  have halloc' : (m.jump 1).arena.allocate vars closed = .ok (m.arena.nextId, b) := by
    rw [jump_arena, halloc]
  have hadv := h.advance_of_effect (.call (h.stack_jump 1) rfl (.closure hb halloc'))
  refine ⟨_, { f with ip := f.ip + 1 }, m.arena.nextId, hadv, Int.add_nonneg hip (by decide),
    hscope, ?_, ⟨⟨code, 0, m.arena.nextId⟩, ?_, rfl, Int.le_refl 0, rfl⟩, noteAllocation_stack, ?_,
    ?_, fun p hp => ?_⟩
  · simpa using Frame.ahead_move hip hahead 0
  · rw [noteAllocation_frames, hframes']
  · have hchanged : m.arena.Changed closed b := .allocated halloc
    exact fresh_noteAllocation fun id hid => hchanged.fresh h.fresh hid
  · exact shows_noteAllocation (hparent.of_allocate halloc h.fresh)
      (.inr ⟨_, List.mem_cons_self, rfl⟩)
  · obtain ⟨hs, hheld⟩ := h.held hp { f with ip := f.ip + 1 } hscope
    refine ⟨shows_noteAllocation (hs.allocate halloc h.fresh) (hheld.imp_right ?_),
      h.fresh p.1 hs.contains, hheld⟩
    rintro ⟨g, hg, he⟩
    exact ⟨g, List.mem_cons_of_mem _ (hframes'.symm ▸ hg), he⟩

/-- The return from the program. -/
theorem finish {v : Value} (h : m.Before scope env outer [] (.ret :: rest) (v :: stack)) :
    ∃ after, m.advance = .ok after ∧ after.frames = [] ∧ after.stack = v :: stack := by
  obtain ⟨f, hframes, -⟩ := h.frames
  have hf : (m.jump 1).frames = [{ f with ip := f.ip + 1 }] := by
    simp [jump, hframes]
  exact ⟨_, h.advance_of_effect (.finish hf (h.stack_jump 1)), rfl, h.stack_jump 1⟩

/-- The return from a call, to the caller's frame. -/
theorem ret {id : ScopeId} {env' : Environment} {caller : Frame} {rest' : Code} {v : Value}
    {params : Parameters} {code : Code} {closed : ScopeId}
    (h : m.Before id env' ((scope, env) :: outer) (caller :: callers) (.ret :: rest')
      (v :: .closure params code closed :: stack))
    (hscope : caller.scope = scope) (hip : 0 ≤ caller.ip) (hahead : caller.ahead = rest)
    (houter : ∀ p ∈ outer, p.1 < scope ∧
      (p.1 = Arena.globalId ∨ ∃ f ∈ callers, f.scope = p.1)) :
    ∃ after, m.advance = .ok after ∧
      after.Before scope env outer callers rest (v :: stack) := by
  obtain ⟨f, hframes, -⟩ := h.frames
  have hf : (m.jump 1).frames = { f with ip := f.ip + 1 } :: caller :: callers := by
    simp [jump, hframes]
  have ha : (m.jump 1).arena = m.arena := jump_arena 1
  refine ⟨_, h.advance_of_effect (.ret hf (h.stack_jump 1)),
    ⟨caller, rfl, hscope, hip, hahead⟩, rfl, ?_, ?_, fun p hp => ⟨?_, houter p hp⟩⟩
  · exact ha ▸ h.fresh
  · exact ha ▸ (h.outer _ List.mem_cons_self).1
  · exact ha ▸ (h.outer p (List.mem_cons_of_mem _ hp)).1

end Before

/-! ## What calls come to -/

/-- **A machine comes to a return** from where it is, with the result of a call. -/
def Returns (m : Machine) (scope : ScopeId) (outer : List (ScopeId × Environment))
    (callers : List Frame) (stack : List Value) (r : Except Fault Value) : Prop :=
  m.Gives (fun v last => ∃ env rest,
    last.Before scope env outer callers (.ret :: rest) (v :: stack)) r

/-- **The answer to a call** of a value, wherever the known scopes are shown: its value stands in
place of the function and its arguments. -/
def Answers (known : List (ScopeId × Environment)) (callee : Value) (args : List Value)
    (r : Except Fault Value) : Prop :=
  ∀ ⦃m : Machine⦄ ⦃scope : ScopeId⦄ ⦃env : Environment⦄ ⦃outer : List (ScopeId × Environment)⦄
    ⦃callers : List Frame⦄ ⦃rest : Code⦄ ⦃below : List Value⦄, known ⊆ (scope, env) :: outer →
    m.Before scope env outer callers (.call args.length :: rest) (args.reverse ++ callee :: below) →
    m.Gives (fun v after => after.Before scope env outer callers rest (v :: below)) r

section Answers
variable {known known' : List (ScopeId × Environment)} {callee : Value} {args : List Value}
  {r : Except Fault Value}

theorem Answers.mono (h : Answers known callee args r) (hk : known ⊆ known') :
    Answers known' callee args r :=
  fun _ _ _ _ _ _ _ hsub hm => h (List.Subset.trans hk hsub) hm

section Before
variable {m : Machine} {scope : ScopeId} {env : Environment} {outer : List (ScopeId × Environment)}
  {callers : List Frame} {rest : Code} {stack below : List Value} {argc : Int}

/-- **The machine after a call**: what comes next goes on from the call's answer. -/
theorem Before.calls {α : Type} {P : α → Machine → Prop} {result : Except Fault α}
    (hm : m.Before scope env outer callers (.call argc :: rest) stack)
    (h : Answers known callee args r) (hk : known ⊆ (scope, env) :: outer)
    (hargc : argc = args.length) (hs : stack = args.reverse ++ callee :: below)
    (next : Value → Except Fault α) (hresult : result = r >>= next)
    (hnext : ∀ (v : Value) (after : Machine),
      after.Before scope env outer callers rest (v :: below) → after.Gives P (next v)) :
    m.Gives P result := by
  subst hargc hs hresult
  exact (h hk hm).bind hnext

/-- Code that only works on the stack and then returns. -/
theorem Before.returns {v : Value} (hm : m.Before scope env outer callers rest stack)
    (hs : Code.settle env scope 0 rest stack = .ok ([.ret], v :: below)) :
    m.Returns scope outer callers below (.ok v) :=
  hm.settles _ _ hs fun _ hb => .pure ⟨_, _, hb⟩

/-- A call whose answer is returned. -/
theorem Before.returns_call (args : List Value)
    (hm : m.Before scope env outer callers (.call argc :: .ret :: rest) stack)
    (h : Answers known callee args r) (hk : known ⊆ (scope, env) :: outer)
    (hargc : argc = args.length) (hs : stack = args.reverse ++ callee :: below) :
    m.Returns scope outer callers below r :=
  hm.calls h hk hargc hs .ok (bind_pure r).symm fun _ _ hb => .pure ⟨_, _, hb⟩

end Before

/-- **The answer of a primitive.** -/
theorem answers_primitive (p : Primitive) (args : List Value) :
    Answers known (.symbol p.name) args (p.apply args) := by
  intro m scope env outer callers rest below _ hm
  have hs := hm.stack_jump 1
  cases hr : p.apply args with
  | error fault => exact hm.gives_error (.call hs rfl (.primitive p.ofName?_name hr))
  | ok v =>
    obtain ⟨after, hadv, hb⟩ := hm.goes_on_next (.call hs rfl (.primitive p.ofName?_name hr)) rfl
      (jump_arena 1)
    exact ⟨1, after, .single hadv, hb⟩

/-- **The answer of a closure** is what its body returns in a new scope. -/
theorem answers_closure {params : Parameters} {code : Code} {closed : ScopeId} {env : Environment}
    {vars : Bindings} (hclosed : (closed, env) ∈ known) (hb : params.bind args = .ok vars)
    (hbody : ∀ (inner : Machine) (id : ScopeId) (outer : List (ScopeId × Environment))
      (callers : List Frame) (stack : List Value), known ⊆ outer →
      inner.Before id (vars :: env) outer callers code stack →
      inner.Returns id outer callers stack r) :
    Answers known (.closure params code closed) args r := by
  intro m scope env' outer callers rest below hk hm
  obtain ⟨inner, caller, id, hadv, hip, hscope, hahead, hinner⟩ := hm.enter hb (hk hclosed)
  have hreturns := hbody _ _ _ _ _ hk hinner
  refine Gives.of_advance hadv ?_
  cases r with
  | error fault => exact hreturns
  | ok v =>
    obtain ⟨n, last, hs, _, _, hlast⟩ := hreturns
    obtain ⟨after, hret, hafter⟩ := hlast.ret hscope hip hahead fun p hp => (hm.outer p hp).2
    exact ⟨n + 1, after, hs.trans (.single hret), hafter⟩

end Answers

/-! ## Programs -/

/-- **A program is before its code**, with the global scope around it. -/
theorem before_ofProgram {code : Code} {arena : Arena} {env : Environment}
    (hshows : arena.Shows Arena.globalId env)
    (hfresh : ∀ id, arena.contains id = true → id < arena.nextId) (threshold : Int) :
    (ofProgram code arena threshold).Before Arena.globalId env [] [] code [] :=
  ⟨⟨_, rfl, rfl, Int.le_refl 0, rfl⟩, rfl, hfresh, hshows, fun _ hp => absurd hp List.not_mem_nil⟩

/-- The body of a macro, before its code, in a scope with what its parameters mean. -/
theorem before_ofGlobals (code : Code) (vars : Bindings) (threshold : Int) :
    (ofProgram code (.ofGlobals vars) threshold).Before Arena.globalId [vars] [] [] code [] :=
  before_ofProgram (.outermost ((Arena.get?_ofGlobals vars _).trans (if_pos rfl)))
    (fun _ hid => Arena.fresh_ofGlobals hid) threshold

/-- **A program that comes to a return halts**: with enough fuel its run ends with the result. -/
theorem Returns.run {m : Machine} {scope : ScopeId} {below : List Value} {r : Except Fault Value}
    (h : m.Returns scope [] [] below r) (hm : m.fault = none) :
    ∃ bound, ∀ fuel ≥ bound, (m.run fuel none).2 = .ofExcept r ∧
      ∀ v, r = .ok v → (m.run fuel none).1.stack = v :: below := by
  cases r with
  | ok v =>
    obtain ⟨n, last, hs, env, rest, hb⟩ := h
    obtain ⟨after, hadv, hframes, hstack⟩ := hb.finish
    have hsteps := hs.trans (.single hadv)
    refine ⟨n + 1, fun fuel hfuel => ?_⟩
    obtain ⟨k, rfl⟩ := Nat.exists_eq_add_of_le hfuel
    have hrun : m.run (n + 1 + k) none = (after, after.outcome) :=
      (hsteps.runFor_eq hm k).trans (runFor_of_halted (by simp [halted, hframes]) k)
    have houtcome : after.outcome = .value v := by simp [outcome, result, hframes, hstack]
    rw [hrun]
    exact ⟨houtcome, fun w hw => Except.ok.inj hw ▸ hstack⟩
  | error fault =>
    obtain ⟨n, last, hs, hhalted, hadv⟩ := h
    refine ⟨n + 1, fun fuel hfuel => ?_⟩
    obtain ⟨k, rfl⟩ := Nat.exists_eq_add_of_le hfuel
    have hrun : m.run (n + 1 + k) none = (last.failed fault, .fault fault) := by
      refine (congrArg (m.runFor ·) (Nat.add_assoc n 1 k)).trans ((hs.runFor_eq hm _).trans ?_)
      rw [Nat.add_comm 1 k, runFor, if_neg (by simp [hhalted]),
        step_of_error (hs.fault_eq.trans hm) hadv]
    rw [hrun]
    exact ⟨rfl, fun v hv => by cases hv⟩

end Machine

end StackLisp
