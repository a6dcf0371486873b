import StackLisp.Machine.Run
import StackLisp.Proofs.Code.Emits

/-!
# The effect of a step

What each instruction does, written as a relation between the machine before and after it, with
everything that has to be there (`Machine.Effect`).  A call of a closure and one of a
primitive (`Machine.Called`) are the same for all instructions that call.

**An instruction succeeds exactly by its effect** (`execute_eq_ok`), so what all steps keep is
shown rule by rule, without opening the machine.
-/

namespace StackLisp.Machine

/-- **A call that succeeds**, of the given value with the given arguments. -/
inductive Called (m : Machine) (args stack rest : List Value) : Value → Machine → Prop
  | closure {params : Parameters} {code : Code} {scope id : ScopeId} {bindings : Bindings}
      {arena : Arena} (hb : params.bind args = .ok bindings)
      (ha : m.arena.allocate bindings scope = .ok (id, arena)) :
      Called m args stack rest (.closure params code scope)
        (noteAllocation { m with
          arena := arena
          stack := stack
          frames := ⟨code, 0, id⟩ :: m.frames })
  | primitive {name : String} {p : Primitive} {value : Value} (hp : Primitive.ofName? name = some p)
      (ha : p.apply args = .ok value) :
      Called m args stack rest (.symbol name) { m with stack := value :: rest }

/-- **The effect of an instruction** in a scope. -/
inductive Effect (m : Machine) (scope : ScopeId) : Instruction → Machine → Prop
  | pushConst (v : Value) : Effect m scope (.pushConst v) (m.push v)
  | pop {v : Value} {rest : List Value} (hs : m.stack = v :: rest) :
      Effect m scope .pop { m with stack := rest }
  | lookup {name : String} {id : ScopeId} {v : Value}
      (hf : m.arena.find scope name = .ok (some (id, v))) :
      Effect m scope (.lookup name) (m.push v)
  | lookupPrimitive {name : String} {p : Primitive} (hf : m.arena.find scope name = .ok none)
      (hp : Primitive.ofName? name = some p) :
      Effect m scope (.lookup name) (m.push (.symbol name))
  | define {name : String} {v : Value} {rest : List Value} {arena : Arena}
      (hs : m.stack = v :: rest) (hd : m.arena.define scope name v = .ok arena) :
      Effect m scope (.define name) { m with stack := rest, arena := arena }
  | jumpIfTruthy {offset : Int} {v : Value} {rest : List Value} (hs : m.stack = v :: rest) :
      Effect m scope (.jumpIfTruthy offset) (if v.isFalsy then m else m.jump offset)
  | jumpIfFalsy {offset : Int} {v : Value} {rest : List Value} (hs : m.stack = v :: rest) :
      Effect m scope (.jumpIfFalsy offset)
        (if v.isFalsy then ({ m with stack := rest } : Machine).jump offset
          else { m with stack := rest })
  | finish {frame : Frame} {v : Value} {rest : List Value} (hf : m.frames = [frame])
      (hs : m.stack = v :: rest) : Effect m scope .ret { m with frames := [] }
  | ret {frame caller : Frame} {frames : List Frame} {v : Value} {params : Parameters}
      {code : Code} {closed : ScopeId} {below : List Value}
      (hf : m.frames = frame :: caller :: frames)
      (hs : m.stack = v :: .closure params code closed :: below) :
      Effect m scope .ret { m with stack := v :: below, frames := caller :: frames }
  | makeClosure {params : Parameters} {code : Code} {below : List Value}
      (hs : m.stack = .template params code :: below) :
      Effect m scope .makeClosure { m with stack := .closure params code scope :: below }
  | call {argc : Int} {callee : Value} {args below : List Value} {after : Machine}
      (hs : m.stack = args.reverse ++ callee :: below) (hn : argc = args.length)
      (hc : m.Called args (callee :: below) below callee after) :
      Effect m scope (.call argc) after
  | callAt {argc : Int} {callee : Value} {after : Machine} (hn : argc < 0)
      (hm : m.stack.reverse[(-argc - 1).toNat]? = some callee)
      (hc : m.Called [] m.stack m.stack callee after) : Effect m scope (.call argc) after
  | callPrimitive {name : String} {argc : Int} {p : Primitive} {args below : List Value}
      {value : Value} (hs : m.stack = args.reverse ++ below) (hn : argc.toNat = args.length)
      (hp : Primitive.ofName? name = some p) (ha : p.apply args = .ok value) :
      Effect m scope (.callPrimitive name argc) { m with stack := value :: below }
  | apply {list callee : Value} {items below : List Value} {after : Machine}
      (hs : m.stack = list :: callee :: below) (hl : list.list? = some items)
      (hc : m.Called items (callee :: below) below callee after) : Effect m scope .apply after
  | display {v : Value} {rest : List Value} (hs : m.stack = v :: rest) :
      Effect m scope .display { m with
        stack := .nil :: rest
        output := m.output ++ [v.toText] }

variable {m after : Machine} {scope : ScopeId}

/-! ## What the parts of an instruction leave alone -/

@[simp] theorem jump_stack (offset : Int) : (m.jump offset).stack = m.stack := by
  unfold jump
  split <;> rfl

@[simp] theorem jump_arena (offset : Int) : (m.jump offset).arena = m.arena := by
  unfold jump
  split <;> rfl

@[simp] theorem jump_output (offset : Int) : (m.jump offset).output = m.output := by
  unfold jump
  split <;> rfl

@[simp] theorem jump_fault (offset : Int) : (m.jump offset).fault = m.fault := by
  unfold jump
  split <;> rfl

@[simp] theorem jump_gcThreshold (offset : Int) : (m.jump offset).gcThreshold = m.gcThreshold := by
  unfold jump
  split <;> rfl

@[simp] theorem jump_steps (offset : Int) : (m.jump offset).steps = m.steps := by
  unfold jump
  split <;> rfl

@[simp] theorem noteAllocation_stack : m.noteAllocation.stack = m.stack := by
  unfold noteAllocation
  simp only
  split <;> rfl

@[simp] theorem noteAllocation_frames : m.noteAllocation.frames = m.frames := by
  unfold noteAllocation
  simp only
  split <;> rfl

@[simp] theorem noteAllocation_fault : m.noteAllocation.fault = m.fault := by
  unfold noteAllocation
  simp only
  split <;> rfl

@[simp] theorem noteAllocation_steps : m.noteAllocation.steps = m.steps := by
  unfold noteAllocation
  simp only
  split <;> rfl

@[simp] theorem noteAllocation_gcThreshold : m.noteAllocation.gcThreshold = m.gcThreshold := by
  unfold noteAllocation
  simp only
  split <;> rfl

@[simp] theorem noteAllocation_nextId : m.noteAllocation.arena.nextId = m.arena.nextId := by
  unfold noteAllocation
  simp only
  split <;> rfl

/-- Without a threshold an allocation is only counted. -/
theorem noteAllocation_of_zero (h : m.gcThreshold = 0) :
    m.noteAllocation = { m with allocations := m.allocations + 1 } := by
  simp [noteAllocation, h]

/-! ## Calls -/

theorem callValue_eq_ok {callee : Value} {args stack rest : List Value} :
    m.callValue callee args stack rest = .ok after ↔ m.Called args stack rest callee after := by
  constructor
  · intro h
    unfold callValue at h
    split at h
    · unfold callClosure at h
      simp only [bind_eq_ok, pure_eq_ok, Except.ok.injEq] at h
      obtain ⟨bindings, hb, ⟨id, arena⟩, ha, rfl⟩ := h
      exact .closure hb ha
    · split at h
      · rename_i p hp
        simp only [bind_eq_ok, pure_eq_ok, Except.ok.injEq] at h
        obtain ⟨value, ha, rfl⟩ := h
        exact .primitive hp ha
      · cases h
    · cases h
  · intro h
    cases h with
    | closure hb ha => simp [callValue, callClosure, hb, ha, Bind.bind, Except.bind]
    | primitive hp ha => simp [callValue, hp, ha, Bind.bind, Except.bind]

/-- The function and the arguments of a call are on top of the stack. -/
theorem callWith_append (m : Machine) (args below : List Value) (callee : Value) :
    m.callWith (args.reverse ++ callee :: below) args.length =
      m.callValue callee args (callee :: below) below := by
  have hd : (args.reverse ++ callee :: below).drop args.length = callee :: below :=
    List.drop_left' (List.length_reverse ..)
  have ht : (args.reverse ++ callee :: below).take args.length = args.reverse :=
    List.take_left' (List.length_reverse ..)
  simp only [callWith, hd, ht, List.reverse_reverse]

/-- A stack that is high enough for a call. -/
theorem exists_args_of_drop {stack below : List Value} {callee : Value} {argc : Nat}
    (h : stack.drop argc = callee :: below) :
    ∃ args : List Value, stack = args.reverse ++ callee :: below ∧ args.length = argc := by
  have hlt : argc < stack.length := by
    rcases Nat.lt_or_ge argc stack.length with hlt | hge
    · exact hlt
    · rw [List.drop_eq_nil_of_le hge] at h
      cases h
  refine ⟨(stack.take argc).reverse, ?_, ?_⟩
  · rw [List.reverse_reverse, ← h, List.take_append_drop]
  · rw [List.length_reverse, List.length_take]
    omega

theorem callWith_eq_ok {stack : List Value} {argc : Nat}
    (h : m.callWith stack argc = .ok after) :
    ∃ args callee below, stack = args.reverse ++ callee :: below ∧ args.length = argc ∧
      m.Called args (callee :: below) below callee after := by
  cases hd : stack.drop argc with
  | nil => simp [callWith, hd] at h
  | cons callee below =>
    obtain ⟨args, rfl, rfl⟩ := exists_args_of_drop hd
    rw [callWith_append] at h
    exact ⟨args, callee, below, rfl, rfl, callValue_eq_ok.mp h⟩

/-! ## Instructions -/

theorem pop_eq_ok {v : Value} :
    m.pop = .ok (v, after) ↔ ∃ rest, m.stack = v :: rest ∧ after = { m with stack := rest } := by
  unfold pop
  split
  · simp_all
  · rename_i w rest hs
    simp only [Except.ok.injEq, Prod.mk.injEq, hs, List.cons.injEq]
    constructor
    · rintro ⟨rfl, rfl⟩
      exact ⟨rest, ⟨rfl, rfl⟩, rfl⟩
    · rintro ⟨_, ⟨rfl, rfl⟩, rfl⟩
      exact ⟨rfl, rfl⟩

theorem effect_of_leave (h : m.leave = .ok after) : m.Effect scope .ret after := by
  unfold leave at h
  split at h
  · cases h
  · rename_i frame hne hf
    cases h
    cases hs : m.stack with
    | nil => exact absurd hs hf
    | cons v rest => exact hs ▸ .finish hne hs
  · rename_i frame frames v params code closed below hone hf hs
    cases h
    cases frames with
    | nil => exact absurd rfl hone
    | cons caller frames => exact .ret hf hs
  · cases h
  · cases h

/-- What succeeds has its effect. -/
theorem effect_of_execute {i : Instruction} (h : m.execute scope i = .ok after) :
    m.Effect scope i after := by
  cases i with
  | pushConst v =>
    cases h
    exact .pushConst v
  | pop =>
    simp only [execute, bind_eq_ok, pure_eq_ok, Except.ok.injEq] at h
    obtain ⟨⟨v, m'⟩, hp, rfl⟩ := h
    obtain ⟨rest, hs, rfl⟩ := pop_eq_ok.mp hp
    exact .pop hs
  | lookup name =>
    simp only [execute, bind_eq_ok] at h
    obtain ⟨found, hf, h⟩ := h
    split at h
    · cases h
      exact .lookup hf
    · split at h
      · rename_i hp
        cases h
        exact .lookupPrimitive hf hp
      · cases h
  | define name =>
    simp only [execute, bind_eq_ok, pure_eq_ok, Except.ok.injEq] at h
    obtain ⟨_, -, ⟨v, m'⟩, hp, arena, hd, rfl⟩ := h
    obtain ⟨rest, hs, rfl⟩ := pop_eq_ok.mp hp
    exact .define hs hd
  | jumpIfTruthy offset =>
    simp only [execute, top, bind_eq_ok, pure_eq_ok, Except.ok.injEq] at h
    obtain ⟨v, hv, rfl⟩ := h
    split at hv
    · cases hv
    · rename_i hs
      cases hv
      exact .jumpIfTruthy hs
  | jumpIfFalsy offset =>
    simp only [execute, bind_eq_ok, pure_eq_ok, Except.ok.injEq] at h
    obtain ⟨⟨v, m'⟩, hp, rfl⟩ := h
    obtain ⟨rest, hs, rfl⟩ := pop_eq_ok.mp hp
    exact .jumpIfFalsy hs
  | ret => exact effect_of_leave h
  | makeClosure =>
    simp only [execute] at h
    split at h
    · cases h
    · rename_i hs
      cases h
      exact .makeClosure hs
    · cases h
  | call argc =>
    simp only [execute] at h
    split at h
    · rename_i hn
      unfold callAt at h
      split at h
      · rename_i hm
        exact .callAt hn hm (callValue_eq_ok.mp h)
      · cases h
    · obtain ⟨args, callee, below, hs, hn, hc⟩ := callWith_eq_ok h
      exact .call hs (by omega) hc
  | callPrimitive name argc =>
    simp only [execute, applyPrimitive] at h
    split at h
    · cases h
    · rename_i p hp
      split at h
      · cases h
      · rename_i hlen
        simp only [bind_eq_ok, pure_eq_ok, Except.ok.injEq] at h
        obtain ⟨value, ha, rfl⟩ := h
        refine .callPrimitive ?_ ?_ hp ha
        · rw [List.reverse_reverse, List.take_append_drop]
        · simp only [List.length_reverse, List.length_take] at hlen ⊢
          omega
  | apply =>
    simp only [execute, applyList] at h
    split at h
    · rename_i hs
      split at h
      · rename_i hl
        rw [callWith_append] at h
        exact .apply hs hl (callValue_eq_ok.mp h)
      · cases h
    · cases h
  | display =>
    simp only [execute, bind_eq_ok, pure_eq_ok, Except.ok.injEq] at h
    obtain ⟨⟨v, m'⟩, hp, rfl⟩ := h
    obtain ⟨rest, hs, rfl⟩ := pop_eq_ok.mp hp
    exact .display hs
  | undefined opcode => cases h

/-- What can have its effect succeeds. -/
theorem execute_of_effect {i : Instruction} (h : m.Effect scope i after) :
    m.execute scope i = .ok after := by
  cases h with
  | pushConst v => rfl
  | pop hs => simp [execute, Machine.pop, hs, Bind.bind, Except.bind]
  | lookup hf => simp [execute, hf, Bind.bind, Except.bind]
  | lookupPrimitive hf hp => simp [execute, hf, hp, Bind.bind, Except.bind]
  | define hs hd =>
    have hg : ∃ s, m.arena.get scope = .ok s := by
      simp only [Arena.define, bind_eq_ok] at hd
      exact ⟨hd.choose, hd.choose_spec.1⟩
    obtain ⟨s, hg⟩ := hg
    simp [execute, Machine.pop, hs, hd, hg, Bind.bind, Except.bind]
  | jumpIfTruthy hs => simp [execute, top, hs, Bind.bind, Except.bind]
  | jumpIfFalsy hs => simp [execute, Machine.pop, hs, Bind.bind, Except.bind]
  | finish hf hs => simp [execute, leave, hf, hs]
  | ret hf hs => simp [execute, leave, hf, hs]
  | makeClosure hs => simp [execute, hs]
  | call hs hn hc =>
    subst hn
    simp only [execute, hs, Int.toNat_natCast, callWith_append]
    rw [if_neg (by omega)]
    exact callValue_eq_ok.mpr hc
  | callAt hn hm hc =>
    simp only [execute, if_pos hn, callAt, hm]
    exact callValue_eq_ok.mpr hc
  | callPrimitive hs hn hp ha =>
    simp [execute, applyPrimitive, hp, hs, hn, ha, Bind.bind, Except.bind]
  | apply hs hl hc =>
    simp only [execute, applyList, hs, hl, callWith_append]
    exact callValue_eq_ok.mpr hc
  | display hs => simp [execute, Machine.pop, hs, Bind.bind, Except.bind]

/-- **An instruction succeeds exactly by its effect.** -/
theorem execute_eq_ok {i : Instruction} :
    m.execute scope i = .ok after ↔ m.Effect scope i after :=
  ⟨effect_of_execute, execute_of_effect⟩

/-! ## Steps -/

/-- **A step that succeeds** executes the instruction that the innermost frame points at. -/
theorem advance_eq_ok :
    m.advance = .ok after ↔ ∃ frame frames i next, m.frames = frame :: frames ∧
      fetch frame = .ok i ∧ (m.jump 1).Effect frame.scope i next ∧
      after = { next with steps := next.steps + 1 } := by
  cases hf : m.frames with
  | nil => simp [advance, hf]
  | cons frame frames =>
    simp only [advance, hf, bind_eq_ok, pure_eq_ok, Except.ok.injEq, List.cons.injEq]
    constructor
    · rintro ⟨i, hi, next, hn, rfl⟩
      exact ⟨frame, frames, i, next, ⟨rfl, rfl⟩, hi, effect_of_execute hn, rfl⟩
    · rintro ⟨_, _, i, next, ⟨rfl, rfl⟩, hi, hn, rfl⟩
      exact ⟨i, hi, next, execute_of_effect hn, rfl⟩

end StackLisp.Machine
