import StackLisp.Proofs.Machine.Effect

/-!
# How a step fails

The counterpart of `Machine.Effect`: with which fault an instruction fails, and in what state
(`Machine.Fails`).  **An instruction fails exactly by these rules** (`execute_eq_error`).
-/

namespace StackLisp.Machine

/-- **A call that fails**, of the given value with the given arguments. -/
inductive Uncalled (m : Machine) (args : List Value) : Value → Fault → Prop
  | arguments {params : Parameters} {code : Code} {scope : ScopeId} {fault : Fault}
      (hb : params.bind args = .error fault) : Uncalled m args (.closure params code scope) fault
  | missingParent {params : Parameters} {code : Code} {scope : ScopeId} {bindings : Bindings}
      (hb : params.bind args = .ok bindings) (ha : m.arena.contains scope = false) :
      Uncalled m args (.closure params code scope) (.missingParent scope)
  | primitive {name : String} {p : Primitive} {fault : Fault}
      (hp : Primitive.ofName? name = some p) (ha : p.apply args = .error fault) :
      Uncalled m args (.symbol name) fault
  | notFunction {callee : Value} (hc : ∀ params code scope, callee ≠ .closure params code scope)
      (hp : ∀ name, callee = .symbol name → Primitive.ofName? name = none) :
      Uncalled m args callee (.notFunction callee)

/-- **How an instruction fails** in a scope. -/
inductive Fails (m : Machine) (scope : ScopeId) : Instruction → Fault → Prop
  | pop (hs : m.stack = []) : Fails m scope .pop .emptyStack
  | lookup {name : String} {fault : Fault} (hf : m.arena.find scope name = .error fault) :
      Fails m scope (.lookup name) fault
  | unbound {name : String} (hf : m.arena.find scope name = .ok none)
      (hp : Primitive.ofName? name = none) : Fails m scope (.lookup name) (.unbound name)
  | missingScope {name : String} {fault : Fault} (hg : m.arena.get scope = .error fault) :
      Fails m scope (.define name) fault
  | define {name : String} {s : Scope} (hg : m.arena.get scope = .ok s) (hs : m.stack = []) :
      Fails m scope (.define name) .emptyStack
  | jumpIfTruthy {offset : Int} (hs : m.stack = []) :
      Fails m scope (.jumpIfTruthy offset) .emptyStack
  | jumpIfFalsy {offset : Int} (hs : m.stack = []) :
      Fails m scope (.jumpIfFalsy offset) .emptyStack
  | ret {fault : Fault} (hl : m.leave = .error fault) : Fails m scope .ret fault
  | makeClosure (hs : m.stack = []) : Fails m scope .makeClosure .emptyStack
  | notTemplate {v : Value} {rest : List Value} (hs : m.stack = v :: rest)
      (hv : ∀ params code, v ≠ .template params code) :
      Fails m scope .makeClosure (.notTemplate v)
  | callUnderflow {argc : Nat} (hs : m.stack.length ≤ argc) :
      Fails m scope (.call argc) (.callUnderflow argc m.stack.length)
  | call {argc : Int} {callee : Value} {args below : List Value} {fault : Fault}
      (hs : m.stack = args.reverse ++ callee :: below) (hn : argc = args.length)
      (hc : m.Uncalled args callee fault) : Fails m scope (.call argc) fault
  | aboveStack {argc : Int} (hn : argc < 0)
      (hm : m.stack.reverse[(-argc - 1).toNat]? = none) : Fails m scope (.call argc) .aboveStack
  | callAt {argc : Int} {callee : Value} {fault : Fault} (hn : argc < 0)
      (hm : m.stack.reverse[(-argc - 1).toNat]? = some callee)
      (hc : m.Uncalled [] callee fault) : Fails m scope (.call argc) fault
  | unknownPrimitive {name : String} {argc : Int} (hp : Primitive.ofName? name = none) :
      Fails m scope (.callPrimitive name argc) (.unknownPrimitive name)
  | primitiveUnderflow {name : String} {argc : Int} {p : Primitive}
      (hp : Primitive.ofName? name = some p) (hs : m.stack.length < argc.toNat) :
      Fails m scope (.callPrimitive name argc)
        (.primitiveUnderflow name argc.toNat m.stack.length)
  | callPrimitive {name : String} {argc : Int} {p : Primitive} {args below : List Value}
      {fault : Fault} (hs : m.stack = args.reverse ++ below) (hn : argc.toNat = args.length)
      (hp : Primitive.ofName? name = some p) (ha : p.apply args = .error fault) :
      Fails m scope (.callPrimitive name argc) fault
  | applyUnderflow (hs : m.stack.length < 2) : Fails m scope .apply .applyUnderflow
  | notArguments {list callee : Value} {below : List Value}
      (hs : m.stack = list :: callee :: below) (hl : list.list? = none) :
      Fails m scope .apply (.notArguments list)
  | apply {list callee : Value} {items below : List Value} {fault : Fault}
      (hs : m.stack = list :: callee :: below) (hl : list.list? = some items)
      (hc : m.Uncalled items callee fault) : Fails m scope .apply fault
  | display (hs : m.stack = []) : Fails m scope .display .emptyStack
  | undefined (opcode : Int) :
      Fails m scope (.undefined opcode) (.undefinedInstruction opcode)

variable {m : Machine} {scope : ScopeId} {fault : Fault}

/-! ## Calls -/

theorem bind_eq_wrongArguments {params : Parameters} {args : List Value}
    (h : params.bind args = .error fault) : fault = .wrongArguments params args := by
  unfold Parameters.bind at h
  split at h
  · split at h <;> cases h
  · cases h
    rfl

theorem allocate_eq_error {a : Arena} {bindings : Bindings} {parent : ScopeId} :
    a.allocate bindings parent = .error fault ↔
      a.contains parent = false ∧ fault = .missingParent parent := by
  cases ha : a.contains parent with
  | true => simp [Arena.allocate, ha]
  | false => simp [Arena.allocate, ha, @eq_comm _ fault]

theorem callValue_eq_error {callee : Value} {args stack rest : List Value} :
    m.callValue callee args stack rest = .error fault ↔ m.Uncalled args callee fault := by
  constructor
  · intro h
    unfold callValue at h
    split at h
    · simp only [callClosure, bind_eq_error] at h
      rcases h with h | ⟨bindings, hb, h | ⟨_, -, h⟩⟩
      · exact .arguments h
      · obtain ⟨ha, rfl⟩ := allocate_eq_error.mp h
        exact .missingParent hb ha
      · cases h
    · split at h
      · rename_i hp
        simp only [bind_eq_error] at h
        rcases h with h | ⟨_, -, h⟩
        · exact .primitive hp h
        · cases h
      · rename_i hp
        cases h
        refine .notFunction (by simp) fun name hn => ?_
        cases hn
        exact hp
    · rename_i hc hs
      cases h
      exact .notFunction hc fun name hn => absurd hn (hs name)
  · intro h
    cases h with
    | arguments hb => simp [callValue, callClosure, hb, Bind.bind, Except.bind]
    | missingParent hb ha =>
      simp [callValue, callClosure, hb, Arena.allocate, ha, Bind.bind, Except.bind]
    | primitive hp ha => simp [callValue, hp, ha, Bind.bind, Except.bind]
    | notFunction hc hp =>
      cases callee with
      | closure params code scope => exact absurd rfl (hc params code scope)
      | symbol name => simp [callValue, hp name rfl]
      | _ => rfl

/-! ## Instructions -/

theorem pop_eq_error : m.pop = .error fault ↔ m.stack = [] ∧ fault = .emptyStack := by
  unfold pop
  split
  · simp_all [eq_comm]
  · simp_all

/-- A definition needs the scope and nothing else. -/
theorem define_ne_error {a : Arena} {s : Scope} (hg : a.get scope = .ok s) (name : String)
    (v : Value) : a.define scope name v ≠ .error fault := by
  simp [Arena.define, hg, Bind.bind, Except.bind]

theorem fault_of_leave (h : m.leave = .error fault) :
    fault = .emptyStack ∨ fault = .returnUnderflow ∨ ∃ callee, fault = .notCallee callee := by
  unfold leave at h
  split at h <;> cases h
  · exact .inl rfl
  · exact .inr (.inr ⟨_, rfl⟩)
  · exact .inr (.inl rfl)

/-- No instruction is fetched from outside the code. -/
theorem fault_of_fetch {frame : Frame} (h : fetch frame = .error fault) :
    fault = .beforeCode ∨ fault = .endOfCode := by
  unfold fetch at h
  generalize (if frame.ip < 0 then frame.ip + frame.code.length else frame.ip) = place at h
  simp only at h
  split at h
  · cases h
    exact .inl rfl
  · split at h <;> cases h
    exact .inr rfl

/-- What fails does so by one of the rules. -/
theorem fails_of_execute {i : Instruction} (h : m.execute scope i = .error fault) :
    m.Fails scope i fault := by
  cases i with
  | pushConst v => cases h
  | pop =>
    simp only [execute, bind_eq_error, pop_eq_error] at h
    rcases h with ⟨hs, rfl⟩ | ⟨_, -, h⟩
    · exact .pop hs
    · cases h
  | lookup name =>
    simp only [execute, bind_eq_error] at h
    rcases h with h | ⟨found, hf, h⟩
    · exact .lookup h
    · split at h
      · cases h
      · split at h
        · cases h
        · rename_i hp
          cases h
          exact .unbound hf hp
  | define name =>
    simp only [execute, bind_eq_error, pop_eq_error] at h
    rcases h with h | ⟨s, hg, ⟨hs, rfl⟩ | ⟨⟨v, m'⟩, hp, h | ⟨_, -, h⟩⟩⟩
    · exact .missingScope h
    · exact .define hg hs
    · obtain ⟨rest, -, rfl⟩ := pop_eq_ok.mp hp
      exact absurd h (define_ne_error hg name v)
    · cases h
  | jumpIfTruthy offset =>
    simp only [execute, top, bind_eq_error] at h
    rcases h with h | ⟨_, -, h⟩
    · split at h
      · cases h
        exact .jumpIfTruthy ‹_›
      · cases h
    · cases h
  | jumpIfFalsy offset =>
    simp only [execute, bind_eq_error, pop_eq_error] at h
    rcases h with ⟨hs, rfl⟩ | ⟨_, -, h⟩
    · exact .jumpIfFalsy hs
    · cases h
  | ret => exact .ret h
  | makeClosure =>
    simp only [execute] at h
    split at h
    · cases h
      exact .makeClosure ‹_›
    · cases h
    · rename_i hv hs
      cases h
      exact .notTemplate hs hv
  | call argc =>
    simp only [execute] at h
    split at h
    · rename_i hn
      unfold callAt at h
      split at h
      · rename_i hm
        exact .callAt hn hm (callValue_eq_error.mp h)
      · rename_i hm
        cases h
        exact .aboveStack hn hm
    · rename_i hn
      obtain ⟨n, rfl⟩ := Int.eq_ofNat_of_zero_le (Int.not_lt.mp hn)
      rw [Int.toNat_natCast] at h
      cases hd : m.stack.drop n with
      | nil =>
        simp only [callWith, hd, Except.error.injEq] at h
        subst h
        exact .callUnderflow (List.drop_eq_nil_iff.mp hd)
      | cons callee below =>
        obtain ⟨args, hs, rfl⟩ := exists_args_of_drop hd
        rw [hs, callWith_append] at h
        exact .call hs rfl (callValue_eq_error.mp h)
  | callPrimitive name argc =>
    simp only [execute, applyPrimitive] at h
    split at h
    · cases h
      exact .unknownPrimitive ‹_›
    · rename_i p hp
      simp only [List.length_reverse, List.length_take] at h
      split at h
      · cases h
        exact .primitiveUnderflow hp (by omega)
      · simp only [bind_eq_error] at h
        rcases h with h | ⟨_, -, h⟩
        · have hs : m.stack =
              (m.stack.take argc.toNat).reverse.reverse ++ m.stack.drop argc.toNat := by
            rw [List.reverse_reverse, List.take_append_drop]
          refine .callPrimitive hs ?_ hp h
          rw [List.length_reverse, List.length_take]
          omega
        · cases h
  | apply =>
    simp only [execute, applyList] at h
    split at h
    · rename_i hs
      split at h
      · rename_i hl
        rw [callWith_append] at h
        exact .apply hs hl (callValue_eq_error.mp h)
      · cases h
        exact .notArguments hs ‹_›
    · rename_i hs
      cases h
      refine .applyUnderflow ?_
      rcases hm : m.stack with _ | ⟨list, _ | ⟨callee, below⟩⟩
      · simp
      · simp
      · exact absurd hm (hs list callee below)
  | display =>
    simp only [execute, bind_eq_error, pop_eq_error] at h
    rcases h with ⟨hs, rfl⟩ | ⟨_, -, h⟩
    · exact .display hs
    · cases h
  | undefined opcode =>
    cases h
    exact .undefined opcode

/-- What a rule lets fail fails. -/
theorem execute_of_fails {i : Instruction} (h : m.Fails scope i fault) :
    m.execute scope i = .error fault := by
  cases h with
  | pop hs => simp [execute, Machine.pop, hs, Bind.bind, Except.bind]
  | lookup hf => simp [execute, hf, Bind.bind, Except.bind]
  | unbound hf hp => simp [execute, hf, hp, Bind.bind, Except.bind]
  | missingScope hg => simp [execute, hg, Bind.bind, Except.bind]
  | define hg hs => simp [execute, Machine.pop, hg, hs, Bind.bind, Except.bind]
  | jumpIfTruthy hs => simp [execute, top, hs, Bind.bind, Except.bind]
  | jumpIfFalsy hs => simp [execute, Machine.pop, hs, Bind.bind, Except.bind]
  | ret hl => exact hl
  | makeClosure hs => simp [execute, hs]
  | @notTemplate v rest hs hv =>
    cases v with
    | template params code => exact absurd rfl (hv params code)
    | _ => simp [execute, hs]
  | @callUnderflow argc hs =>
    simp [execute, callWith, List.drop_eq_nil_of_le hs, Int.not_lt.mpr (Int.natCast_nonneg argc)]
  | call hs hn hc =>
    subst hn
    simp only [execute, hs, Int.toNat_natCast, callWith_append]
    rw [if_neg (by omega)]
    exact callValue_eq_error.mpr hc
  | aboveStack hn hm => simp only [execute, if_pos hn, callAt, hm]
  | callAt hn hm hc =>
    simp only [execute, if_pos hn, callAt, hm]
    exact callValue_eq_error.mpr hc
  | unknownPrimitive hp => simp [execute, applyPrimitive, hp]
  | primitiveUnderflow hp hs =>
    simp only [execute, applyPrimitive, hp, List.length_reverse, List.length_take]
    rw [if_pos (by omega)]
  | callPrimitive hs hn hp ha =>
    simp [execute, applyPrimitive, hp, hs, hn, ha, Bind.bind, Except.bind]
  | applyUnderflow hs =>
    simp only [execute, applyList]
    split
    · rename_i hm
      simp only [hm, List.length_cons] at hs
      omega
    · rfl
  | notArguments hs hl => simp [execute, applyList, hs, hl]
  | apply hs hl hc =>
    simp only [execute, applyList, hs, hl, callWith_append]
    exact callValue_eq_error.mpr hc
  | display hs => simp [execute, Machine.pop, hs, Bind.bind, Except.bind]
  | undefined opcode => rfl

/-- **An instruction fails exactly by these rules.** -/
theorem execute_eq_error {i : Instruction} :
    m.execute scope i = .error fault ↔ m.Fails scope i fault :=
  ⟨fails_of_execute, execute_of_fails⟩

/-- **How a step fails**: nothing is left to run, or no instruction is fetched, or it fails. -/
theorem advance_eq_error :
    m.advance = .error fault ↔ m.frames = [] ∧ fault = .noFrames ∨
      ∃ frame frames, m.frames = frame :: frames ∧ (fetch frame = .error fault ∨
        ∃ i, fetch frame = .ok i ∧ (m.jump 1).Fails frame.scope i fault) := by
  cases hf : m.frames with
  | nil => simp [advance, hf, eq_comm]
  | cons frame frames =>
    have hthrow : ∀ after : Machine, (pure after : Except Fault Machine) ≠ .error fault := by
      simp
    simp only [advance, hf, bind_eq_error, execute_eq_error, hthrow, and_false, exists_false,
      or_false, reduceCtorEq, false_and, false_or]
    constructor
    · intro h
      exact ⟨frame, frames, rfl, h⟩
    · rintro ⟨_, _, he, h⟩
      cases he
      exact h

end StackLisp.Machine
