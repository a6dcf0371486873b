import StackLisp.Proofs.Arena.Find
import StackLisp.Proofs.Machine.Failure
import StackLisp.Proofs.Machine.Steps
import StackLisp.Proofs.Primitive

/-!
# Steps in place

`Machine.step` makes a new machine, so a step that fails has no parts to take back.  A machine
that is changed in place has to see to that itself.  Here is such a machine: **work**
(`Machine.Work`) goes on in parts, and what was done before a part that fails stays done.  The
step moves the frame on before it executes the instruction, and moves it back when that fails.
An application takes its list from the stack and spreads it before the call, and puts it back
when the call fails.

**The two machines are the same** (`InPlace.step_eq`).  Each instruction makes its checks before
its changes, or undoes them (`InPlace.handler_eq`), so a step that fails leaves everything as it
was, and all later steps fail with the same fault (`failed_step_undone`).
-/

namespace StackLisp.Machine

/-- **Work on a machine in place.**  When it fails, the machine is left as it is then. -/
def Work (α : Type) : Type :=
  Machine → Except Fault α × Machine

instance : Monad Work where
  pure a := fun m => (.ok a, m)
  bind first next := fun m =>
    match first m with
    | (.ok a, after) => next a after
    | (.error fault, after) => (.error fault, after)

namespace InPlace
variable {α β : Type}

/-! ## The parts of work -/

/-- The machine as it is. -/
def get : Work Machine :=
  fun m => (.ok m, m)

/-- Work that changes the machine. -/
def modify (change : Machine → Machine) : Work Unit :=
  fun m => (.ok (), change m)

/-- Work that fails. -/
def fail (fault : Fault) : Work α :=
  fun m => (.error fault, m)

/-- What may fail without touching the machine. -/
def ofExcept : Except Fault α → Work α
  | .ok a => pure a
  | .error fault => fail fault

/-- Work after whose failure some more is done.  Faults of the kind `range` are let through. -/
def undoing (work : Work α) (undo : Work Unit) : Work α :=
  fun m =>
    match work m with
    | (.ok a, after) => (.ok a, after)
    | (.error fault, after) =>
      if fault.kind = .range then (.error fault, after) else (.error fault, (undo after).2)

/-- Takes the top of the stack. -/
def pop : Work Value := do
  match (← get).stack with
  | [] => fail .emptyStack
  | v :: rest =>
    modify fun m => { m with stack := rest }
    return v

/-- The top of the stack, which stays there. -/
def peek : Work Value := do
  match (← get).stack with
  | [] => fail .emptyStack
  | v :: _ => return v

def push (v : Value) : Work Unit :=
  modify fun m => m.push v

/-- Drops the topmost values. -/
def dropTop (count : Nat) : Work Unit :=
  modify fun m => { m with stack := m.stack.drop count }

/-- Sets the position of the innermost frame. -/
def moveTo (ip : Int) : Work Unit :=
  modify fun m =>
    match m.frames with
    | [] => m
    | frame :: frames => { m with frames := { frame with ip := ip } :: frames }

def allocate (vars : Bindings) (parent : ScopeId) : Work ScopeId := do
  let (id, arena) ← ofExcept ((← get).arena.allocate vars parent)
  modify fun m => { m with arena := arena }
  return id

/-! ## The instructions -/

/-- The function that a call of `argc` arguments finds: the one below them, or, if the number is
negative, one from the bottom of the stack. -/
def callee? (stack : List Value) (argc : Int) : Option Value :=
  if argc < 0 then stack.reverse[(-argc - 1).toNat]? else stack[argc.toNat]?

/-- Calls the function below the topmost `argc` values. -/
def call (argc : Int) : Work Unit := do
  let stack := (← get).stack
  if (stack.length : Int) < argc + 1 then fail (.callUnderflow argc.toNat stack.length)
  else
    let args := (stack.take argc.toNat).reverse
    match callee? stack argc with
    | none => fail .aboveStack
    | some (.closure params code scope) =>
      let bindings ← ofExcept (params.bind args)
      let id ← allocate bindings scope
      dropTop argc.toNat
      modify fun m => { m with frames := ⟨code, 0, id⟩ :: m.frames }
      modify noteAllocation
    | some (.symbol name) =>
      match Primitive.ofName? name with
      | some p =>
        let value ← ofExcept (p.apply args)
        dropTop (argc + 1).toNat
        push value
      | none => fail (.notFunction (.symbol name))
    | some callee => fail (.notFunction callee)

/-- Applies a primitive to the topmost `argc` values. -/
def callPrimitive (name : String) (argc : Int) : Work Unit := do
  match Primitive.ofName? name with
  | none => fail (.unknownPrimitive name)
  | some p =>
    let stack := (← get).stack
    if (stack.length : Int) < argc then fail (.primitiveUnderflow name argc.toNat stack.length)
    else
      let value ← ofExcept (p.apply (stack.take argc.toNat).reverse)
      dropTop argc.toNat
      push value

/-- Spreads the list on top of the stack and calls the function below it.  If the call fails, the
list is put back in place of its elements. -/
def apply : Work Unit := do
  match (← get).stack with
  | list :: _ :: _ =>
    match list.list? with
    | none => fail (.notArguments list)
    | some items =>
      let list ← pop
      modify fun m => { m with stack := items.reverse ++ m.stack }
      undoing (call items.length) do
        dropTop items.length
        push list
  | _ => fail .applyUnderflow

/-- Leaves the innermost frame. -/
def leave : Work Unit := do
  let m ← get
  if m.frames.length = 1 then
    let value ← pop
    push value
  else
    match m.stack with
    | _ :: .closure _ _ _ :: _ =>
      let value ← pop
      let _ ← pop
      push value
    | _ :: callee :: _ => fail (.notCallee callee)
    | _ => fail .returnUnderflow
  modify fun m => { m with frames := m.frames.tail }

/-- **The work of an instruction** in a scope. -/
def handler (scope : ScopeId) : Instruction → Work Unit
  | .pushConst v => push v
  | .pop => do
    let _ ← pop
  | .lookup name => do
    match ← ofExcept ((← get).arena.find scope name) with
    | some (_, v) => push v
    | none =>
      match Primitive.ofName? name with
      | some _ => push (.symbol name)
      | none => fail (.unbound name)
  | .define name => do
    let _ ← ofExcept ((← get).arena.get scope)
    let v ← pop
    let arena ← ofExcept ((← get).arena.define scope name v)
    modify fun m => { m with arena := arena }
  | .jumpIfTruthy offset => do
    let v ← peek
    if v.isFalsy then return () else modify (·.jump offset)
  | .jumpIfFalsy offset => do
    let v ← pop
    if v.isFalsy then modify (·.jump offset) else return ()
  | .ret => leave
  | .makeClosure => do
    match ← peek with
    | .template params code =>
      modify fun m => { m with stack := .closure params code scope :: m.stack.tail }
    | v => fail (.notTemplate v)
  | .call argc => call argc
  | .callPrimitive name argc => callPrimitive name argc
  | .apply => apply
  | .display => do
    let v ← pop
    modify fun m => { m with output := m.output ++ [v.toText] }
    push .nil
  | .undefined opcode => fail (.undefinedInstruction opcode)

/-- The work of the instruction that a frame points at.  The frame is moved on first. -/
def instruction (frame : Frame) : Work Unit := do
  let i ← ofExcept (fetch frame)
  moveTo (frame.ip + 1)
  handler frame.scope i

/-- **One step in place.**  If the instruction fails, the frame is moved back and the fault is
remembered. -/
def step (m : Machine) : Machine × Option Fault :=
  match m.fault with
  | some fault => (m, some fault)
  | none =>
    match m.frames with
    | [] => (m, some .noFrames)
    | frame :: _ =>
      match instruction frame m with
      | (.ok (), after) => ({ after with steps := after.steps + 1 }, none)
      | (.error fault, after) =>
        if fault.kind = .range then (after, some fault)
        else ({ (moveTo frame.ip after).2 with fault := some fault }, some fault)

/-! ## What work does -/

section Run
variable (m : Machine)

@[simp] theorem pure_run (a : α) : (pure a : Work α) m = (.ok a, m) := rfl

@[simp] theorem bind_run (first : Work α) (next : α → Work β) :
    (first >>= next) m =
      match first m with
      | (.ok a, after) => next a after
      | (.error fault, after) => (.error fault, after) := rfl

@[simp] theorem get_run : get m = (.ok m, m) := rfl

@[simp] theorem modify_run (change : Machine → Machine) : modify change m = (.ok (), change m) := rfl

@[simp] theorem fail_run (fault : Fault) : (fail fault : Work α) m = (.error fault, m) := rfl

@[simp] theorem ofExcept_run (e : Except Fault α) : ofExcept e m = (e, m) := by
  cases e <;> rfl

@[simp] theorem push_run (v : Value) : push v m = (.ok (), m.push v) := rfl

@[simp] theorem dropTop_run (count : Nat) :
    dropTop count m = (.ok (), { m with stack := m.stack.drop count }) := rfl

/-- Taking the top of the stack fails before anything is changed. -/
@[simp] theorem pop_run : pop m =
    match m.stack with
    | [] => (.error .emptyStack, m)
    | v :: rest => (.ok v, { m with stack := rest }) := by
  cases h : m.stack <;> simp [pop, h]

@[simp] theorem peek_run : peek m =
    match m.stack with
    | [] => (.error .emptyStack, m)
    | v :: _ => (.ok v, m) := by
  cases h : m.stack <;> simp [peek, h]

@[simp] theorem allocate_run (vars : Bindings) (parent : ScopeId) : allocate vars parent m =
    match m.arena.allocate vars parent with
    | .ok (id, arena) => (.ok id, { m with arena := arena })
    | .error fault => (.error fault, m) := by
  unfold allocate
  simp only [bind_run, get_run, ofExcept_run]
  cases m.arena.allocate vars parent <;> rfl

end Run

/-- **How work ends that is done at once or not at all.** -/
def settle (m : Machine) : Except Fault Machine → Except Fault Unit × Machine
  | .ok after => (.ok (), after)
  | .error fault => (.error fault, m)

variable {m : Machine}

/-- A call that finds its function is made at once, or fails before anything is changed. -/
theorem call_eq_callValue {argc : Int} {callee : Value} (hlen : ¬ (m.stack.length : Int) < argc + 1)
    (hc : callee? m.stack argc = some callee) :
    call argc m = settle m (m.callValue callee (m.stack.take argc.toNat).reverse
      (m.stack.drop argc.toNat) (m.stack.drop (argc + 1).toNat)) := by
  unfold call
  simp only [bind_run, get_run, if_neg hlen, hc]
  cases callee with
  | closure params code scope =>
    simp only [callValue, callClosure, bind_run, ofExcept_run]
    cases hb : params.bind (m.stack.take argc.toNat).reverse with
    | error fault => rfl
    | ok bindings =>
      simp only [allocate_run]
      cases ha : m.arena.allocate bindings scope with
      | error fault => simp [settle, ha, Bind.bind, Except.bind]
      | ok r => simp [settle, ha, Bind.bind, Except.bind]
  | symbol name =>
    simp only [callValue]
    cases Primitive.ofName? name with
    | none => rfl
    | some p =>
      simp only [bind_run, ofExcept_run]
      cases p.apply (m.stack.take argc.toNat).reverse with
      | error fault => rfl
      | ok value => simp [settle, Machine.push, Bind.bind, Except.bind]
  | _ => rfl

/-- **A call** is made at once, or fails before anything is changed. -/
theorem call_eq (scope : ScopeId) (argc : Int) :
    call argc m = settle m (m.execute scope (.call argc)) := by
  by_cases hlen : (m.stack.length : Int) < argc + 1
  · -- Then the number of arguments is not negative, and there is no function below them.
    have hneg : ¬ argc < 0 := by omega
    have hdrop : m.stack.drop argc.toNat = [] := List.drop_eq_nil_of_le (by omega)
    simp only [call, bind_run, get_run, if_pos hlen, fail_run, execute, if_neg hneg, callWith,
      hdrop, settle]
  · by_cases hneg : argc < 0
    · have htake : argc.toNat = 0 := by omega
      have hrest : (argc + 1).toNat = 0 := by omega
      have hcallee : callee? m.stack argc = m.stack.reverse[(-argc - 1).toNat]? := if_pos hneg
      cases hc : m.stack.reverse[(-argc - 1).toNat]? with
      | none =>
        rw [hc] at hcallee
        simp only [call, bind_run, get_run, if_neg hlen, hcallee, fail_run, execute, if_pos hneg,
          callAt, hc, settle]
      | some callee =>
        rw [call_eq_callValue hlen (hcallee.trans hc), htake, hrest]
        simp only [execute, if_pos hneg, callAt, hc, List.take_zero, List.reverse_nil,
          List.drop_zero]
    · have hlt : argc.toNat < m.stack.length := by omega
      have hcallee : callee? m.stack argc = some m.stack[argc.toNat] := by
        simp [callee?, hneg, hlt]
      have hrest : (argc + 1).toNat = argc.toNat + 1 := by omega
      rw [call_eq_callValue hlen hcallee, hrest]
      simp only [execute, if_neg hneg, callWith, List.drop_eq_getElem_cons hlt]

theorem callPrimitive_eq (scope : ScopeId) (name : String) (argc : Int) :
    callPrimitive name argc m = settle m (m.execute scope (.callPrimitive name argc)) := by
  unfold callPrimitive
  simp only [execute, applyPrimitive]
  cases Primitive.ofName? name with
  | none => rfl
  | some p =>
    by_cases hlen : (m.stack.length : Int) < argc
    · have hshort : min argc.toNat m.stack.length < argc.toNat := by omega
      simp only [bind_run, get_run, if_pos hlen, fail_run, List.length_reverse, List.length_take,
        if_pos hshort, settle]
    · have hlong : ¬ min argc.toNat m.stack.length < argc.toNat := by omega
      simp only [bind_run, get_run, if_neg hlen, ofExcept_run, List.length_reverse,
        List.length_take, if_neg hlong]
      cases p.apply (m.stack.take argc.toNat).reverse with
      | error fault => rfl
      | ok value => rfl

/-- A call does not look at the stack but for what it is given. -/
theorem callValue_withStack (s : List Value) (callee : Value) (args stack rest : List Value) :
    ({ m with stack := s } : Machine).callValue callee args stack rest =
      m.callValue callee args stack rest := by
  cases callee <;> rfl

/-- A call that fails is no call beyond the bottom of the stack. -/
theorem kind_of_uncalled {args : List Value} {callee : Value} {fault : Fault}
    (h : m.Uncalled args callee fault) : fault.kind ≠ .range := by
  cases h with
  | arguments hb =>
    rw [bind_eq_wrongArguments hb]
    nofun
  | missingParent _ _ | notFunction _ _ => nofun
  | primitive _ ha => rcases Primitive.kind_of_apply ha with hk | hk <;> rw [hk] <;> decide

/-- **An application** that fails has put the list back in place of its elements. -/
theorem apply_eq (scope : ScopeId) : apply m = settle m (m.execute scope .apply) := by
  match hs : m.stack with
  | [] | [_] => simp [apply, hs, execute, applyList, settle]
  | list :: callee :: below =>
    cases hl : list.list? with
    | none => simp [apply, hs, hl, execute, applyList, settle]
    | some items =>
      let spread : Machine := { m with stack := items.reverse ++ callee :: below }
      have hcall : call items.length spread =
          settle spread (m.callValue callee items (callee :: below) below) := by
        rw [call_eq scope]
        have hnot : ¬ ((items.length : Int) < 0) := by omega
        simp only [execute, if_neg hnot, Int.toNat_natCast, spread, callWith_append,
          callValue_withStack]
      have happly : m.execute scope .apply =
          m.callValue callee items (callee :: below) below := by
        simp only [execute, applyList, hs, hl, callWith_append]
      have hwork : apply m = undoing (call items.length) (dropTop items.length >>= fun _ => push list)
          spread := by
        simp [apply, hs, hl, spread]
      rw [hwork, happly, undoing, hcall]
      cases hc : m.callValue callee items (callee :: below) below with
      | ok after => rfl
      | error fault =>
        have hkind := kind_of_uncalled (callValue_eq_error.mp hc)
        -- What is left of the spread list is dropped, and the list is pushed again.
        simp [settle, hkind, spread, Machine.push, ← hs]

/-- **A return** makes its checks before its changes. -/
theorem leave_eq (scope : ScopeId) (hf : m.frames ≠ []) :
    leave m = settle m (m.execute scope .ret) := by
  match hframes : m.frames, hs : m.stack with
  | [], _ => exact absurd hframes hf
  | [_], [] => simp [leave, hframes, hs, execute, Machine.leave, settle]
  | [_], v :: rest => simp [leave, hframes, hs, execute, Machine.leave, settle, Machine.push]
  | _ :: _ :: _, [] => simp [leave, hframes, hs, execute, Machine.leave, settle]
  | _ :: _ :: _, [_] => simp [leave, hframes, hs, execute, Machine.leave, settle]
  | _ :: _ :: _, _ :: callee :: _ =>
    cases callee <;> simp [leave, hframes, hs, execute, Machine.leave, settle, Machine.push]

/-- **The work of an instruction is done at once or not at all**, and is what the instruction
does. -/
theorem handler_eq (scope : ScopeId) (i : Instruction) (hf : m.frames ≠ []) :
    handler scope i m = settle m (m.execute scope i) := by
  cases i with
  | pushConst v => rfl
  | pop =>
    cases hs : m.stack <;> simp [handler, execute, Machine.pop, hs, settle, Bind.bind, Except.bind]
  | lookup name =>
    simp only [handler, bind_run, get_run, ofExcept_run, execute]
    cases m.arena.find scope name with
    | error fault => rfl
    | ok found =>
      cases found with
      | some found => rfl
      | none => cases Primitive.ofName? name <;> rfl
  | define name =>
    simp only [handler, bind_run, get_run, ofExcept_run, execute]
    cases hg : m.arena.get scope with
    | error fault => rfl
    | ok s =>
      cases hs : m.stack with
      | nil => simp [Machine.pop, hs, settle, Bind.bind, Except.bind]
      | cons v rest =>
        -- The scope is there, so nothing fails once the value has been taken.
        simp [Machine.pop, hs, settle, Arena.define, hg, Bind.bind, Except.bind]
  | jumpIfTruthy offset =>
    cases hs : m.stack with
    | nil => simp [handler, execute, top, hs, settle, Bind.bind, Except.bind]
    | cons v rest =>
      cases hv : v.isFalsy <;> simp [handler, execute, top, hs, hv, settle, Bind.bind, Except.bind]
  | jumpIfFalsy offset =>
    cases hs : m.stack with
    | nil => simp [handler, execute, Machine.pop, hs, settle, Bind.bind, Except.bind]
    | cons v rest =>
      cases hv : v.isFalsy <;>
        simp [handler, execute, Machine.pop, hs, hv, settle, Bind.bind, Except.bind]
  | ret => exact leave_eq scope hf
  | makeClosure =>
    cases hs : m.stack with
    | nil => simp [handler, execute, hs, settle]
    | cons v rest => cases v <;> simp [handler, execute, hs, settle]
  | call argc => exact call_eq scope argc
  | callPrimitive name argc => exact callPrimitive_eq scope name argc
  | apply => exact apply_eq scope
  | display =>
    cases hs : m.stack <;>
      simp [handler, execute, Machine.pop, hs, settle, Machine.push, Bind.bind, Except.bind]
  | undefined opcode => rfl

/-! ## Steps -/

/-- What an instruction that fails leaves of a step: if it counts beyond the bottom of the stack
the frame has moved on, and otherwise only the fault is remembered. -/
theorem failed_of_fails {scope : ScopeId} {i : Instruction} {fault : Fault}
    (h : (m.jump 1).Fails scope i fault) :
    m.failed fault = if fault.kind = .range then m.jump 1 else { m with fault := some fault } := by
  have happlied : ∀ {p : Primitive} {args : List Value}, p.apply args = .error fault →
      m.failed fault = if fault.kind = .range then m.jump 1 else { m with fault := some fault } := by
    intro p args ha
    rcases Primitive.kind_of_apply ha with hk | hk <;> cases fault <;> first | rfl | cases hk
  have hcalled : ∀ {args : List Value} {callee : Value}, (m.jump 1).Uncalled args callee fault →
      m.failed fault = if fault.kind = .range then m.jump 1 else { m with fault := some fault } := by
    intro args callee hc
    cases hc with
    | arguments hb =>
      rw [bind_eq_wrongArguments hb]
      rfl
    | missingParent _ _ | notFunction _ _ => rfl
    | primitive _ ha => exact happlied ha
  cases h with
  | lookup hf =>
    obtain ⟨k, rfl⟩ := Arena.missingScope_of_find hf
    rfl
  | missingScope hg =>
    obtain rfl := (Arena.get_eq_error.mp hg).2
    rfl
  | ret hl => obtain rfl | rfl | ⟨callee, rfl⟩ := fault_of_leave hl <;> rfl
  | call _ _ hc => exact hcalled hc
  | callAt _ _ hc => exact hcalled hc
  | apply _ _ hc => exact hcalled hc
  | callPrimitive _ _ _ ha => exact happlied ha
  | _ => rfl

/-- **A step in place is a step.** -/
theorem step_eq (m : Machine) : step m = m.step := by
  unfold step Machine.step
  cases hfault : m.fault with
  | some fault => rfl
  | none =>
    simp only
    cases hframes : m.frames with
    | nil => simp [advance, hframes, failed]
    | cons frame frames =>
      have hmove : moveTo (frame.ip + 1) m = (.ok (), m.jump 1) := by
        simp [moveTo, jump, hframes]
      have hstay : (moveTo frame.ip m).2 = m := by
        obtain ⟨arena, stack, _, output, steps, _, threshold, allocations⟩ := m
        cases hframes
        rfl
      have hback : (moveTo frame.ip (m.jump 1)).2 = m := by
        obtain ⟨arena, stack, _, output, steps, _, threshold, allocations⟩ := m
        cases hframes
        rfl
      simp only [instruction, bind_run, ofExcept_run, advance, hframes]
      cases hi : fetch frame with
      | error fault =>
        obtain rfl | rfl := fault_of_fetch hi
        · simp [Bind.bind, Except.bind, Fault.kind, failed]
        · simp [Bind.bind, Except.bind, Fault.kind, failed, hstay]
      | ok i =>
        have hne : (m.jump 1).frames ≠ [] := by simp [jump, hframes]
        simp only [hmove, handler_eq frame.scope i hne]
        cases he : (m.jump 1).execute frame.scope i with
        | ok after => simp [settle, he, Bind.bind, Except.bind]
        | error fault =>
          simp only [settle, he, Bind.bind, Except.bind,
            failed_of_fails (execute_eq_error.mp he), hback]
          split <;> rfl

end InPlace

/-- **A step that fails leaves everything as it was**, whatever the machine is like: only the fault
is remembered, and with it all later steps fail, which change nothing.  The machine that works in
place, and takes back what it has done, comes to the same. -/
theorem failed_step_undone {m after : Machine} {fault : Fault} (hframes : m.frames ≠ [])
    (hfault : m.fault = none) (hkind : fault.kind ≠ .range) (h : m.step = (after, some fault)) :
    after = { m with fault := some fault } ∧
    (∀ n, after.stepTimes (n + 1) = (after, some fault)) ∧
    InPlace.step m = ({ m with fault := some fault }, some fault) ∧
    InPlace.step after = (after, some fault) := by
  have hafter : after = { m with fault := some fault } := by
    cases ha : m.advance with
    | ok next =>
      rw [step_of_ok hfault ha] at h
      cases h
    | error f =>
      rw [step_of_error hfault ha] at h
      cases h
      rcases advance_eq_error.mp ha with ⟨hnone, -⟩ | ⟨frame, frames, -, hfetch | ⟨i, -, hfails⟩⟩
      · exact absurd hnone hframes
      · obtain rfl | rfl := fault_of_fetch hfetch
        · exact absurd rfl hkind
        · rfl
      · rw [InPlace.failed_of_fails hfails, if_neg hkind]
  have hlater : after.step = (after, some fault) := step_of_fault (hafter ▸ rfl)
  refine ⟨hafter, fun n => ?_, ?_, ?_⟩
  · rw [stepTimes, hlater]
  · rw [InPlace.step_eq, h, hafter]
  · rw [InPlace.step_eq, hlater]

/-- The application in `(apply (lambda (a b) a) '(1))`, which has too few arguments: its list is
put back. -/
theorem failed_step_undone_apply :
    let list : Value := .ofList [.number 1] none .nil
    let callee : Value := .closure ⟨["a", "b"], none⟩ [.lookup "a", .ret] 0
    let m : Machine := ⟨.empty, [list, callee], [⟨[.apply, .ret], 0, 0⟩], [], 2, none, 0, 0⟩
    let fault : Fault := .wrongArguments ⟨["a", "b"], none⟩ [.number 1]
    m.step = ({ m with fault := some fault }, some fault) ∧
      (InPlace.step m).1.stack = [list, callee] := by
  intro list callee m fault
  have hstep : m.step = ({ m with fault := some fault }, some fault) := rfl
  have hkind : fault.kind ≠ .range := by simp [fault, Fault.kind]
  have hinplace := (failed_step_undone (List.cons_ne_nil _ _) rfl hkind hstep).2.2.1
  exact ⟨hstep, by rw [hinplace]⟩

end StackLisp.Machine
