import StackLisp.Macro.Basic
import StackLisp.Proofs.Code.Height
import StackLisp.Proofs.Machine.Failure
import StackLisp.Proofs.Machine.Kept
import StackLisp.Proofs.Machine.Steps

/-!
# The discipline of the stack

While compiled code runs, the stack is cut up by the frames.  Each frame has a **segment** of
values of its own, the innermost on top.  Below the segment of a frame that was called lies the
closure that it runs, and below that the segment of its caller.  How high a segment is can be
read off the place in the code: a frame that runs has the height before its next instruction,
and one that waits for a call has one value less, the callee being where the result will be
(`Machine.Segmented`).

**Every machine that runs compiled code keeps to this** (`stack_discipline`).  So the faults
that tell of broken code or a broken stack (`Fault.isBroken`) never occur, primitives that are
called by name get the right number of operands, and a program ends with one value.

The invariant behind it (`Machine.Settled`) says more of a frame than its height: the code
ahead is balanced.  Between a constant and the instruction that belongs to it, what is on top of
the stack counts too (`Ready`).
-/

namespace StackLisp

/-- **The faults of broken code or a broken stack**: there are too few values, or code runs out,
or an instruction or primitive does not exist, or the value that an instruction is about is not
what it should be. -/
def Fault.isBroken : Fault → Bool
  | .emptyStack | .returnUnderflow | .primitiveUnderflow _ _ _ | .applyUnderflow
  | .callUnderflow _ _ | .noResult | .endOfCode | .undefinedInstruction _ | .unknownPrimitive _
  | .notCallee _ | .notTemplate _ | .beforeCode | .aboveStack | .unfinished => true
  | _ => false

/-- A primitive that fails does not break anything. -/
theorem Fault.not_broken_of_apply {p : Primitive} {args : List Value} {fault : Fault}
    (h : p.apply args = .error fault) : fault.isBroken = false := by
  rcases Primitive.kind_of_apply h with hk | hk <;> cases fault <;> first | rfl | cases hk

/-- At a place in the code, the instruction there is fetched. -/
theorem Machine.fetch_eq_ok {f : Frame} (hip : 0 ≤ f.ip) {i : Instruction} :
    fetch f = .ok i ↔ f.code[f.ip.toNat]? = some i := by
  unfold fetch
  simp only [if_neg (Int.not_lt.mpr hip)]
  split <;> simp_all

namespace Frame

/-- The code that a frame has not run yet. -/
def ahead (f : Frame) : Code :=
  f.code.drop f.ip.toNat

/-- A frame whose position is a place in its code. -/
def Inside (f : Frame) : Prop :=
  0 ≤ f.ip ∧ f.ip < f.code.length

/-- The height of the stack before the next instruction of a frame. -/
def height (f : Frame) : Nat :=
  (Code.heights f.code).getD f.ip.toNat 0

theorem height_eq (f : Frame) : f.height = Code.height f.ahead :=
  Code.getD_heights f.ip.toNat f.code

theorem inside_of_ahead {f : Frame} (hip : 0 ≤ f.ip) (h : f.ahead ≠ []) : f.Inside := by
  refine ⟨hip, ?_⟩
  rcases Nat.lt_or_ge f.ip.toNat f.code.length with hlt | hge
  · omega
  · exact absurd (List.drop_eq_nil_of_le hge) h

theorem fetch_of_ahead {f : Frame} (hip : 0 ≤ f.ip) {i : Instruction} {rest : Code}
    (h : f.ahead = i :: rest) : Machine.fetch f = .ok i := by
  rw [Machine.fetch_eq_ok hip, ← List.head?_drop]
  exact congrArg List.head? h

/-- Going on by one instruction and a jump. -/
theorem ahead_move {f : Frame} (hip : 0 ≤ f.ip) {i : Instruction} {rest : Code}
    (h : f.ahead = i :: rest) (n : Nat) :
    ({ f with ip := f.ip + 1 + n } : Frame).ahead = rest.drop n := by
  have hn : (f.ip + 1 + n).toNat = f.ip.toNat + (n + 1) := by omega
  simp only [ahead, hn] at h ⊢
  rw [← List.drop_drop, h, List.drop_succ_cons]

end Frame

namespace Machine

/-- A step executes the instruction ahead. -/
theorem advance_of_ahead {m : Machine} {f : Frame} {callers : List Frame} {i : Instruction}
    {rest : Code} (hf : m.frames = f :: callers) (hip : 0 ≤ f.ip) (h : f.ahead = i :: rest) :
    m.advance = do
      let after ← (m.jump 1).execute f.scope i
      return { after with steps := after.steps + 1 } := by
  simp only [advance, hf, Frame.fetch_of_ahead hip h]
  rfl

/-- **The stack cut up by the frames**, from the innermost frame outwards.  `awaited` is the
number of values that the innermost of these frames is waiting for. -/
def Segmented (awaited : Nat) : List Frame → List Value → Prop
  | [], _ => False
  | [f], stack => f.Inside ∧ f.height = stack.length + awaited
  | f :: caller :: frames, stack =>
    ∃ segment params scope below, stack = segment ++ .closure params f.code scope :: below ∧
      f.Inside ∧ f.height = segment.length + awaited ∧ Segmented 1 (caller :: frames) below

/-! ## The invariant -/

/-- **A frame may go on** with the code ahead and the values of its segment.  If it is about to
make a closure, the template is one that its code has just pushed for that. -/
inductive Ready (whole : Code) : Code → List Value → Prop
  | balanced {code : Code} {segment : List Value} (h : Code.Balanced code segment.length) :
      Ready whole code segment
  | template {rest body : Code} {params : Parameters} {segment : List Value}
      (hm : Code.Makes whole params body) (h : Code.Balanced rest (segment.length + 1)) :
      Ready whole (.makeClosure :: rest) (.template params body :: segment)
  | falsy {rest : Code} {n : Nat} {v : Value} {segment : List Value} (hv : v.isFalsy = true)
      (h : Code.Balanced (rest.drop n) segment.length) :
      Ready whole (.jumpIfFalsy n :: rest) (v :: segment)

/-- The frames below one that runs `code`, and their part of the stack. -/
inductive Awaiting : Code → List Frame → List Value → Prop
  | nothing (code : Code) : Awaiting code [] []
  | call {code : Code} {caller : Frame} {frames : List Frame} {segment below : List Value}
      (params : Parameters) (scope : ScopeId) (hip : 0 ≤ caller.ip)
      (hb : Code.Balanced caller.ahead (segment.length + 1))
      (hr : Awaiting caller.code frames below) :
      Awaiting code (caller :: frames) (.closure params code scope :: (segment ++ below))

/-- A machine whose innermost frame may go on, and whose other frames wait. -/
structure Running (m : Machine) (f : Frame) (callers : List Frame)
    (segment below : List Value) : Prop where
  frames : m.frames = f :: callers
  stack : m.stack = segment ++ below
  inside : 0 ≤ f.ip
  ready : Ready f.code f.ahead segment
  awaiting : Awaiting f.code callers below

/-- A value that does not break the order when it is called: its code is balanced. -/
def Callable (v : Value) : Prop :=
  ∀ params code scope, v = .closure params code scope → Code.Balanced code 0

theorem Compiled.callable {m : Machine} (h : m.Compiled) : ∀ v ∈ m.stack, Callable v := by
  rintro v hv params code scope rfl
  cases h.stack _ hv with
  | closure hcode =>
    obtain ⟨hne, -, hcode⟩ := hcode
    exact Code.balanced_of_ofBody hne hcode

/-- **Where an instruction leads** whose frame `f` already points behind it: the frame goes on, or
a closure is entered, or the frame returns to its caller, or the program has finished.  Nothing
happens to the frames and values below. -/
inductive Moved (m : Machine) (f : Frame) (callers : List Frame) (below : List Value)
    (next : Machine) : Prop
  | stays {g : Frame} {segment : List Value} (hs : g.scope = f.scope)
      (h : next.Running g callers segment below)
  | enters {g : Frame} {operands : List Value} {params : Parameters} {closed : ScopeId}
      (hs : g.scope = m.arena.nextId) (hb : Code.Balanced f.ahead (operands.length + 1))
      (h : next.Running g (f :: callers) [] (.closure params g.code closed :: (operands ++ below)))
  | returns {caller : Frame} {frames : List Frame} {v : Value} {params : Parameters}
      {closed : ScopeId} {segment rest : List Value} (hf : callers = caller :: frames)
      (hs : below = .closure params f.code closed :: (segment ++ rest))
      (hb : Code.Balanced caller.ahead (segment.length + 1))
      (h : next.Running caller frames (v :: segment) rest)
  | finishes {v : Value} (hf : callers = []) (hn : next.frames = []) (hs : next.stack = [v])

/-- **A machine in order**: it is running, or has finished with one value. -/
def Settled (m : Machine) : Prop :=
  (m.frames = [] ∧ ∃ v, m.stack = [v]) ∨
    ∃ f callers segment below, m.Running f callers segment below

/-! ## What the invariant says about the stack -/

theorem Ready.ne_nil {whole code : Code} {segment : List Value} (h : Ready whole code segment) :
    code ≠ [] := by
  cases h with
  | balanced h => exact h.ne_nil
  | template _ _ | falsy _ _ => exact List.cons_ne_nil _ _

theorem Ready.height_eq {whole code : Code} {segment : List Value}
    (h : Ready whole code segment) : Code.height code = segment.length := by
  cases h with
  | balanced h => exact h.height_eq
  | template _ h => simpa [Code.height, Code.heights, Code.heightBefore] using h.height_eq
  | falsy hv h =>
    have := h.height_eq
    rw [← Code.getD_heights, List.getD_eq_getElem?_getD] at this
    simp [Code.height, Code.heights, Code.heightBefore, this]

theorem Awaiting.segmented {f : Frame} {frames : List Frame} {segment below : List Value}
    {awaited : Nat} (h : Awaiting f.code frames below) (hf : f.Inside)
    (hh : f.height = segment.length + awaited) :
    Segmented awaited (f :: frames) (segment ++ below) := by
  generalize hc : f.code = code at h
  induction h generalizing f segment awaited with
  | nothing code => exact ⟨hf, by simpa using hh⟩
  | call params scope hip hb hr ih =>
    subst hc
    refine ⟨segment, params, scope, _, rfl, hf, hh, ih ?_ ?_ rfl⟩
    · exact Frame.inside_of_ahead hip hb.ne_nil
    · rw [Frame.height_eq, hb.height_eq]

/-- **A machine in order has its stack cut up by its frames.** -/
theorem Running.segmented {m : Machine} {f : Frame} {callers : List Frame}
    {segment below : List Value} (h : m.Running f callers segment below) :
    Segmented 0 m.frames m.stack := by
  rw [h.frames, h.stack]
  refine h.awaiting.segmented (Frame.inside_of_ahead h.inside h.ready.ne_nil) ?_
  rw [Frame.height_eq, h.ready.height_eq, Nat.add_zero]

/-! ## Steps keep the order -/

/-- A machine whose innermost frame `f` has fetched an instruction and points behind it, at
`rest`. -/
structure Fetched (m : Machine) (f : Frame) (callers : List Frame) (rest : Code)
    (segment below : List Value) : Prop where
  frames : m.frames = f :: callers
  stack : m.stack = segment ++ below
  inside : 0 ≤ f.ip
  ahead : f.ahead = rest
  awaiting : Awaiting f.code callers below

section Fetched
variable {m next : Machine} {f : Frame} {callers : List Frame} {rest : Code}
  {segment below : List Value} {scope : ScopeId} {i : Instruction}

theorem Running.fetched (h : m.Running f callers segment below) (ha : f.ahead = i :: rest) :
    (m.jump 1).Fetched { f with ip := f.ip + 1 } callers rest segment below where
  frames := by simp [jump, h.frames]
  stack := by simp [jump, h.frames, h.stack]
  inside := Int.add_nonneg h.inside (by decide)
  ahead := by simpa using Frame.ahead_move h.inside ha 0
  awaiting := h.awaiting

/-- The frame goes on with the next instruction. -/
theorem Fetched.stays (h : m.Fetched f callers rest segment below) (operands : List Value)
    (hf : next.frames = m.frames) (hs : next.stack = operands ++ below)
    (hr : Ready f.code rest operands) : m.Moved f callers below next :=
  .stays rfl ⟨hf.trans h.frames, hs, h.inside, h.ahead ▸ hr, h.awaiting⟩

/-- The frame goes on where it jumps to. -/
theorem Fetched.stays_jump (h : m.Fetched f callers rest segment below) {n : Nat}
    (operands : List Value) (hf : next.frames = m.frames) (hs : next.stack = operands ++ below)
    (hr : Ready f.code (rest.drop n) operands) : m.Moved f callers below (next.jump n) := by
  refine .stays (g := { f with ip := f.ip + n }) rfl ⟨?_, (?_ : _ = operands ++ below), ?_, ?_,
    h.awaiting⟩
  · simp [jump, hf, h.frames]
  · simp [jump, hf, h.frames, hs]
  · exact Int.add_nonneg h.inside (Int.natCast_nonneg n)
  · have hn : (f.ip + n).toNat = f.ip.toNat + n := by
      have := h.inside
      omega
    have : ({ f with ip := f.ip + n } : Frame).ahead = rest.drop n := by
      rw [← h.ahead]
      simp only [Frame.ahead, hn, List.drop_drop]
    rwa [this]

/-- The topmost values of the stack belong to the frame that runs, if its segment is that
high. -/
theorem operands_of_append {args stack : List Value}
    (h : segment ++ below = args.reverse ++ stack) (hl : args.length ≤ segment.length) :
    ∃ operands, segment = args.reverse ++ operands ∧ stack = operands ++ below := by
  rcases List.append_eq_append_iff.mp h with ⟨extra, he, rfl⟩ | ⟨operands, rfl, rfl⟩
  · have := congrArg List.length he
    simp only [List.length_reverse, List.length_append] at this
    obtain rfl : extra = [] := List.length_eq_zero_iff.mp (by omega)
    exact ⟨[], by simpa using he.symm, rfl⟩
  · exact ⟨operands, rfl, rfl⟩

/-- The operands of a call, and the function below them. -/
theorem callee_of_append {args stack : List Value} {callee : Value}
    (h : segment ++ below = args.reverse ++ callee :: stack) (hl : args.length < segment.length) :
    ∃ operands, segment = args.reverse ++ callee :: operands ∧ stack = operands ++ below := by
  obtain ⟨operands, rfl, hs⟩ := operands_of_append h (Nat.le_of_lt hl)
  cases operands with
  | nil => simp at hl
  | cons v operands =>
    obtain ⟨rfl, rfl⟩ := List.cons.inj hs
    exact ⟨operands, rfl, rfl⟩

/-- **A call keeps the order**: the closure that is called stays below the segment of the new
frame, and the value of a primitive takes the place of the call. -/
theorem Fetched.called (h : m.Fetched f callers rest segment below)
    {callee : Value} {args operands : List Value} (hcallee : Callable callee)
    (hb : Code.Balanced rest (operands.length + 1))
    (hc : m.Called args (callee :: (operands ++ below)) (operands ++ below) callee next) :
    m.Moved f callers below next := by
  cases hc with
  | @closure params code closed id bindings arena _ ha =>
    have hahead : Code.Balanced f.ahead (operands.length + 1) := h.ahead ▸ hb
    exact .enters (g := ⟨code, 0, id⟩) (Arena.id_of_allocate ha).1 hahead ⟨by simp [h.frames],
      by simp, Int.le_refl 0, .balanced (hcallee params code closed rfl),
      .call params closed h.inside hahead h.awaiting⟩
  | @primitive _ _ value _ _ =>
    exact h.stays (value :: operands) rfl rfl (.balanced hb)

/-- **Instructions keep the order.** -/
theorem Fetched.effect (h : m.Fetched f callers rest segment below) (hi : i :: rest <:+ f.code)
    (hr : Ready f.code (i :: rest) segment) (hv : ∀ v ∈ m.stack, Callable v)
    (he : m.Effect scope i next) : m.Moved f callers below next := by
  have hstack := h.stack
  cases hr with
  | template _ hb =>
    cases he with
    | makeClosure hs =>
      obtain ⟨-, rfl⟩ := List.cons.inj (hs.symm.trans hstack)
      exact h.stays (_ :: _) rfl rfl (.balanced hb)
  | falsy hf hb =>
    cases he with
    | jumpIfFalsy hs =>
      obtain ⟨rfl, rfl⟩ := List.cons.inj (hs.symm.trans hstack)
      rw [if_pos hf]
      exact h.stays_jump _ rfl rfl (.balanced hb)
  | balanced hb =>
    generalize hlen : segment.length = height at hb
    cases hb with
    | ret _ =>
      obtain ⟨v, rfl⟩ := List.length_eq_one_iff.mp hlen
      have hw := h.awaiting
      cases he with
      | finish hf hs =>
        obtain ⟨-, rfl⟩ := List.cons.inj (hf.symm.trans h.frames)
        cases hw
        exact .finishes rfl rfl hstack
      | ret hf hs =>
        obtain ⟨-, rfl⟩ := List.cons.inj (hf.symm.trans h.frames)
        obtain ⟨rfl, hs⟩ := List.cons.inj (hs.symm.trans hstack)
        cases hw with
        | call _ _ hip hb hw =>
          obtain ⟨-, rfl⟩ := List.cons.inj hs
          exact .returns rfl rfl hb ⟨rfl, rfl, hip, .balanced hb, hw⟩
    | pushConst v hb =>
      subst hlen
      cases he with
      | pushConst _ =>
        exact h.stays (v :: segment) rfl (congrArg (v :: ·) hstack) (.balanced hb)
    | function params hb =>
      subst hlen
      cases he with
      | pushConst _ =>
        have hm : Code.Makes f.code params _ := (List.IsInfix.trans ⟨[], _, rfl⟩ hi.isInfix)
        exact h.stays (_ :: segment) rfl (congrArg (_ :: ·) hstack) (.template hm hb)
    | goto hv hb =>
      subst hlen
      cases he with
      | pushConst _ =>
        exact h.stays (_ :: segment) rfl (congrArg (_ :: ·) hstack) (.falsy hv hb)
    | lookup name hb =>
      subst hlen
      cases he with
      | lookup hf =>
        exact h.stays (_ :: segment) rfl (congrArg (_ :: ·) hstack) (.balanced hb)
      | lookupPrimitive hf hp =>
        exact h.stays (_ :: segment) rfl (congrArg (_ :: ·) hstack) (.balanced hb)
    | pop hb =>
      obtain ⟨v, operands, rfl⟩ := List.exists_cons_of_length_eq_add_one hlen
      obtain rfl := Nat.succ.inj hlen
      cases he with
      | pop hs =>
        obtain ⟨-, rfl⟩ := List.cons.inj (hs.symm.trans hstack)
        exact h.stays _ rfl rfl (.balanced hb)
    | define name hb =>
      obtain ⟨v, operands, rfl⟩ := List.exists_cons_of_length_eq_add_one hlen
      obtain rfl := Nat.succ.inj hlen
      cases he with
      | define hs hd =>
        obtain ⟨-, rfl⟩ := List.cons.inj (hs.symm.trans hstack)
        exact h.stays _ rfl rfl (.balanced hb)
    | jumpIfTruthy hb hj =>
      rw [← hlen] at hb hj
      cases he with
      | jumpIfTruthy hs =>
        split
        · exact h.stays _ rfl hstack (.balanced hb)
        · exact h.stays_jump _ rfl hstack (.balanced hj)
    | jumpIfFalsy hb hj =>
      obtain ⟨v, operands, rfl⟩ := List.exists_cons_of_length_eq_add_one hlen
      obtain rfl := Nat.succ.inj hlen
      cases he with
      | jumpIfFalsy hs =>
        obtain ⟨-, rfl⟩ := List.cons.inj (hs.symm.trans hstack)
        split
        · exact h.stays_jump _ rfl rfl (.balanced hj)
        · exact h.stays _ rfl rfl (.balanced hb)
    | @call _ height argc hb =>
      cases he with
      | call hs hn hc =>
        rw [hs] at hstack hv
        obtain ⟨operands, rfl, rfl⟩ := callee_of_append hstack.symm (by omega)
        simp only [List.length_append, List.length_reverse, List.length_cons] at hlen
        obtain rfl : height = operands.length := by omega
        exact h.called (hv _ (by simp)) hb hc
      | callAt hn _ _ => exact absurd hn (by omega)
    | @callPrimitive _ height argc p ha hb =>
      cases he with
      | @callPrimitive _ _ _ args stack value hs hn hp happ =>
        have hl : args.length ≤ segment.length := by omega
        obtain ⟨operands, rfl, rfl⟩ := operands_of_append (hstack.symm.trans hs) hl
        simp only [List.length_append, List.length_reverse] at hlen
        obtain rfl : height = operands.length := by omega
        exact h.stays (value :: operands) rfl rfl (.balanced hb)
    | @apply _ height hb =>
      obtain ⟨list, tail, rfl⟩ := List.exists_cons_of_length_eq_add_one hlen
      obtain ⟨callee, operands, rfl⟩ := List.exists_cons_of_length_eq_add_one (Nat.succ.inj hlen)
      obtain rfl : operands.length = height := by simpa using hlen
      cases he with
      | apply hs hl hc =>
        rw [hs] at hstack hv
        obtain ⟨-, hstack⟩ := List.cons.inj hstack
        obtain ⟨rfl, rfl⟩ := List.cons.inj hstack
        exact h.called (hv _ (by simp)) hb hc
    | display hb =>
      obtain ⟨v, operands, rfl⟩ := List.exists_cons_of_length_eq_add_one hlen
      obtain rfl := Nat.succ.inj hlen
      cases he with
      | display hs =>
        obtain ⟨-, rfl⟩ := List.cons.inj (hs.symm.trans hstack)
        exact h.stays (.nil :: operands) rfl rfl (.balanced hb)

/-! ## Which faults are left -/

/-- A call may fail in several ways, but not since the stack is broken. -/
theorem Uncalled.not_broken {callee : Value} {args : List Value} {fault : Fault}
    (h : m.Uncalled args callee fault) : fault.isBroken = false := by
  cases h with
  | arguments hb =>
    rw [bind_eq_wrongArguments hb]
    rfl
  | missingParent _ _ | notFunction _ _ => rfl
  | primitive _ ha => exact Fault.not_broken_of_apply ha

/-- **Compiled code does not break**: an instruction that fails has found what it takes. -/
theorem Fetched.not_broken (h : m.Fetched f callers rest segment below) {whole : Code}
    (hr : Ready whole (i :: rest) segment) {fault : Fault} (he : m.Fails scope i fault) :
    fault.isBroken = false ∧ ∀ name argc, i = .callPrimitive name argc → fault.kind ≠ .arity := by
  have hstack := h.stack
  cases hr with
  | template _ hb =>
    exfalso
    cases he with
    | makeClosure hs => cases hs.symm.trans hstack
    | notTemplate hs hv =>
      obtain ⟨rfl, -⟩ := List.cons.inj (hs.symm.trans hstack)
      exact hv _ _ rfl
  | falsy hf hb =>
    exfalso
    cases he with
    | jumpIfFalsy hs => cases hs.symm.trans hstack
  | balanced hb =>
    generalize hlen : segment.length = height at hb
    cases hb with
    | ret _ =>
      exfalso
      obtain ⟨v, rfl⟩ := List.length_eq_one_iff.mp hlen
      have hw := h.awaiting
      cases he with
      | ret hl =>
        cases hw with
        | nothing => simp [leave, h.frames, hstack] at hl
        | call => simp [leave, h.frames, hstack] at hl
    | pushConst v hb => cases he
    | function params hb => cases he
    | goto hv hb => cases he
    | lookup name hb =>
      refine ⟨?_, by simp⟩
      cases he with
      | lookup hf =>
        obtain ⟨k, rfl⟩ := Arena.missingScope_of_find hf
        rfl
      | unbound _ _ => rfl
    | define name hb =>
      refine ⟨?_, by simp⟩
      obtain ⟨v, operands, rfl⟩ := List.exists_cons_of_length_eq_add_one hlen
      cases he with
      | missingScope hg =>
        obtain rfl := (Arena.get_eq_error.mp hg).2
        rfl
      | define hg hs => cases hs.symm.trans hstack
    | pop hb | jumpIfTruthy hb hj | jumpIfFalsy hb hj | display hb =>
      exfalso
      obtain ⟨v, operands, rfl⟩ := List.exists_cons_of_length_eq_add_one hlen
      cases he with
      | _ hs => cases hs.symm.trans hstack
    | @call _ height argc hb =>
      refine ⟨?_, by simp⟩
      have hl : m.stack.length = height + 1 + argc + below.length := by
        rw [hstack, List.length_append, hlen]
      cases he with
      | callUnderflow hs => omega
      | call hs hn hc => exact hc.not_broken
      | aboveStack hn _ => exact absurd hn (by omega)
      | callAt hn _ _ => exact absurd hn (by omega)
    | @callPrimitive _ height argc p ha hb =>
      have hl : m.stack.length = height + argc + below.length := by
        rw [hstack, List.length_append, hlen]
      cases he with
      | unknownPrimitive hp => simp [Primitive.ofName?_name] at hp
      | primitiveUnderflow _ hs => omega
      | @callPrimitive _ _ q args stack _ hs hn hp happ =>
        obtain rfl : p = q := by simpa [Primitive.ofName?_name] using hp
        have hk : fault.kind = .type := Primitive.type_of_apply (by simpa [← hn] using ha) happ
        exact ⟨Fault.not_broken_of_apply happ, by simp [hk]⟩
    | @apply _ height hb =>
      refine ⟨?_, by simp⟩
      have hl : m.stack.length = height + 2 + below.length := by
        rw [hstack, List.length_append, hlen]
      cases he with
      | applyUnderflow hs => omega
      | notArguments _ _ => rfl
      | apply hs hl hc => exact hc.not_broken

end Fetched

section Settled
variable {m after : Machine}

/-- The instruction at the innermost frame of a machine that is running. -/
theorem Running.exists_fetched {f : Frame} {callers : List Frame} {segment below : List Value}
    (h : m.Running f callers segment below) :
    ∃ i rest, fetch f = .ok i ∧ i :: rest <:+ f.code ∧ Ready f.code (i :: rest) segment ∧
      (m.jump 1).Fetched { f with ip := f.ip + 1 } callers rest segment below := by
  obtain ⟨i, rest, ha⟩ := List.exists_cons_of_ne_nil h.ready.ne_nil
  exact ⟨i, rest, Frame.fetch_of_ahead h.inside ha, ha ▸ List.drop_suffix _ _, ha ▸ h.ready,
    h.fetched ha⟩

theorem Running.congr {f : Frame} {callers : List Frame} {segment below : List Value}
    (h : m.Running f callers segment below) (hf : after.frames = m.frames)
    (hs : after.stack = m.stack) : after.Running f callers segment below :=
  ⟨hf.trans h.frames, hs.trans h.stack, h.inside, h.ready, h.awaiting⟩

theorem Settled.congr (h : m.Settled) (hf : after.frames = m.frames) (hs : after.stack = m.stack) :
    after.Settled := by
  rcases h with ⟨hnone, v, hv⟩ | ⟨f, callers, segment, below, h⟩
  · exact .inl ⟨hf.trans hnone, v, hs.trans hv⟩
  · exact .inr ⟨f, callers, segment, below, h.congr hf hs⟩

/-- A machine that is about to make a closure has just pushed its template for that. -/
theorem Running.makes {f : Frame} {callers : List Frame} {segment below rest : List Value}
    {params : Parameters} {body : Code} (h : m.Running f callers segment below)
    (hi : fetch f = .ok .makeClosure) (hs : m.stack = .template params body :: rest) :
    Code.Makes f.code params body := by
  obtain ⟨i, rest', hj, -, hr, -⟩ := h.exists_fetched
  cases hi.symm.trans hj
  have hstack := h.stack
  cases hr with
  | balanced hb => cases hb
  | template hm _ =>
    obtain ⟨hv, -⟩ := List.cons.inj (hs.symm.trans hstack)
    cases hv
    exact hm

/-- **Steps of a machine that is running** lead where its next instruction leads. -/
theorem Running.advance {f : Frame} {callers : List Frame} {segment below : List Value}
    (h : m.Running f callers segment below) (hm : ∀ v ∈ m.stack, Callable v)
    (ha : m.advance = .ok after) :
    m.Moved { f with ip := f.ip + 1 } callers below after := by
  obtain ⟨frame, frames, i, next, hf, hi, he, rfl⟩ := advance_eq_ok.mp ha
  obtain ⟨rfl, rfl⟩ := List.cons.inj (hf.symm.trans h.frames)
  obtain ⟨j, rest, hj, hin, hr, hfetched⟩ := h.exists_fetched
  cases hi.symm.trans hj
  cases hfetched.effect hin hr (by simpa using hm) he with
  | stays hs h => exact .stays hs (h.congr rfl rfl)
  | enters hs hb h => exact .enters (hs.trans (by simp)) hb (h.congr rfl rfl)
  | returns hf hs hb h => exact .returns hf hs hb (h.congr rfl rfl)
  | finishes hf hn hs => exact .finishes hf hn hs

/-- What an instruction leads to is in order. -/
theorem Moved.settled {f : Frame} {callers : List Frame} {below : List Value}
    (h : m.Moved f callers below after) : after.Settled := by
  cases h with
  | stays _ h => exact .inr ⟨_, _, _, _, h⟩
  | enters _ _ h => exact .inr ⟨_, _, _, _, h⟩
  | returns _ _ _ h => exact .inr ⟨_, _, _, _, h⟩
  | finishes _ hn hs => exact .inl ⟨hn, _, hs⟩

/-- **Steps keep the order.** -/
theorem Settled.advance (h : m.Settled) (hm : ∀ v ∈ m.stack, Callable v)
    (ha : m.advance = .ok after) : after.Settled := by
  rcases h with ⟨hnone, -⟩ | ⟨f, callers, segment, below, h⟩
  · obtain ⟨frame, frames, -, -, hf, -⟩ := advance_eq_ok.mp ha
    cases hnone.symm.trans hf
  · exact (h.advance hm ha).settled

/-- **A step of a machine in order does not fail by broken code or a broken stack**, and a
primitive that is called by name has the right number of operands. -/
theorem Settled.not_broken (h : m.Settled) {fault : Fault} (ha : m.advance = .error fault) :
    fault.isBroken = false ∧ ∀ f ∈ m.frames.head?, ∀ name argc,
      fetch f = .ok (.callPrimitive name argc) → fault.kind ≠ .arity := by
  rcases advance_eq_error.mp ha with ⟨hnone, rfl⟩ | ⟨frame, frames, hf, ha⟩
  · exact ⟨rfl, by simp [hnone]⟩
  · rcases h with ⟨hnone, -⟩ | ⟨f, callers, segment, below, h⟩
    · cases hf.symm.trans hnone
    · obtain ⟨rfl, rfl⟩ := List.cons.inj (hf.symm.trans h.frames)
      obtain ⟨i, rest, hi, -, hr, hfetched⟩ := h.exists_fetched
      rcases ha with ha | ⟨j, hj, he⟩
      · cases hi.symm.trans ha
      · cases hi.symm.trans hj
        obtain ⟨hbroken, harity⟩ := hfetched.not_broken hr he
        refine ⟨hbroken, fun f hm name argc hf => harity name argc ?_⟩
        obtain rfl : frame = f := by simpa [h.frames] using hm
        exact Except.ok.inj (hi.symm.trans hf)

/-- A machine in order is as its frames say, and has one value in the end. -/
theorem Settled.segmented (h : m.Settled) :
    (m.frames = [] ∧ ∃ v, m.stack = [v]) ∨ Segmented 0 m.frames m.stack := by
  rcases h with h | ⟨f, callers, segment, below, h⟩
  · exact .inl h
  · exact .inr h.segmented

end Settled

/-! ## Programs -/

section Programs
variable {code : Code} {arena : Arena}

theorem settled_ofProgram (hc : Code.Compiled code) (threshold : Int) :
    (ofProgram code arena threshold).Settled := by
  obtain ⟨hne, -, hcode⟩ := hc
  exact .inr ⟨_, [], [], [], rfl, rfl, Int.le_refl 0, .balanced (Code.balanced_of_ofBody hne hcode),
    .nothing _⟩

/-- All machines that a program leads to are in order. -/
theorem settled_of_steps (hc : Code.Compiled code) (ha : arena.Compiled) {threshold : Int}
    {n : Nat} {m : Machine} (h : Steps n (ofProgram code arena threshold) m) : m.Settled := by
  have key := h.induction (Q := fun m => m.Compiled ∧ m.Settled)
    (fun _ _ hq hadv => ⟨hq.1.advance hadv, hq.2.advance hq.1.callable hadv⟩)
    ⟨compiled_ofProgram hc ha threshold, settled_ofProgram hc threshold⟩
  exact key.2

/-- A failed step leaves the machine as it is, unless code or stack are broken. -/
theorem failed_of_not_broken {m : Machine} {fault : Fault} (h : fault.isBroken = false) :
    (m.failed fault).frames = m.frames ∧ (m.failed fault).stack = m.stack := by
  cases fault <;> first | exact ⟨rfl, rfl⟩ | cases h

theorem arena_failed (m : Machine) (fault : Fault) : (m.failed fault).arena = m.arena := by
  cases fault with
  | aboveStack => exact jump_arena 1
  | _ => rfl

/-- **What steps keep, stepping keeps**, where the last step fails too: in a machine in order that
one leaves the stack, the frames and the scopes as they are. -/
theorem stepTimes_induction {P : Machine → Prop} {m : Machine}
    (hstep : ∀ m next, P m → m.advance = .ok next → P next) (hsettled : ∀ m, P m → m.Settled)
    (hcongr : ∀ m after, P m → after.stack = m.stack → after.frames = m.frames →
      after.arena = m.arena → P after)
    (hm : P m) (hfault : m.fault = none) (n : Nat) : P (m.stepTimes n).1 := by
  obtain ⟨k, last, hs, -, h⟩ := stepTimes_cases n hfault
  have hlast : P last := hs.induction hstep hm
  rcases h with h | ⟨fault, ha, h⟩
  · rw [h]
    exact hlast
  · have hbroken := ((hsettled last hlast).not_broken ha).1
    obtain ⟨hframes, hstack⟩ := failed_of_not_broken (m := last) hbroken
    rw [h]
    exact hcongr last _ hlast hstack hframes (arena_failed last fault)

/-- Where a step has failed, the next one fails in the same way. -/
theorem step_failed {m : Machine} {fault : Fault} (hm : m.fault = none)
    (ha : m.advance = .error fault) (h : fault.isBroken = false) :
    (m.failed fault).step.2 = some fault := by
  refine congrArg Prod.snd (step_again (step_of_error hm ha) (.inr ?_))
  rintro rfl
  cases h

/-- **What a program leaves is one value.** -/
theorem stack_of_run (hc : Code.Compiled code) (ha : arena.Compiled) {threshold : Int}
    {fuel : Nat} {limit : Option Int} {after : Machine} {v : Value}
    (h : (ofProgram code arena threshold).run fuel limit = (after, .value v)) :
    after.stack = [v] := by
  have key : ∀ fuel, (ofProgram code arena threshold).runFor fuel = (after, .value v) →
      after.stack = [v] := by
    intro fuel h
    obtain ⟨k, last, -, hs, -, hrun⟩ := runFor_cases (m := ofProgram code arena threshold) fuel rfl
    rcases hrun with ⟨hh, hr⟩ | ⟨f, -, -, hr⟩ | ⟨-, -, hr⟩
    · obtain ⟨rfl, hv⟩ := Prod.mk.inj (hr.symm.trans h)
      have hnone : last.frames = [] := by simpa [halted] using hh
      rcases settled_of_steps hc ha hs with ⟨-, w, hw⟩ | ⟨f, callers, segment, below, hrun⟩
      · simp only [outcome, result, hnone, hw, Outcome.value.injEq] at hv
        rw [hw, hv]
      · cases hnone.symm.trans hrun.frames
    · cases hr.symm.trans h
    · cases hr.symm.trans h
  unfold run at h
  split at h
  · exact key _ h
  · split at h
    · cases h
    · exact key _ h

end Programs

end Machine

/-- The arena in which the body of a macro runs is compiled if the arguments are. -/
theorem Arena.compiled_ofGlobals {params : Parameters} {args : List Value} {bindings : Bindings}
    (ha : ∀ arg ∈ args, arg.Compiled) (hb : params.bind args = .ok bindings) :
    (Arena.ofGlobals bindings).Compiled := by
  intro id s hs
  have hvars := Value.Compiled.kept.bind ha hb
  simp only [Arena.ofGlobals, Arena.get?, Std.TreeMap.getElem?_insert] at hs
  split at hs
  · cases hs
    exact hvars
  · simp at hs

theorem Arena.compiled_empty : Arena.empty.Compiled :=
  have hbind : (Parameters.mk [] none).bind [] = .ok [] := rfl
  Arena.compiled_ofGlobals (fun _ ha => absurd ha List.not_mem_nil) hbind

/-- **The body of a macro leaves one value.** -/
theorem Macro.expand_ne_macroValues {m : Macro} (hc : Code.Compiled m.code) {args : List Value}
    (ha : ∀ arg ∈ args, arg.Compiled) (fuel : Nat) (settings : Settings) (loc : Option Location)
    (count : Nat) (errorLoc : Option Location) :
    m.expand fuel settings args loc ≠ .error (.compile ⟨.macroValues count, errorLoc⟩) := by
  intro h
  unfold Macro.expand at h
  simp only at h
  split at h
  · cases h
  · rename_i bindings hb
    have harena := Arena.compiled_ofGlobals ha hb
    rcases bind_eq_error.mp h with h | ⟨threshold, -, h⟩
    · cases ht : settings.gcThreshold <;> simp [ht] at h
    rcases bind_eq_error.mp h with h | ⟨limit, -, h⟩
    · cases hl : settings.stepLimit <;> simp [hl] at h
    split at h
    · cases h
    · split at h <;> cases h
    · rename_i after v hrun
      rw [Machine.stack_of_run hc harena hrun] at h
      cases h

/-- **The discipline of the stack.**  However many steps of a compiled program are taken, the
stack is cut up by the frames as their places in the code say, or the program has finished with
one value.  The next step does not fail by broken code or a broken stack, and if it is to call a
primitive by name, not by the number of operands.  A macro with this code leaves one value. -/
theorem Machine.stack_discipline {bound : List String} {forms : List Value} {code : Code}
    {arena : Arena} (hforms : ∀ form ∈ forms, form.Compiled)
    (hcode : Code.ofProgram bound forms = .ok code) (harena : arena.Compiled) (threshold : Int)
    (n : Nat) :
    let m := ((ofProgram code arena threshold).stepTimes n).1
    ((m.frames = [] ∧ ∃ v, m.stack = [v]) ∨ Segmented 0 m.frames m.stack) ∧
    (∀ fault ∈ m.step.2, fault.isBroken = false ∧ ∀ f ∈ m.frames.head?, ∀ name argc,
      fetch f = .ok (.callPrimitive name argc) → fault.kind ≠ .arity) ∧
    ∀ (name : String) (params : Parameters) (loc useLoc errorLoc : Option Location)
      (args : List Value) (fuel count : Nat) (settings : Settings),
      (∀ arg ∈ args, arg.Compiled) →
      (Macro.mk name params code loc).expand fuel settings args useLoc ≠
        .error (.compile ⟨.macroValues count, errorLoc⟩) := by
  intro m
  have hc := Code.compiled_of_ofProgram hforms hcode
  obtain ⟨k, last, hs, hl, hm⟩ := stepTimes_cases (m := ofProgram code arena threshold) n rfl
  have hsettled := settled_of_steps hc harena hs
  refine ⟨?_, ?_, fun name params loc _ _ _ _ _ _ hargs =>
    @Macro.expand_ne_macroValues ⟨name, params, code, loc⟩ hc _ hargs _ _ _ _ _⟩
  · rcases hm with hm | ⟨fault, ha, hm⟩
    · obtain rfl : m = last := congrArg Prod.fst hm
      exact hsettled.segmented
    · have hlast : m = last.failed fault := congrArg Prod.fst hm
      obtain ⟨hf, hs⟩ := failed_of_not_broken (m := last) (hsettled.not_broken ha).1
      rw [hlast, hf, hs]
      exact hsettled.segmented
  · intro fault hfault
    rcases hm with hm | ⟨f, ha, hm⟩
    · obtain rfl : m = last := congrArg Prod.fst hm
      cases ha : m.advance with
      | ok next => simp [step_of_ok hl ha] at hfault
      | error f =>
        obtain rfl : f = fault := by simpa [step_of_error hl ha] using hfault
        exact hsettled.not_broken ha
    · have hlast : m = last.failed f := congrArg Prod.fst hm
      have hbroken := hsettled.not_broken ha
      rw [hlast] at hfault ⊢
      obtain rfl : f = fault := by simpa [step_failed hl ha hbroken.1] using hfault
      rwa [(failed_of_not_broken hbroken.1).1]

/-- The discipline of the stack in `((lambda (x) (if x (apply + '(1 2)))) true)`. -/
theorem Machine.stack_discipline_apply :
    let form : Value := .ofList
      [.ofList [.symbol "lambda", .ofList [.symbol "x"] none .nil,
        .ofList [.symbol "if", .symbol "x",
          .ofList [.symbol "apply", .symbol "+",
            .quoted (.ofList [.number 1, .number 2] none .nil)] none .nil] none .nil] none .nil,
        .bool true] none .nil
    ∃ code, form.Compiled ∧ Code.ofProgram [] [form] = .ok code ∧ ∀ n,
      let m := ((ofProgram code .empty 1).stepTimes n).1
      ((m.frames = [] ∧ ∃ v, m.stack = [v]) ∨ Segmented 0 m.frames m.stack) ∧
        ∀ fault ∈ m.step.2, fault.isBroken = false := by
  intro form
  have hform : form.Compiled := by
    simp only [form, Value.ofList, List.foldr]
    repeat constructor
  refine ⟨_, hform, rfl, fun n => ?_⟩
  have hforms : ∀ f ∈ [form], f.Compiled := by simpa using hform
  obtain ⟨hsegmented, hstep, -⟩ := stack_discipline hforms rfl Arena.compiled_empty 1 n
  exact ⟨hsegmented, fun fault hm => (hstep fault hm).1⟩

end StackLisp
