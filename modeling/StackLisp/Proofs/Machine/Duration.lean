import StackLisp.Proofs.Machine.Calls

/-!
# How long compiled code runs

All jumps of compiled code go forward, so a frame meets each instruction of its code once at most
(`Machine.Onward`).  What **remains** of a machine are the instructions that its frames have not
passed yet.  A step takes one or more of them away, and only a call of a closure adds to them,
namely the code of the closure.  So **all steps are paid for by the code of the program and of the
closures that were entered** (`Machine.Orderly.steps_add_remaining_le`), and a run goes on for ever
only by entering closures for ever (`Machine.duration_bounded`).
-/

namespace StackLisp

namespace Machine

/-! ## What a run enters, and what remains of it -/

/-- The code of the closure that a step has entered.  It has if there is one frame more. -/
def entered (m next : Machine) : Option Code :=
  if m.frames.length < next.frames.length then next.frames.head?.map (·.code) else none

/-- **The code of the closures that the first `n` steps enter**, one after the other. -/
def calls : Nat → Machine → List Code
  | 0, _ => []
  | n + 1, m =>
    match m.step with
    | (next, none) => (m.entered next).toList ++ calls n next
    | (_, some _) => []

/-- The number of instructions of some pieces of code together. -/
def totalLength : List Code → Nat
  | [] => 0
  | code :: codes => code.length + totalLength codes

/-- **What remains**: the number of instructions that the frames have not passed yet. -/
def remaining : List Frame → Nat
  | [] => 0
  | f :: frames => f.ahead.length + remaining frames

variable {m next after : Machine} {f g : Frame} {callers frames : List Frame}
  {segment below : List Value} {n : Nat}

@[simp] theorem totalLength_nil : totalLength [] = 0 := rfl

@[simp] theorem totalLength_append (codes more : List Code) :
    totalLength (codes ++ more) = totalLength codes + totalLength more := by
  induction codes with
  | nil => simp
  | cons code codes ih =>
    rw [List.cons_append, totalLength, totalLength, ih, Nat.add_assoc]

@[simp] theorem remaining_cons (f : Frame) (frames : List Frame) :
    remaining (f :: frames) = f.code.length - f.ip.toNat + remaining frames := by
  rw [remaining, Frame.ahead, List.length_drop]

theorem calls_of_advance (hfault : m.fault = none) (ha : m.advance = .ok next) (n : Nat) :
    calls (n + 1) m = (m.entered next).toList ++ calls n next := by
  rw [calls, step_of_ok hfault ha]

theorem stepTimes_succ (hfault : m.fault = none) (ha : m.advance = .ok next) (n : Nat) :
    m.stepTimes (n + 1) = next.stepTimes n := by
  rw [stepTimes, step_of_ok hfault ha]

/-- What adds a frame is a call of a closure. -/
theorem Effect.called_of_length_lt {scope : ScopeId} {i : Instruction} (h : m.Effect scope i after)
    (hlt : m.frames.length < after.frames.length) :
    ∃ args stack rest params code closed,
      m.Called args stack rest (.closure params code closed) after := by
  have called : ∀ {args stack rest : List Value} {callee : Value},
      m.Called args stack rest callee after → ∃ args stack rest params code closed,
        m.Called args stack rest (.closure params code closed) after := by
    intro args stack rest callee hc
    cases hc with
    | closure hb ha => exact ⟨args, stack, rest, _, _, _, .closure hb ha⟩
    | primitive hp ha => exact absurd hlt (Nat.lt_irrefl _)
  have hjump : ∀ (m : Machine) (offset : Int), (m.jump offset).frames.length = m.frames.length := by
    intro m offset
    unfold jump
    split <;> simp_all
  cases h with
  | call _ _ hc => exact called hc
  | callAt _ _ hc => exact called hc
  | apply _ _ hc => exact called hc
  | jumpIfTruthy _ =>
    split at hlt
    · exact absurd hlt (Nat.lt_irrefl _)
    · exact absurd hlt (by simp [hjump])
  | jumpIfFalsy _ =>
    split at hlt
    · exact absurd hlt (by simp [hjump])
    · exact absurd hlt (Nat.lt_irrefl _)
  | finish hf hs => simp [hf] at hlt
  | ret hf hs =>
    simp only [hf, List.length_cons] at hlt
    omega
  | _ => exact absurd hlt (Nat.lt_irrefl _)

/-- **What enters a closure is a call of it**, and the code is that of the closure. -/
theorem entered_eq_some {code : Code} (ha : m.advance = .ok next) :
    m.entered next = some code ↔ ∃ args stack rest params closed mid,
      (m.jump 1).Called args stack rest (.closure params code closed) mid ∧
        next = { mid with steps := mid.steps + 1 } := by
  obtain ⟨f, frames, i, mid, hf, -, he, rfl⟩ := advance_eq_ok.mp ha
  have hjump : (m.jump 1).frames = { f with ip := f.ip + 1 } :: frames := by simp [jump, hf]
  have hcode : ∀ {args stack rest : List Value} {params : Parameters} {body : Code}
      {closed : ScopeId} {next : Machine},
      (m.jump 1).Called args stack rest (.closure params body closed) next →
        m.entered { next with steps := next.steps + 1 } = some body := by
    intro args stack rest params body closed next hc
    cases hc with
    | closure hb ha => simp [entered, hf, hjump]
  constructor
  · intro h
    have hlt : (m.jump 1).frames.length < mid.frames.length := by
      refine Nat.lt_of_not_le fun hle => ?_
      simp only [hjump, List.length_cons] at hle
      simp [entered, hf, Nat.not_lt.mpr hle] at h
    obtain ⟨args, stack, rest, params, body, closed, hc⟩ := he.called_of_length_lt hlt
    obtain rfl := Option.some.inj ((hcode hc).symm.trans h)
    exact ⟨args, stack, rest, params, closed, mid, hc, rfl⟩
  · rintro ⟨args, stack, rest, params, closed, mid', hc, hmid⟩
    exact (congrArg m.entered hmid).trans (hcode hc)

/-- **Longer runs enter more closures**, after those that shorter ones enter. -/
theorem calls_grow (n k : Nat) (m : Machine) : calls n m <+: calls (n + k) m := by
  induction n generalizing m with
  | zero => exact List.nil_prefix
  | succ n ih =>
    rw [Nat.succ_add, calls, calls]
    rcases m.step with ⟨next, _ | fault⟩
    · exact (List.prefix_append_right_inj _).mpr (ih next)
    · exact List.prefix_refl []

/-- **What steps enter** and what comes behind them. -/
theorem Steps.calls_add (h : Steps n m after) (hfault : m.fault = none) (k : Nat) :
    calls (n + k) m = calls n m ++ calls k after := by
  induction h with
  | zero m => rw [Nat.zero_add, calls, List.nil_append]
  | succ ha _ ih =>
    have hnext := ih ((fault_of_advance ha).trans hfault)
    rw [Nat.succ_add, calls_of_advance hfault ha, calls_of_advance hfault ha, hnext,
      List.append_assoc]

theorem calls_of_halted (h : m.halted = true) (n : Nat) : calls n m = [] := by
  cases n with
  | zero => rfl
  | succ n =>
    rw [calls]
    cases hfault : m.fault with
    | some fault => simp [step_of_fault hfault]
    | none =>
      have hnone : m.frames = [] := by simpa [halted] using h
      simp [step, hfault, advance, hnone]

/-- **A run that has ended has entered all closures** that it enters. -/
theorem Steps.calls_grow_of_halted (h : Steps n m after) (hfault : m.fault = none)
    (hh : after.halted = true) (k : Nat) : calls k m <+: calls n m := by
  have hall := h.calls_add hfault k
  rw [calls_of_halted hh, List.append_nil] at hall
  rw [← hall, Nat.add_comm]
  exact calls_grow k n m

/-! ## Machines in order -/

/-- **A machine that runs compiled code** and has not failed. -/
structure Orderly (m : Machine) : Prop where
  compiled : m.Compiled
  settled : m.Settled
  fault : m.fault = none

namespace Orderly

theorem advance (h : m.Orderly) (ha : m.advance = .ok next) : next.Orderly where
  compiled := h.compiled.advance ha
  settled := h.settled.advance h.compiled.callable ha
  fault := (fault_of_advance ha).trans h.fault

theorem steps (h : m.Orderly) (hs : Steps n m after) : after.Orderly :=
  hs.induction (fun _ _ hm ha => hm.advance ha) h

theorem running (h : m.Orderly) (hm : m.halted = false) :
    ∃ f callers segment below, m.Running f callers segment below := by
  rcases h.settled with ⟨hnone, -⟩ | hrun
  · simp [halted, hnone] at hm
  · exact hrun

end Orderly

theorem orderly_ofProgram {code : Code} {arena : Arena} (hc : Code.Compiled code)
    (ha : arena.Compiled) (threshold : Int) : (ofProgram code arena threshold).Orderly :=
  ⟨compiled_ofProgram hc ha threshold, settled_ofProgram hc threshold, rfl⟩

/-! ## Steps go forward -/

/-- **What a step of compiled code does to the frames**: the innermost one, `f`, moves forward, or a
closure is entered and `f` points behind the call, or `f` is left. -/
inductive Onward (f : Frame) (callers : List Frame) : List Frame → Prop
  | moves (distance : Nat) : Onward f callers ({ f with ip := f.ip + 1 + distance } :: callers)
  | enters (g : Frame) (hip : g.ip = 0) :
      Onward f callers (g :: { f with ip := f.ip + 1 } :: callers)
  | leaves : Onward f callers callers

/-- **Jumps go forward** in compiled code. -/
theorem Ready.exists_distance {whole rest : Code} {i : Instruction} {distance : Int}
    (h : Ready whole (i :: rest) segment)
    (hi : i = .jumpIfTruthy distance ∨ i = .jumpIfFalsy distance) : ∃ k : Nat, distance = k := by
  cases h with
  | template hm hb => simp at hi
  | @falsy _ k _ _ hv hb => exact ⟨k, by simpa [eq_comm] using hi⟩
  | balanced hb =>
    generalize segment.length = height at hb
    rcases hi with rfl | rfl
    · cases hb with
      | @jumpIfTruthy _ _ k hr hj => exact ⟨k, rfl⟩
    · cases hb with
      | @jumpIfFalsy _ _ k hr hj => exact ⟨k, rfl⟩

theorem Running.onward (h : m.Running f callers segment below) (ha : m.advance = .ok next) :
    Onward f callers next.frames := by
  obtain ⟨frame, frames, i, after, hf, hi, he, rfl⟩ := advance_eq_ok.mp ha
  obtain ⟨rfl, rfl⟩ := List.cons.inj (hf.symm.trans h.frames)
  obtain ⟨j, rest, hj, -, hr, -⟩ := h.exists_fetched
  cases hi.symm.trans hj
  have hjump : (m.jump 1).frames = { frame with ip := frame.ip + 1 } :: frames := by simp [jump, hf]
  rcases he.frames hjump with ⟨distance, hd, hn⟩ | ⟨g, hip, -, hn⟩ | ⟨-, hn⟩
  · obtain ⟨k, rfl⟩ : ∃ k : Nat, distance = k := by
      rcases hd with rfl | hd
      · exact ⟨0, rfl⟩
      · exact hr.exists_distance hd
    rw [hn]
    exact .moves k
  · rw [hn]
    exact .enters g hip
  · rw [hn]
    exact .leaves

/-- **A step is paid for**: it takes an instruction away from what remains, and adds to it at most
the code of the closure that it enters. -/
theorem Running.remaining_lt (h : m.Running f callers segment below) (ha : m.advance = .ok next) :
    remaining next.frames < remaining m.frames + totalLength (m.entered next).toList := by
  obtain ⟨hlow, hhigh⟩ := Frame.inside_of_ahead h.inside h.ready.ne_nil
  have honward := h.onward ha
  unfold entered
  rw [h.frames]
  generalize next.frames = frames at honward
  cases honward with
  | moves distance =>
    simp only [remaining_cons, List.length_cons, Nat.lt_irrefl, if_false, Option.toList_none,
      totalLength_nil]
    omega
  | enters g hip =>
    simp only [remaining_cons, List.length_cons, List.head?_cons, Option.map_some, hip,
      Nat.lt_succ_self, if_true, Option.toList_some, totalLength]
    omega
  | leaves =>
    rw [remaining_cons, if_neg (by simp)]
    simp only [Option.toList_none, totalLength_nil]
    omega

theorem Running.remaining_pos (h : m.Running f callers segment below) : 0 < remaining m.frames := by
  obtain ⟨hlow, hhigh⟩ := Frame.inside_of_ahead h.inside h.ready.ne_nil
  rw [h.frames, remaining_cons]
  omega

/-! ## Runs are paid for -/

theorem steps_failed (m : Machine) (fault : Fault) : (m.failed fault).steps = m.steps := by
  cases fault <;> simp [failed]

theorem Steps.steps_eq (h : Steps n m after) : after.steps = m.steps + n := by
  induction h with
  | zero m => rfl
  | succ ha _ ih =>
    rw [ih, steps_of_advance ha]
    omega

/-- **All steps are paid for** by what remained at first and by the code of the closures that were
entered. -/
theorem Orderly.steps_add_remaining_le (h : m.Orderly) (n : Nat) :
    (m.stepTimes n).1.steps + remaining (m.stepTimes n).1.frames ≤
      m.steps + remaining m.frames + totalLength (calls n m) := by
  induction n generalizing m with
  | zero => exact Nat.le_refl _
  | succ n ih =>
    cases ha : m.advance with
    | error fault =>
      have hframes := (failed_of_not_broken (m := m) (h.settled.not_broken ha).1).1
      rw [stepTimes, step_of_error h.fault ha]
      simp only [steps_failed, hframes]
      omega
    | ok next =>
      obtain ⟨f, callers, segment, below, hrun⟩ := h.running (not_halted_of_advance ha)
      have hpaid := hrun.remaining_lt ha
      have hnext := ih (h.advance ha)
      rw [steps_of_advance ha] at hnext
      rw [stepTimes_succ h.fault ha, calls_of_advance h.fault ha, totalLength_append]
      omega

/-- **While a run goes on**, it has taken fewer steps than were paid for. -/
theorem Orderly.lt_of_running (h : m.Orderly) (hrun : (m.runFor n).2 = .running) :
    n < remaining m.frames + totalLength (calls n m) := by
  obtain ⟨k, last, -, hk, hl, ⟨-, hr⟩ | ⟨fault, -, -, hr⟩ | ⟨rfl, hhalted, -⟩⟩ :=
    runFor_cases n h.fault
  · rw [hr] at hrun
    exact absurd hrun last.outcome_ne_running
  · rw [hr] at hrun
    cases hrun
  obtain ⟨f, callers, segment, below, hlast⟩ := (h.steps hk).running hhalted
  have hpaid := h.steps_add_remaining_le k
  rw [hk.stepTimes_eq h.fault] at hpaid
  have hcount := hk.steps_eq
  have hleft := hlast.remaining_pos
  simp only at hpaid
  omega

/-- **If runs enter no more than a number of closures**, they enter none from some step on. -/
theorem exists_last_call {limit : Nat} (h : ∀ n, (calls n m).length ≤ limit) :
    ∃ n, ∀ k, calls (n + k) m = calls n m := by
  have key : ∀ d n, limit ≤ (calls n m).length + d → ∃ n, ∀ k, calls (n + k) m = calls n m := by
    intro d
    induction d with
    | zero =>
      refine fun n hn => ⟨n, fun k => ?_⟩
      exact ((calls_grow n k m).eq_of_length_le (Nat.le_trans (h (n + k)) hn)).symm
    | succ d ih =>
      intro n hn
      rcases Classical.em (∀ k, calls (n + k) m = calls n m) with hlast | hmore
      · exact ⟨n, hlast⟩
      · obtain ⟨k, hk⟩ := Classical.not_forall.mp hmore
        refine ih (n + k) ?_
        have hlt : (calls n m).length < (calls (n + k) m).length :=
          Nat.lt_of_not_le fun hle => hk ((calls_grow n k m).eq_of_length_le hle).symm
        omega
  exact key limit 0 (Nat.le_add_left limit _)

/-- **A run that enters finitely many closures ends.** -/
theorem Orderly.exists_ended {limit : Nat} (h : m.Orderly)
    (hcalls : ∀ n, (calls n m).length ≤ limit) : ∃ n, (m.runFor n).2 ≠ .running := by
  obtain ⟨n, hlast⟩ := exists_last_call hcalls
  refine ⟨n + (remaining m.frames + totalLength (calls n m)), fun hrun => ?_⟩
  have hlt := h.lt_of_running hrun
  rw [hlast] at hlt
  omega

/-! ## Frames go on -/

/-- **The frame `f` above `callers` has gone on**: it has not been left, and is further on in its
code. -/
def GoneOn (f : Frame) (callers frames : List Frame) : Prop :=
  ∃ above g, frames = above ++ g :: callers ∧ g.code = f.code ∧ g.scope = f.scope ∧ f.ip < g.ip

theorem Onward.goneOn (h : Onward f callers frames) (hlen : callers.length < frames.length) :
    GoneOn f callers frames := by
  cases h with
  | moves distance => exact ⟨[], _, rfl, rfl, rfl, by simp only; omega⟩
  | enters g hip => exact ⟨[g], _, rfl, rfl, rfl, by simp only; omega⟩
  | leaves => exact absurd hlen (Nat.lt_irrefl _)

/-- What the innermost frame does, the frames below it do not undo. -/
theorem GoneOn.onward {rest : List Frame} (h : GoneOn f callers (g :: rest))
    (ho : Onward g rest frames) (hlen : callers.length < frames.length) :
    GoneOn f callers frames := by
  obtain ⟨above, later, heq, hcode, hscope, hip⟩ := h
  cases above with
  | nil =>
    obtain ⟨rfl, rfl⟩ := List.cons.inj heq
    obtain ⟨above, last, heq', hcode', hscope', hip'⟩ := ho.goneOn hlen
    exact ⟨above, last, heq', hcode'.trans hcode, hscope'.trans hscope, Int.lt_trans hip hip'⟩
  | cons top above =>
    obtain ⟨rfl, rfl⟩ := List.cons.inj heq
    cases ho with
    | moves distance => exact ⟨_ :: above, later, rfl, hcode, hscope, hip⟩
    | enters inner hinner => exact ⟨inner :: _ :: above, later, rfl, hcode, hscope, hip⟩
    | leaves => exact ⟨above, later, rfl, hcode, hscope, hip⟩

/-- **As long as a frame is not left**, it goes on. -/
theorem GoneOn.steps (h : GoneOn f callers m.frames) (hm : m.Orderly) (hs : Steps n m after)
    (hlen : ∀ j ≤ n, callers.length < (m.stepTimes j).1.frames.length) :
    GoneOn f callers after.frames := by
  induction hs with
  | zero m => exact h
  | @succ n m next after ha hs ih =>
    obtain ⟨g, rest, segment, below, hrun⟩ := hm.running (not_halted_of_advance ha)
    have htail := fun j hj => stepTimes_succ hm.fault ha j ▸ hlen (j + 1) (Nat.succ_le_succ hj)
    rw [hrun.frames] at h
    exact ih (h.onward (hrun.onward ha) (htail 0 (Nat.zero_le n))) (hm.advance ha) htail

/-- **From one instruction of a frame to the next**, the frame goes forward. -/
theorem Orderly.goneOn (h : m.Orderly) (hf : m.frames = f :: callers) (hs : Steps (n + 1) m after)
    (hlen : ∀ j ≤ n + 1, callers.length < (m.stepTimes j).1.frames.length) :
    GoneOn f callers after.frames := by
  cases hs with
  | @succ _ _ next _ ha hs =>
    obtain ⟨g, rest, segment, below, hrun⟩ := h.running (not_halted_of_advance ha)
    obtain ⟨rfl, rfl⟩ := List.cons.inj (hrun.frames.symm.trans hf)
    have htail := fun j hj => stepTimes_succ h.fault ha j ▸ hlen (j + 1) (Nat.succ_le_succ hj)
    exact ((hrun.onward ha).goneOn (htail 0 (Nat.zero_le n))).steps (h.advance ha) hs htail

/-! ## Programs -/

/-- **Only calls of closures make a program go on.**  However many steps of a compiled program are
taken, they are no more than the instructions of its code and of the closures that it has entered
so far.  From one instruction of a frame to the next, until it is left, the frame goes forward in
its code.  So a program that enters finitely many closures ends, and one that enters none ends
within as many steps as its code is long. -/
theorem duration_bounded {bound : List String} {forms : List Value} {code : Code} {arena : Arena}
    (hforms : ∀ form ∈ forms, form.Compiled) (hcode : Code.ofProgram bound forms = .ok code)
    (harena : arena.Compiled) (threshold : Int) :
    let start := ofProgram code arena threshold
    (∀ n, (start.stepTimes n).1.steps ≤ code.length + totalLength (calls n start)) ∧
    (∀ (n k : Nat) (m after : Machine) (f : Frame) (callers : List Frame),
      start.stepTimes n = (m, none) → m.frames = f :: callers →
      m.stepTimes (k + 1) = (after, none) →
      (∀ j ≤ k + 1, callers.length < (m.stepTimes j).1.frames.length) →
      GoneOn f callers after.frames) ∧
    (∀ limit, (∀ n, (calls n start).length ≤ limit) → ∃ n, (start.runFor n).2 ≠ .running) ∧
    ((∀ n, calls n start = []) → (start.runFor code.length).2 ≠ .running) := by
  intro start
  have hstart : start.Orderly :=
    orderly_ofProgram (Code.compiled_of_ofProgram hforms hcode) harena threshold
  have hremaining : remaining start.frames = code.length := by
    simp [start, ofProgram, remaining]
  refine ⟨fun n => ?_, fun n k m after f callers hm hf hafter hlen => ?_,
    fun limit hcalls => hstart.exists_ended hcalls, fun hnone hrun => ?_⟩
  · have hpaid := hstart.steps_add_remaining_le n
    rw [hremaining, show start.steps = 0 from rfl] at hpaid
    omega
  · have horderly := hstart.steps (steps_of_stepTimes hstart.fault hm)
    exact horderly.goneOn hf (steps_of_stepTimes horderly.fault hafter) hlen
  · have hlt := hstart.lt_of_running hrun
    rw [hremaining, hnone] at hlt
    exact absurd hlt (Nat.lt_irrefl _)

/-- How long `((lambda (x) (if x 1 2)) true)` runs, which enters one closure, and `(if true 1 2)`,
which enters none. -/
theorem duration_bounded_if :
    let body (x : Value) : Value := .ofList [.symbol "if", x, .number 1, .number 2] none .nil
    let form : Value := .ofList
      [.ofList [.symbol "lambda", .ofList [.symbol "x"] none .nil, body (.symbol "x")] none .nil,
        .bool true] none .nil
    let branches : Code := [.jumpIfFalsy 3, .pushConst (.number 1), .pushConst (.bool false),
      .jumpIfFalsy 1, .pushConst (.number 2), .ret]
    let code : Code := [.pushConst (.template ⟨["x"], none⟩ (.lookup "x" :: branches)),
      .makeClosure, .pushConst (.bool true), .call 1, .ret]
    let start := ofProgram code .empty 1
    let plain := ofProgram (.pushConst (.bool true) :: branches) .empty 1
    form.Compiled ∧ (body (.bool true)).Compiled ∧ Code.ofProgram [] [form] = .ok code ∧
      Code.ofProgram [] [body (.bool true)] = .ok (.pushConst (.bool true) :: branches) ∧
      (∀ n, (start.stepTimes n).1.steps ≤ code.length + totalLength (calls n start)) ∧
      GoneOn ⟨code, 3, Arena.globalId⟩ [] ((start.stepTimes 3).1.stepTimes 6).1.frames ∧
      (∃ n, (start.runFor n).2 ≠ .running) ∧
      (plain.runFor 7).2 ≠ .running := by
  intro body form branches code start plain
  have hform : form.Compiled := by
    simp only [form, body, Value.ofList, List.foldr]
    repeat constructor
  have hbody : (body (.bool true)).Compiled := by
    simp only [body, Value.ofList, List.foldr]
    repeat constructor
  have hforms : ∀ f ∈ [form], f.Compiled := by simpa using hform
  have hplain : ∀ f ∈ [body (.bool true)], f.Compiled := by simpa using hbody
  have hcode : Code.ofProgram [] [form] = .ok code := rfl
  have hbranches : Code.ofProgram [] [body (.bool true)] =
    .ok (.pushConst (.bool true) :: branches) := rfl
  have stepped : ∀ p : Machine × Option Fault, p.2.isNone = true → p = (p.1, none) := by
    rintro ⟨m, _ | fault⟩ h
    · rfl
    · cases h
  obtain ⟨hsteps, hgone, hends, -⟩ :=
    duration_bounded hforms hcode Arena.compiled_empty 1
  obtain ⟨-, -, -, hplain⟩ := duration_bounded hplain hbranches Arena.compiled_empty 1
  have hbefore := stepped (start.stepTimes 3) (by decide +kernel)
  have hafter := stepped ((start.stepTimes 3).1.stepTimes 6) (by decide +kernel)
  have hlast : Steps 11 start _ :=
    steps_of_stepTimes rfl (stepped (start.stepTimes 11) (by decide +kernel))
  have hlast' : Steps 6 plain _ :=
    steps_of_stepTimes rfl (stepped (plain.stepTimes 6) (by decide +kernel))
  refine ⟨hform, hbody, hcode, hbranches, hsteps, ?_, hends 1 fun n => ?_, hplain fun n => ?_⟩
  · exact hgone 3 5 _ _ _ [] hbefore rfl hafter (by decide +kernel)
  · have hprefix := hlast.calls_grow_of_halted rfl (by decide +kernel) n
    exact Nat.le_trans hprefix.length_le (by decide +kernel)
  · have hprefix := hlast'.calls_grow_of_halted rfl (by decide +kernel) n
    rwa [show calls 6 plain = [] by decide +kernel, List.prefix_nil] at hprefix

end Machine

end StackLisp
