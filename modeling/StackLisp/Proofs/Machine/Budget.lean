import StackLisp.Proofs.Machine.Safety
import StackLisp.Proofs.Machine.Twin

/-!
# Step budgets

A limit on the steps of a run only says where the run is cut (`run_budget`).  A run is cut exactly
when that many steps succeed and frames are left after them (`runFor_eq_running`), and then the
machine is the one after these steps.  So a run that has been cut can be taken up again, and a run
that ends within its budget ends in the same way under every larger one and under none.

A run that has failed is another matter (`not_resumes_of_fault`).  Whether the budget is used up is
asked before a step is taken, so without steps the machine does not come to meet the fault that it
remembers.

That the steps are used up is an outcome of the run and nothing that a step fails with
(`kind_of_fails`), so no machine remembers it, unless one was made that does
(`Machine.ForgetsLimits`).
-/

namespace StackLisp

namespace Outcome

/-- Has the run been cut by its limit? -/
def isCut : Outcome → Bool
  | .fault f => f.kind = .stepLimit
  | _ => false

/-- The outcomes are the same, apart from the limit that a run names which has been cut. -/
def Agrees (o o' : Outcome) : Prop :=
  o = o' ∨ o.isCut = true ∧ o'.isCut = true

end Outcome

namespace Machine

/-- What the machine remembers is no used up limit. -/
def ForgetsLimits (m : Machine) : Prop :=
  ∀ f, m.fault = some f → f.kind ≠ .stepLimit

variable {m after : Machine} {scope : ScopeId} {fault : Fault}

theorem ForgetsLimits.of_none (h : m.fault = none) : m.ForgetsLimits := by
  intro f hf
  simp [h] at hf

/-! ## No step fails since the steps are used up -/

theorem kind_of_uncalled_ne_stepLimit {args : List Value} {callee : Value}
    (h : m.Uncalled args callee fault) : fault.kind ≠ .stepLimit := by
  cases h with
  | arguments hb => exact bind_eq_wrongArguments hb ▸ nofun
  | missingParent _ _ | notFunction _ _ => exact nofun
  | primitive _ ha => rcases Primitive.kind_of_apply ha with hk | hk <;> rw [hk] <;> decide

theorem kind_of_fails {i : Instruction} (h : m.Fails scope i fault) : fault.kind ≠ .stepLimit := by
  cases h with
  | lookup hf =>
    obtain ⟨k, rfl⟩ := Arena.missingScope_of_find hf
    nofun
  | missingScope hg =>
    obtain rfl := (Arena.get_eq_error.mp hg).2
    nofun
  | ret hl => obtain rfl | rfl | ⟨callee, rfl⟩ := fault_of_leave hl <;> nofun
  | call _ _ hc => exact kind_of_uncalled_ne_stepLimit hc
  | callAt _ _ hc => exact kind_of_uncalled_ne_stepLimit hc
  | callPrimitive _ _ _ ha =>
    rcases Primitive.kind_of_apply ha with hk | hk <;> rw [hk] <;> decide
  | apply _ _ hc => exact kind_of_uncalled_ne_stepLimit hc
  | _ => nofun

theorem kind_of_advance (h : m.advance = .error fault) : fault.kind ≠ .stepLimit := by
  obtain ⟨-, rfl⟩ | ⟨frame, frames, -, hfetch | ⟨i, -, hfails⟩⟩ := advance_eq_error.mp h
  · nofun
  · obtain rfl | rfl := fault_of_fetch hfetch <;> nofun
  · exact kind_of_fails hfails

/-- What a failed step leaves behind is the machine with its fault, or one that remembers as much
as before. -/
theorem fault_failed (m : Machine) (fault : Fault) :
    (m.failed fault).fault = some fault ∨ (m.failed fault).fault = m.fault := by
  unfold failed
  split
  · exact .inr rfl
  · exact .inr rfl
  · exact .inr (jump_fault 1)
  · exact .inl rfl

@[simp] theorem halted_failed (m : Machine) (fault : Fault) :
    (m.failed fault).halted = m.halted := by
  unfold failed
  split
  · rfl
  · rfl
  · unfold jump
    split
    · rfl
    · rename_i hf
      simp [halted, hf]
  · rfl

namespace ForgetsLimits

theorem step (h : m.ForgetsLimits) :
    m.step.1.ForgetsLimits ∧ ∀ f, m.step.2 = some f → f.kind ≠ .stepLimit := by
  cases hm : m.fault with
  | some f =>
    rw [step_of_fault hm]
    exact ⟨h, fun g hg => Option.some.inj hg ▸ h f hm⟩
  | none =>
    cases ha : m.advance with
    | ok next =>
      rw [step_of_ok hm ha]
      have hnext : next.fault = none := (fault_of_advance ha).trans hm
      exact ⟨fun f hf => by simp [hnext] at hf, fun f hf => by cases hf⟩
    | error f =>
      have hkind := kind_of_advance ha
      rw [step_of_error hm ha]
      refine ⟨fun g hg => ?_, fun g hg => Option.some.inj hg ▸ hkind⟩
      obtain hf | hf := fault_failed m f
      · obtain rfl : f = g := Option.some.inj (hf.symm.trans hg)
        exact hkind
      · exact h g (hf.symm.trans hg)

/-- **No run of a number of steps ends since they are used up**, and none makes the machine
remember that. -/
theorem runFor (h : m.ForgetsLimits) (n : Nat) :
    (m.runFor n).1.ForgetsLimits ∧ (m.runFor n).2.isCut = false := by
  have houtcome : ∀ m : Machine, m.outcome.isCut = false := by
    intro m
    unfold outcome result
    rcases m.frames with _ | ⟨frame, frames⟩ <;> rcases m.stack with _ | ⟨v, rest⟩ <;> rfl
  induction n generalizing m with
  | zero =>
    by_cases hh : m.halted = true
    · rw [runFor_of_halted hh]
      exact ⟨h, houtcome m⟩
    · simp [Machine.runFor, hh, h, Outcome.isCut]
  | succ n ih =>
    by_cases hh : m.halted = true
    · rw [runFor_of_halted hh]
      exact ⟨h, houtcome m⟩
    · obtain ⟨hnext, hfault⟩ := h.step
      rw [Machine.runFor, if_neg hh]
      rcases hs : m.step with ⟨next, _ | f⟩
      · rw [hs] at hnext
        exact ih hnext
      · rw [hs] at hnext hfault
        exact ⟨hnext, by simpa [Outcome.isCut] using hfault f rfl⟩

end ForgetsLimits

/-! ## Where a run is cut -/

/-- Stepping stops at once where nothing is left to run. -/
theorem step_of_halted (h : m.halted = true) : m.step.2 ≠ none := by
  have hf : m.frames = [] := List.isEmpty_iff.mp h
  cases hm : m.fault with
  | some f => simp [step_of_fault hm]
  | none => simp [step, hm, advance, hf]

/-- **The steps of a run are used up exactly when they all succeed and frames are left.** -/
theorem runFor_eq_running {n : Nat} :
    m.runFor n = (after, .running) ↔ m.stepTimes n = (after, none) ∧ after.halted = false := by
  induction n generalizing m with
  | zero =>
    have := m.outcome_ne_running
    by_cases hh : m.halted = true
    · simp only [runFor, stepTimes, hh, if_true, Prod.mk.injEq, this, and_false, and_true,
        false_iff]
      rintro ⟨rfl, hn⟩
      simp [hh] at hn
    · simp only [runFor, stepTimes, hh, Prod.mk.injEq, and_true]
      constructor
      · rintro ⟨rfl, -⟩
        exact ⟨rfl, by simpa using hh⟩
      · rintro ⟨rfl, -⟩
        simp
  | succ n ih =>
    by_cases hh : m.halted = true
    · have hrun : m.runFor (n + 1) ≠ (after, .running) := by
        rw [runFor_of_halted hh]
        exact fun h => m.outcome_ne_running (Prod.mk.inj h).2
      have hstep : m.stepTimes (n + 1) ≠ (after, none) := by
        have := step_of_halted hh
        rcases hs : m.step with ⟨next, _ | f⟩
        · simp [hs] at this
        · simp [stepTimes, hs]
      simp [hrun, hstep]
    · rcases hs : m.step with ⟨next, _ | f⟩
      · simp [runFor, stepTimes, hh, hs, ih]
      · simp [runFor, stepTimes, hh, hs]

/-- Steps that succeed leave what the machine remembers. -/
theorem fault_of_stepTimes {n : Nat} (h : m.stepTimes n = (after, none)) :
    after.fault = m.fault := by
  cases hm : m.fault with
  | none => exact (steps_of_stepTimes hm h).fault_eq.trans hm
  | some f =>
    cases n with
    | zero =>
      obtain rfl := (Prod.mk.inj h).1
      exact hm
    | succ n =>
      simp [stepTimes, step_of_fault hm] at h

theorem run_of_cut {n : Nat} (h : m.runFor n = (after, .running)) (fuel : Nat) :
    m.run fuel (some n) = (after, .fault (.stepLimit n)) := by
  simp [run, h]

theorem run_of_ended {n : Nat} (h : (m.runFor n).2 ≠ .running) (fuel : Nat) :
    m.run fuel (some n) = m.runFor n := by
  simp only [run, Int.toNat_natCast]
  split
  · rename_i hr
    rw [hr] at h
    exact absurd rfl h
  · rfl

theorem ForgetsLimits.isCut_run (h : m.ForgetsLimits) (fuel n : Nat) :
    (m.run fuel (some n)).2.isCut = true ↔ (m.runFor n).2 = .running := by
  by_cases hr : (m.runFor n).2 = .running
  · have hcut : m.runFor n = ((m.runFor n).1, .running) := Prod.ext rfl hr
    rw [run_of_cut hcut]
    simp [hr, Outcome.isCut, Fault.kind]
  · rw [run_of_ended hr, (h.runFor n).2]
    simp [hr]

/-- A step that fails leaves the frames behind. -/
theorem halted_of_step_fault (h : m.step = (after, some fault)) : after.halted = m.halted := by
  obtain ⟨-, rfl⟩ | ⟨-, -, rfl⟩ := of_step_fault h
  · rfl
  · exact halted_failed m fault

/-- **A run that has ended ends again**, provided that it comes to meet the fault. -/
theorem runFor_again {n more : Nat} {o : Outcome} (h : m.runFor n = (after, o))
    (ho : o ≠ .running) (hafter : after.halted = true ∨
      0 < more ∧ (after.fault.isSome = true ∨ o ≠ .fault .aboveStack)) :
    after.runFor more = (after, o) := by
  have hhalted : ∀ {m : Machine} {n : Nat}, m.halted = true → m.runFor n = (after, o) →
      after.runFor more = (after, o) := by
    intro m n hh h
    rw [runFor_of_halted hh] at h
    obtain ⟨rfl, rfl⟩ := Prod.mk.inj h
    exact runFor_of_halted hh more
  induction n generalizing m with
  | zero =>
    by_cases hh : m.halted = true
    · exact hhalted hh h
    · simp only [runFor, hh] at h
      exact absurd (Prod.mk.inj h).2.symm ho
  | succ n ih =>
    by_cases hh : m.halted = true
    · exact hhalted hh h
    · rw [runFor, if_neg hh] at h
      rcases hs : m.step with ⟨next, _ | f⟩
      · rw [hs] at h
        exact ih h
      · rw [hs] at h
        obtain ⟨rfl, rfl⟩ := Prod.mk.inj h
        have hopen : next.halted = false := by simpa [halted_of_step_fault hs] using hh
        obtain hend | ⟨hmore, hmeets⟩ := hafter
        · simp [hopen] at hend
        · have hagain := step_again hs (hmeets.imp_right fun hne he => hne (he ▸ rfl))
          obtain ⟨k, rfl⟩ := Nat.exists_eq_add_of_lt hmore
          simp [runFor, hopen, hagain]

/-! ## Runs in slices -/

/-- **A run of `n` steps that is taken up again** with `more` of them goes as one run does that has
both limits in one, but for the limit that is named. -/
def Resumes (m : Machine) (fuel n more : Nat) : Prop :=
  let after := (m.run fuel (some n)).1
  (after.run fuel (some more)).1 = (m.run fuel (some ↑(n + more))).1 ∧
    (after.run fuel (some more)).2.Agrees (m.run fuel (some ↑(n + more))).2

/-- **What a limit of `n` steps does to a run.** -/
structure Sliced (m : Machine) (fuel n : Nat) : Prop where
  /-- With a limit, no run is left open. -/
  ends : (m.run fuel (some n)).2 ≠ .running
  /-- The run is cut exactly if the steps succeed and frames are left. -/
  isCut_iff : (m.run fuel (some n)).2.isCut = true ↔
    ∃ after, m.stepTimes n = (after, none) ∧ after.halted = false
  /-- Then the machine is the one after these steps, and remembers what it did before. -/
  cut : ∀ after, m.stepTimes n = (after, none) → after.halted = false →
    m.run fuel (some n) = (after, .fault (.stepLimit n)) ∧ after.fault = m.fault
  /-- That the steps are used up is not remembered. -/
  forgets : (m.run fuel (some n)).1.ForgetsLimits
  /-- **A run can be taken up again** if it has been cut or has left no frames.  If a step has
  failed, it needs steps to come to meet the fault, and a fault that is met again: one that the
  machine remembers, or any other than that of a call that reaches above the stack. -/
  resumed : ∀ (more : Nat) after o, m.run fuel (some n) = (after, o) →
    o.isCut = true ∨ after.halted = true ∨
      0 < more ∧ (after.fault.isSome = true ∨ o ≠ .fault .aboveStack) →
    m.Resumes fuel n more
  /-- **A run that has ended within its limit ends in the same way with more steps**, and without a
  limit. -/
  larger : (m.run fuel (some n)).2.isCut = false → ∀ more : Nat, n ≤ more →
    m.run fuel (some more) = m.run fuel (some n) ∧ m.run more none = m.run fuel (some n)

theorem resumes_of_running {n more : Nat} (h : m.runFor n = (after, .running)) (fuel : Nat) :
    m.Resumes fuel n more := by
  rw [Resumes, run_of_cut h]
  have hsum : m.runFor (n + more) = after.runFor more := by rw [runFor_add, h]
  by_cases hr : (after.runFor more).2 = .running
  · have hcut : after.runFor more = ((after.runFor more).1, .running) := Prod.ext rfl hr
    rw [run_of_cut hcut, run_of_cut (hsum.trans hcut)]
    exact ⟨rfl, .inr ⟨rfl, rfl⟩⟩
  · rw [run_of_ended hr, run_of_ended (hsum ▸ hr), hsum]
    exact ⟨rfl, .inl rfl⟩

/-- **Budgets only slice a run**, whatever the machine runs and however often it collects. -/
theorem run_budget (m : Machine) (h : m.ForgetsLimits) (fuel n : Nat) : m.Sliced fuel n := by
  have hcut := h.isCut_run fuel n
  by_cases hr : (m.runFor n).2 = .running
  · obtain ⟨after, hafter⟩ : ∃ after, m.runFor n = (after, .running) := ⟨_, Prod.ext rfl hr⟩
    obtain ⟨hsteps, hh⟩ := runFor_eq_running.mp hafter
    have hrun := run_of_cut hafter fuel
    have hfault := fault_of_stepTimes hsteps
    refine ⟨?_, ?_, ?_, ?_, ?_, ?_⟩
    · simp [hrun]
    · exact ⟨fun _ => ⟨after, hsteps, hh⟩, fun _ => hcut.mpr hr⟩
    · intro other hother _
      obtain rfl := (Prod.mk.inj (hsteps.symm.trans hother)).1
      exact ⟨hrun, hfault⟩
    · rw [hrun]
      exact fun f hf => h f (hfault.symm.trans hf)
    · exact fun more _ _ _ _ => resumes_of_running hafter fuel
    · simp [hcut.mpr hr]
  · have hrun := run_of_ended hr fuel
    have hended : (m.run fuel (some n)).2.isCut = false := by simpa using mt hcut.mp hr
    have hmore : ∀ more ≥ n, m.runFor more = m.runFor n := fun more hle => runFor_of_le hle hr
    have hnever : ∀ after, m.stepTimes n = (after, none) → after.halted = false → False :=
      fun after hs hh => hr (congrArg Prod.snd (runFor_eq_running.mpr ⟨hs, hh⟩))
    refine ⟨by rwa [hrun], ?_, ?_, ?_, ?_, ?_⟩
    · rw [hended]
      exact ⟨nofun, fun ⟨after, hs, hh⟩ => (hnever after hs hh).elim⟩
    · exact fun after hs hh => (hnever after hs hh).elim
    · exact hrun ▸ (h.runFor n).1
    · intro more after o ho hagain
      have hsum := hmore (n + more) (by omega)
      have ho' : m.runFor n = (after, o) := hrun.symm.trans ho
      have hopen : o ≠ .running := by simpa [ho'] using hr
      have hnot : ¬ o.isCut = true := by simpa [ho] using hended
      have hagain := runFor_again ho' hopen (hagain.resolve_left hnot)
      rw [Resumes, ho, run_of_ended (by simpa [hagain] using hopen), run_of_ended (by rwa [hsum]),
        hagain, hsum, ho']
      exact ⟨rfl, .inl rfl⟩
    · intro _ more hle
      have hrunFor := hmore more hle
      rw [run_of_ended (by rwa [hrunFor]), hrun]
      exact ⟨hrunFor, hrunFor⟩

/-- **A run that has failed is not taken up again without steps**: the machine remembers the fault,
but a limit of zero is met before it.  And where a call reaches above the stack, the machine does
not remember that: the run goes on behind the call. -/
theorem not_resumes_of_fault :
    let fails := ofProgram [.pop] (.ofGlobals []) 0
    let passes := ofProgram [.call (-1), .pushConst (.bool true), .ret] (.ofGlobals []) 0
    (fails.ForgetsLimits ∧ (fails.run 0 (some 1)).1.fault = some .emptyStack ∧
      ¬ fails.Resumes 0 1 0) ∧
    passes.ForgetsLimits ∧ (passes.run 0 (some 1)).2 = .fault .aboveStack ∧
      ¬ passes.Resumes 0 1 2 := by
  intro fails passes
  refine ⟨⟨.of_none rfl, rfl, ?_⟩, .of_none rfl, rfl, ?_⟩
  · rintro ⟨-, h | ⟨-, hcut⟩⟩
    · have hlimit : ((fails.run 0 (some 1)).1.run 0 (some 0)).2 = .fault (.stepLimit 0) := rfl
      have hempty : (fails.run 0 (some ↑(1 + 0))).2 = .fault .emptyStack := rfl
      cases hlimit.symm.trans (h.trans hempty)
    · cases hcut
  · rintro ⟨-, h | ⟨hcut, -⟩⟩
    · have hvalue : ((passes.run 0 (some 1)).1.run 0 (some 2)).2 = .value (.bool true) := rfl
      have habove : (passes.run 0 (some ↑(1 + 2))).2 = .fault .aboveStack := rfl
      cases hvalue.symm.trans (h.trans habove)
    · cases hcut

/-- A program of two steps, with a budget of one that is taken up again with another. -/
theorem run_budget_of_two_steps :
    let m := ofProgram [.pushConst .nil, .ret] (.ofGlobals []) 1
    m.ForgetsLimits ∧ m.Sliced 0 1 ∧ (m.run 0 (some 1)).2.isCut = true ∧
      (m.run 0 (some 2)).2.isCut = false ∧ m.Resumes 0 1 1 := by
  intro m
  have hforgets : m.ForgetsLimits := .of_none rfl
  have hsliced := run_budget m hforgets 0 1
  exact ⟨hforgets, hsliced, rfl, rfl, hsliced.resumed 1 _ _ rfl (.inl rfl)⟩

end Machine

end StackLisp
