import StackLisp.Proofs.Machine.Effect

/-!
# Sequences of steps

`Machine.Steps n m after` says that `n` steps, all of which succeed, lead from one machine to
another.  Stepping (`stepTimes_cases`) and running (`runFor_cases`) are such a sequence and
what comes at its end: nothing left to run, a step that fails, or no steps left.  So an
invariant of single steps is one of all machines that can be met (`Steps.induction`).
-/

namespace StackLisp.Machine

/-- **`n` steps that succeed.** -/
inductive Steps : Nat → Machine → Machine → Prop
  | zero (m : Machine) : Steps 0 m m
  | succ {n : Nat} {m next after : Machine} (h : m.advance = .ok next) (hs : Steps n next after) :
      Steps (n + 1) m after

variable {m next after : Machine} {scope : ScopeId}

/-! ## Single steps -/

/-- Instructions leave the remembered fault and the threshold alone. -/
theorem Effect.fault_gcThreshold {i : Instruction} (h : m.Effect scope i after) :
    after.fault = m.fault ∧ after.gcThreshold = m.gcThreshold := by
  have called : ∀ {args stack rest : List Value} {callee : Value},
      m.Called args stack rest callee after →
      after.fault = m.fault ∧ after.gcThreshold = m.gcThreshold := by
    intro args stack rest callee hc
    cases hc <;> simp
  cases h with
  | call _ _ hc => exact called hc
  | callAt _ _ hc => exact called hc
  | apply _ _ hc => exact called hc
  | jumpIfTruthy _ => split <;> simp
  | jumpIfFalsy _ => split <;> simp
  | _ => exact ⟨rfl, rfl⟩

theorem fault_of_advance (h : m.advance = .ok after) : after.fault = m.fault := by
  obtain ⟨frame, frames, i, next, -, -, he, rfl⟩ := advance_eq_ok.mp h
  simpa using he.fault_gcThreshold.1

theorem gcThreshold_of_advance (h : m.advance = .ok after) :
    after.gcThreshold = m.gcThreshold := by
  obtain ⟨frame, frames, i, next, -, -, he, rfl⟩ := advance_eq_ok.mp h
  simpa using he.fault_gcThreshold.2

/-- Instructions do not count themselves. -/
theorem Effect.steps_eq {i : Instruction} (h : m.Effect scope i after) :
    after.steps = m.steps := by
  have called : ∀ {args stack rest : List Value} {callee : Value},
      m.Called args stack rest callee after → after.steps = m.steps := by
    intro args stack rest callee hc
    cases hc <;> simp
  cases h with
  | call _ _ hc => exact called hc
  | callAt _ _ hc => exact called hc
  | apply _ _ hc => exact called hc
  | jumpIfTruthy _ => split <;> simp
  | jumpIfFalsy _ => split <;> simp
  | _ => rfl

/-- **A step that succeeds is counted.** -/
theorem steps_of_advance (h : m.advance = .ok after) : after.steps = m.steps + 1 := by
  obtain ⟨frame, frames, i, next, -, -, he, rfl⟩ := advance_eq_ok.mp h
  simpa using he.steps_eq

/-- A machine without frames cannot take a step. -/
theorem not_halted_of_advance (h : m.advance = .ok after) : m.halted = false := by
  obtain ⟨frame, frames, i, next, hf, -, -, -⟩ := advance_eq_ok.mp h
  simp [halted, hf]

theorem step_of_fault {f : Fault} (hm : m.fault = some f) : m.step = (m, some f) := by
  simp [step, hm]

theorem step_of_ok (hm : m.fault = none) (h : m.advance = .ok after) : m.step = (after, none) := by
  simp [step, hm, h]

theorem step_of_error (hm : m.fault = none) {f : Fault} (h : m.advance = .error f) :
    m.step = (m.failed f, some f) := by
  simp [step, hm, h]

/-- **How a step fails**: with the fault that the machine remembers, or with one of its own. -/
theorem of_step_fault {f : Fault} (h : m.step = (after, some f)) :
    m.fault = some f ∧ after = m ∨ m.fault = none ∧ m.advance = .error f ∧ after = m.failed f := by
  cases hm : m.fault with
  | some g =>
    obtain ⟨rfl, rfl⟩ : m = after ∧ g = f := by simpa [step_of_fault hm] using h
    exact .inl ⟨rfl, rfl⟩
  | none =>
    cases ha : m.advance with
    | ok next =>
      rw [step_of_ok hm ha] at h
      cases h
    | error g =>
      obtain ⟨rfl, rfl⟩ : m.failed g = after ∧ g = f := by simpa [step_of_error hm ha] using h
      exact .inr ⟨rfl, rfl, rfl⟩

/-- **A step that has failed fails again in the same way.**  Only a call that reaches above the
stack is neither remembered nor met again. -/
theorem step_again {f : Fault} (h : m.step = (after, some f))
    (hagain : after.fault.isSome = true ∨ f ≠ .aboveStack) : after.step = (after, some f) := by
  obtain ⟨-, rfl⟩ | ⟨hm, ha, rfl⟩ := of_step_fault h
  · exact h
  · cases f with
    | noFrames | beforeCode => exact h
    | aboveStack =>
      rw [failed, jump_fault, hm] at hagain
      exact (hagain.resolve_left nofun rfl).elim
    | _ => rfl

theorem advance_of_step (hm : m.fault = none) (h : m.step = (after, none)) :
    m.advance = .ok after := by
  cases ha : m.advance with
  | ok next =>
    rw [step_of_ok hm ha] at h
    rw [(Prod.mk.inj h).1]
  | error f =>
    rw [step_of_error hm ha] at h
    cases h

/-! ## Sequences -/

namespace Steps

/-- **What single steps keep, all steps keep.** -/
theorem induction {Q : Machine → Prop} {n : Nat} (h : Steps n m after)
    (hstep : ∀ m next, Q m → m.advance = .ok next → Q next) (h0 : Q m) : Q after := by
  induction h with
  | zero m => exact h0
  | succ ha _ ih => exact ih (hstep _ _ h0 ha)

theorem trans {a b : Nat} (h : Steps a m next) (h' : Steps b next after) :
    Steps (a + b) m after := by
  induction h with
  | zero m => rwa [Nat.zero_add]
  | succ ha _ ih =>
    rw [Nat.succ_add]
    exact .succ ha (ih h')

theorem single (h : m.advance = .ok after) : Steps 1 m after :=
  .succ h (.zero after)

/-- Fewer steps lead somewhere too. -/
theorem split_of_le {a n : Nat} (h : Steps n m after) (ha : a ≤ n) :
    ∃ mid, Steps a m mid ∧ Steps (n - a) mid after := by
  induction h generalizing a with
  | zero m =>
    obtain rfl : a = 0 := by omega
    exact ⟨m, .zero m, .zero m⟩
  | @succ n m next after hadv hs ih =>
    cases a with
    | zero => exact ⟨m, .zero m, .succ hadv hs⟩
    | succ a =>
      obtain ⟨mid, hmid, hrest⟩ := ih (a := a) (by omega)
      refine ⟨mid, .succ hadv hmid, ?_⟩
      rwa [Nat.add_sub_add_right]

theorem fault_eq {n : Nat} (h : Steps n m after) : after.fault = m.fault :=
  h.induction (Q := fun m' => m'.fault = m.fault) (fun _ _ hq ha => (fault_of_advance ha).trans hq)
    rfl

/-- **Steps are the beginning of a run.** -/
theorem runFor_eq {n : Nat} (h : Steps n m after) (hm : m.fault = none) (fuel : Nat) :
    m.runFor (n + fuel) = after.runFor fuel := by
  induction h with
  | zero m => rw [Nat.zero_add]
  | succ ha _ ih =>
    have hnext := (fault_of_advance ha).trans hm
    rw [Nat.succ_add, runFor, if_neg (by simp [not_halted_of_advance ha]), step_of_ok hm ha]
    exact ih hnext

/-- **Steps are what stepping does.** -/
theorem stepTimes_eq {n : Nat} (h : Steps n m after) (hm : m.fault = none) :
    m.stepTimes n = (after, none) := by
  induction h with
  | zero m => rfl
  | succ ha _ ih =>
    rw [stepTimes, step_of_ok hm ha]
    exact ih ((fault_of_advance ha).trans hm)

end Steps

/-- Stepping without a fault takes steps. -/
theorem steps_of_stepTimes {n : Nat} (hm : m.fault = none) (h : m.stepTimes n = (after, none)) :
    Steps n m after := by
  induction n generalizing m with
  | zero =>
    cases h
    exact .zero _
  | succ n ih =>
    cases ha : m.advance with
    | ok next =>
      rw [stepTimes, step_of_ok hm ha] at h
      exact .succ ha (ih ((fault_of_advance ha).trans hm) h)
    | error f =>
      rw [stepTimes, step_of_error hm ha] at h
      cases h

/-- **How stepping goes**: steps that succeed, and perhaps one that fails. -/
theorem stepTimes_cases (n : Nat) (hm : m.fault = none) :
    ∃ k last, Steps k m last ∧ last.fault = none ∧
      (m.stepTimes n = (last, none) ∨
        ∃ f, last.advance = .error f ∧ m.stepTimes n = (last.failed f, some f)) := by
  induction n generalizing m with
  | zero => exact ⟨0, m, .zero m, hm, .inl rfl⟩
  | succ n ih =>
    cases ha : m.advance with
    | error f =>
      refine ⟨0, m, .zero m, hm, .inr ⟨f, ha, ?_⟩⟩
      simp [stepTimes, step_of_error hm ha]
    | ok next =>
      obtain ⟨k, last, hs, hl, h⟩ := ih ((fault_of_advance ha).trans hm)
      refine ⟨k + 1, last, .succ ha hs, hl, ?_⟩
      rwa [stepTimes, step_of_ok hm ha]

/-- **How a run goes**: steps that succeed, and then the machine has finished, or a step
fails, or the fuel is used up. -/
theorem runFor_cases (fuel : Nat) (hm : m.fault = none) :
    ∃ k last, k ≤ fuel ∧ Steps k m last ∧ last.fault = none ∧
      (last.halted = true ∧ m.runFor fuel = (last, last.outcome) ∨
        (∃ f, last.halted = false ∧ last.advance = .error f ∧
          m.runFor fuel = (last.failed f, .fault f)) ∨
        k = fuel ∧ last.halted = false ∧ m.runFor fuel = (last, .running)) := by
  induction fuel generalizing m with
  | zero =>
    refine ⟨0, m, Nat.le_refl 0, .zero m, hm, ?_⟩
    cases hh : m.halted with
    | true => exact .inl ⟨rfl, runFor_of_halted hh 0⟩
    | false => exact .inr (.inr ⟨rfl, rfl, by simp [runFor, hh]⟩)
  | succ fuel ih =>
    cases hh : m.halted with
    | true => exact ⟨0, m, Nat.zero_le _, .zero m, hm, .inl ⟨hh, runFor_of_halted hh _⟩⟩
    | false =>
      cases ha : m.advance with
      | error f =>
        refine ⟨0, m, Nat.zero_le _, .zero m, hm, .inr (.inl ⟨f, hh, ha, ?_⟩)⟩
        simp [runFor, hh, step_of_error hm ha]
      | ok next =>
        obtain ⟨k, last, hk, hs, hl, h⟩ := ih ((fault_of_advance ha).trans hm)
        refine ⟨k + 1, last, Nat.succ_le_succ hk, .succ ha hs, hl, ?_⟩
        have hrun : m.runFor (fuel + 1) = next.runFor fuel := by
          simp [runFor, hh, step_of_ok hm ha]
        rw [hrun]
        rcases h with h | h | ⟨he, h⟩
        · exact .inl h
        · exact .inr (.inl h)
        · exact .inr (.inr ⟨congrArg (· + 1) he, h⟩)

end StackLisp.Machine
