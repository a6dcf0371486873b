import StackLisp.Machine.Step

/-!
# Runs

A **run** steps until no frame is left, and then has the result of the machine.  It may
have a **limit**: when that many steps have been taken and frames are left, the run fails,
and the machine stays as it is and can be run on.  A negative limit leaves no steps.

A run without a limit need not end.  It is given `fuel`, which is the number of steps
after which its outcome is left open.
-/

namespace StackLisp

/-- How a run ends. -/
inductive Outcome where
  /-- The machine has finished, with a result. -/
  | value (v : Value)
  /-- A step failed, or there is no result. -/
  | fault (f : Fault)
  /-- The fuel is used up and frames are left. -/
  | running

namespace Machine

/-- The outcome of a machine that has no frames left. -/
def outcome (m : Machine) : Outcome :=
  match m.result with
  | .ok v => .value v
  | .error f => .fault f

/-- **A run of at most `fuel` steps.** -/
def runFor : Nat → Machine → Machine × Outcome
  | 0, m => (m, if m.halted then m.outcome else .running)
  | fuel + 1, m =>
    if m.halted then (m, m.outcome)
    else
      match m.step with
      | (after, none) => runFor fuel after
      | (after, some f) => (after, .fault f)

/-- The outcome of a machine that has finished is not left open. -/
theorem outcome_ne_running (m : Machine) : m.outcome ≠ .running := by
  unfold outcome
  cases m.result <;> simp

/-- A machine that has finished stays as it is. -/
theorem runFor_of_halted {m : Machine} (h : m.halted = true) (fuel : Nat) :
    m.runFor fuel = (m, m.outcome) := by
  cases fuel <;> simp [runFor, h]

/-- **More fuel goes on where the run stopped**, and does not change a run that has
ended. -/
theorem runFor_add (a b : Nat) (m : Machine) :
    m.runFor (a + b) =
      match m.runFor a with
      | (after, .running) => after.runFor b
      | ended => ended := by
  induction a generalizing m with
  | zero =>
    by_cases h : m.halted = true
    · have := m.outcome_ne_running
      rw [runFor_of_halted h, runFor_of_halted h]
      split <;> simp_all
    · simp [runFor, h]
  | succ a ih =>
    by_cases h : m.halted = true
    · have := m.outcome_ne_running
      rw [runFor_of_halted h, runFor_of_halted h]
      split <;> simp_all
    · rw [Nat.succ_add, runFor, runFor, if_neg h, if_neg h]
      rcases m.step with ⟨after, _ | f⟩
      · exact ih after
      · rfl

/-- **A run**, with a limit on its steps or, without one, with fuel. -/
def run (m : Machine) (fuel : Nat) (limit : Option Int) : Machine × Outcome :=
  match limit with
  | none => m.runFor fuel
  | some limit =>
    match m.runFor limit.toNat with
    | (after, .running) => (after, .fault (.stepLimit limit))
    | ended => ended

end Machine

end StackLisp
