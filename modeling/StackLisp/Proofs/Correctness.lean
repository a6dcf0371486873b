import StackLisp.Proofs.Machine.Simulation

/-!
# The compiler is correct

A machine runs the code of a program to the value that evaluating its forms has, with the same
arena and the same output.  It fails if evaluating fails, in the same way, and goes on forever if
evaluating never decides (`compiler_correct`).
-/

namespace StackLisp

namespace Machine
variable {m : Machine} {fuel : Nat}

/-- **The verdict of a run**: how it ended, and what it left. -/
def verdict (m : Machine) (fuel : Nat) : Verdict Value :=
  match m.run fuel none with
  | (after, .value v) => .value v after.store
  | (after, .fault f) => .fault f after.store
  | (_, .running) => .undecided

theorem verdict_eq_value {v : Value} {s : Store} :
    m.verdict fuel = .value v s ↔
      ∃ after, m.run fuel none = (after, .value v) ∧ after.store = s := by
  unfold verdict
  rcases m.run fuel none with ⟨after, out⟩
  cases out <;> simp [and_assoc]

theorem verdict_eq_fault {f : Fault} {s : Store} :
    m.verdict fuel = .fault f s ↔
      ∃ after, m.run fuel none = (after, .fault f) ∧ after.store = s := by
  unfold verdict
  rcases m.run fuel none with ⟨after, out⟩
  cases out <;> simp [and_assoc]

theorem verdict_eq_undecided :
    m.verdict fuel = .undecided ↔ ∃ after, m.run fuel none = (after, .running) := by
  unfold verdict
  rcases m.run fuel none with ⟨after, out⟩
  cases out <;> simp

/-- **A run has one verdict**, however much fuel there is. -/
theorem verdict_unique {a b : Nat} (ha : m.verdict a ≠ .undecided)
    (hb : m.verdict b ≠ .undecided) : m.verdict a = m.verdict b := by
  have key : ∀ a c, m.verdict a ≠ .undecided → m.verdict (a + c) = m.verdict a := by
    intro a c ha
    unfold verdict run at ha ⊢
    simp only at ha ⊢
    rw [runFor_add]
    generalize m.runFor a = r at ha ⊢
    obtain ⟨after, out⟩ := r
    cases out with
    | running => exact absurd rfl ha
    | value v | fault f => rfl
  rcases Nat.le_total a b with hle | hle
  · obtain ⟨c, rfl⟩ := Nat.exists_eq_add_of_le hle
    exact (key a c ha).symm
  · obtain ⟨c, rfl⟩ := Nat.exists_eq_add_of_le hle
    exact key b c hb

/-- A machine that has finished with one value. -/
def Finished (v : Value) (s : Store) (last : Machine) : Prop :=
  last.frames = [] ∧ last.stack = [v] ∧ last.store = s

theorem store_failed (f : Fault) : (m.failed f).store = m.store := by
  cases f with
  | aboveStack => exact jump_store 1
  | _ => rfl

/-- **A machine that comes to a verdict has it**, if it is run for long enough. -/
theorem Meets.exists_verdict {n : Nat} {r : Verdict Value} (hm : m.fault = none)
    (h : m.Meets n Finished r) (hr : r ≠ .undecided) : ∃ fuel, m.verdict fuel = r := by
  cases r with
  | value v s =>
    obtain ⟨k, last, hs, hframes, hstack, hstore⟩ := h
    have hhalted : last.halted = true := by simp [halted, hframes]
    refine ⟨k + 0, verdict_eq_value.mpr ⟨last, ?_, hstore⟩⟩
    rw [run, hs.runFor_eq hm, runFor_of_halted hhalted]
    simp [outcome, result, hframes, hstack]
  | fault f s =>
    obtain ⟨k, last, hs, hhalted, hadv, hstore⟩ := h
    refine ⟨k + 1, verdict_eq_fault.mpr ⟨last.failed f, ?_, (store_failed f).trans hstore⟩⟩
    rw [run, hs.runFor_eq hm, runFor]
    simp [hhalted, step_of_error (hs.fault_eq.trans hm) hadv]
  | undecided => exact absurd rfl hr

/-- Where the verdict is open, a run with less fuel has not ended. -/
theorem Meets.verdict_undecided {n : Nat} (hm : m.fault = none)
    (h : m.Meets n Finished .undecided) (hf : fuel < n) : m.verdict fuel = .undecided := by
  obtain ⟨last, hs⟩ := h
  obtain ⟨mid, hmid, hrest⟩ := hs.split_of_le (Nat.le_of_lt hf)
  have hhalted : mid.halted = false := by
    obtain ⟨k, hk⟩ : ∃ k, n - fuel = k + 1 := ⟨n - fuel - 1, by omega⟩
    rw [hk] at hrest
    cases hrest with
    | succ hadv _ => exact not_halted_of_advance hadv
  refine verdict_eq_undecided.mpr ⟨mid, ?_⟩
  have hrun := hmid.runFor_eq hm 0
  rw [Nat.add_zero] at hrun
  rw [run, hrun, runFor, hhalted]
  rfl

/-! ## Programs -/

section Programs
variable {bound : List String} {forms : List Value} {code : Code} {arena : Arena}

/-- **A program comes to the verdict of evaluating its forms**, at every depth. -/
theorem meets_ofProgram (sources : Code.Sources) (hforms : ∀ form ∈ forms, form.Compiled)
    (hcode : Code.ofProgram bound forms = .ok code) (harena : arena.Compiled) (depth : Nat) :
    (ofProgram code arena 0).Meets depth Finished
      (Evaluation.ofProgram sources depth bound forms ⟨arena, []⟩) := by
  have hcompiled := Code.compiled_of_ofProgram hforms hcode
  have hstart : (ofProgram code arena 0).Stands Arena.globalId [] code [] ⟨arena, []⟩ :=
    ⟨⟨⟨code, 0, Arena.globalId⟩, rfl, rfl, Int.le_refl 0, rfl⟩, rfl, rfl, rfl,
      compiled_ofProgram hcompiled harena 0⟩
  have hend : ∀ v s next, next.Stands Arena.globalId [] [.ret] [v] s →
      ∃ k after, Steps k next after ∧ Finished v s after := by
    intro v s next hs
    obtain ⟨after, hadv, hfinished⟩ := hs.finish
    exact ⟨1, after, .single hadv, hfinished⟩
  unfold Code.ofProgram at hcode
  unfold Evaluation.ofProgram
  split at hcode
  · -- a program without forms has the empty list as its value
    rename_i hempty
    cases hcode
    rw [if_pos hempty]
    obtain ⟨next, hpush, hs⟩ := hstart.pushConst
    obtain ⟨k, after, hsteps, hfinished⟩ := hend _ _ next hs
    exact ⟨k + 1, after, .succ hpush hsteps, hfinished⟩
  · rename_i hne
    rw [if_neg hne]
    have hbody := (Code.emitsBody_of_ofBody (by simpa using hne) hcode).pushes
      (callsMeet_ofCall sources depth) hstart
    exact Meets.then hbody hend

/-- **The verdicts of runs are those of evaluating.** -/
theorem exists_verdict_iff (sources : Code.Sources) (hforms : ∀ form ∈ forms, form.Compiled)
    (hcode : Code.ofProgram bound forms = .ok code) (harena : arena.Compiled)
    {r : Verdict Value} (hr : r ≠ .undecided) :
    (∃ fuel, (ofProgram code arena 0).verdict fuel = r) ↔
      ∃ depth, Evaluation.ofProgram sources depth bound forms ⟨arena, []⟩ = r := by
  have hmeets := meets_ofProgram sources hforms hcode harena
  constructor
  · rintro ⟨fuel, rfl⟩
    refine ⟨fuel + 1, ?_⟩
    -- the run has ended before so many steps, so this depth decides
    have hdecided :
        Evaluation.ofProgram sources (fuel + 1) bound forms ⟨arena, []⟩ ≠ .undecided := by
      intro hundecided
      have hopen := hmeets (fuel + 1)
      rw [hundecided] at hopen
      exact hr (hopen.verdict_undecided rfl (Nat.lt_succ_self fuel))
    obtain ⟨b, hb⟩ := (hmeets (fuel + 1)).exists_verdict rfl hdecided
    rw [← hb] at hdecided ⊢
    exact verdict_unique hdecided hr
  · rintro ⟨depth, rfl⟩
    exact (hmeets depth).exists_verdict rfl hr

end Programs

end Machine

/-- **The compiler is correct.**  A program, run by a machine that never collects in an arena of
compiled values, ends with a value, an arena and an output if and only if evaluating its forms
gives these.  Likewise it fails exactly if evaluating fails, in the same way and with the same arena
and output, and it goes on forever exactly if evaluating decides at no depth. -/
theorem compiler_correct (sources : Code.Sources) {bound : List String} {forms : List Value}
    {code : Code} {arena : Arena} (hforms : ∀ form ∈ forms, form.Compiled)
    (hcode : Code.ofProgram bound forms = .ok code) (harena : arena.Compiled) :
    let m := Machine.ofProgram code arena 0
    (∀ v after output, (∃ fuel last, m.run fuel none = (last, .value v) ∧ last.arena = after ∧
        last.output = output) ↔
      ∃ depth, Evaluation.ofProgram sources depth bound forms ⟨arena, []⟩ =
        .value v ⟨after, output⟩) ∧
    (∀ fault after output, (∃ fuel last, m.run fuel none = (last, .fault fault) ∧
        last.arena = after ∧ last.output = output) ↔
      ∃ depth, Evaluation.ofProgram sources depth bound forms ⟨arena, []⟩ =
        .fault fault ⟨after, output⟩) ∧
    ((∀ fuel, ∃ last, m.run fuel none = (last, .running)) ↔
      ∀ depth, Evaluation.ofProgram sources depth bound forms ⟨arena, []⟩ = .undecided) := by
  intro m
  have key := fun {r} => Machine.exists_verdict_iff sources hforms hcode harena (r := r)
  have hstore : ∀ {last : Machine} {after output}, last.store = ⟨after, output⟩ ↔
      last.arena = after ∧ last.output = output := by
    intro last after output
    simp [Machine.store]
  refine ⟨fun v after output => ?_, fun fault after output => ?_, ?_⟩
  · have hr : Verdict.value v ⟨after, output⟩ ≠ .undecided := by simp
    simp only [← key hr, Machine.verdict_eq_value, hstore]
    exact Iff.rfl
  · have hr : (.fault fault ⟨after, output⟩ : Verdict Value) ≠ .undecided := by simp
    simp only [← key hr, Machine.verdict_eq_fault, hstore]
    exact Iff.rfl
  · simp only [← Machine.verdict_eq_undecided]
    constructor
    · intro hrun depth
      refine Classical.byContradiction fun hr => ?_
      obtain ⟨fuel, hf⟩ := (key hr).mpr ⟨depth, rfl⟩
      exact hr (hf.symm.trans (hrun fuel))
    · intro heval fuel
      refine Classical.byContradiction fun hr => ?_
      obtain ⟨depth, hd⟩ := (key hr).mp ⟨fuel, rfl⟩
      exact hr (hd.symm.trans (heval depth))

/-- The value of `((lambda (x) (if x (and x 'y) (display x))) true)`. -/
theorem compiler_correct_call :
    let form : Value := .ofList [.ofList [.symbol "lambda", .ofList [.symbol "x"] none .nil,
      .ofList [.symbol "if", .symbol "x",
        .ofList [.symbol "and", .symbol "x", .quoted (.symbol "y")] none .nil,
        .ofList [.symbol "display", .symbol "x"] none .nil] none .nil] none .nil,
      .bool true] none .nil
    ∃ (sources : Code.Sources) (code : Code), form.Compiled ∧
      Code.ofProgram [] [form] = .ok code ∧ Arena.empty.Compiled ∧
      ∃ depth arena, Evaluation.ofProgram sources depth [] [form] ⟨.empty, []⟩ =
        .value (.symbol "y") ⟨arena, []⟩ := by
  intro form
  obtain ⟨sources⟩ : Nonempty Code.Sources := inferInstance
  have hform : form.Compiled := by
    simp only [form, Value.ofList, List.foldr]
    repeat constructor
  have hforms : ∀ f ∈ [form], f.Compiled := by simpa using hform
  refine ⟨sources, _, hform, rfl, Arena.compiled_empty, ?_⟩
  obtain ⟨depth, hd⟩ :=
    ((compiler_correct sources hforms rfl Arena.compiled_empty).1 (.symbol "y") _ []).mp
      ⟨20, _, rfl, rfl, rfl⟩
  exact ⟨depth, _, hd⟩

end StackLisp
