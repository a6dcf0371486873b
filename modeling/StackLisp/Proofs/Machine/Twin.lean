import StackLisp.Proofs.Machine.Failure
import StackLisp.Proofs.Machine.Relocation

/-!
# Twins

**Twins** (`Machine.Twin`) are machines that differ in locations only, also in the number of their
steps and in the fault that stopped them.  They stay twins for good: a step of one succeeds,
fails or is refused just as that of the other, and if it fails, it fails for the same reason
(`Twin.step`).  So a program cannot tell from anything it computes where it was read.

That steps succeed together is known of machines that are alike (`Like.advance`).  What is
added here is that they **fail together** (`Like.fails`), with faults that hold the same values
up to locations.
-/

namespace StackLisp

namespace Machine
variable {m n after : Machine} {scope : ScopeId} {i j : Instruction} {fault : Fault}

/-! ## Steps that fail -/

namespace Like

theorem eq_nil (h : m.Like n) (hs : m.stack = []) : n.stack = [] := by
  have hstack := h.stack
  rwa [hs, List.map_nil, List.map_eq_nil_iff] at hstack

theorem length_stack (h : m.Like n) : n.stack.length = m.stack.length := by
  simpa using congrArg List.length h.stack

/-- **Calls fail for the same reason.** -/
theorem uncalled (h : m.Like n) {args args' : List Value} {callee callee' : Value}
    (ha : args'.map Value.bare = args.map Value.bare) (hc : callee'.bare = callee.bare)
    (hu : m.Uncalled args callee fault) :
    ∃ fault', n.Uncalled args' callee' fault' ∧ fault'.bare = fault.bare := by
  cases hu with
  | @arguments params code closed fault hb =>
    obtain ⟨code', rfl, -⟩ := Value.exists_closure hc
    obtain ⟨fault', hb', hf⟩ := (params.bind_matches ha).exists_error hb
    exact ⟨fault', .arguments hb', hf⟩
  | @missingParent params code closed bindings hb hp =>
    obtain ⟨code', rfl, -⟩ := Value.exists_closure hc
    obtain ⟨bindings', hb', -⟩ := (params.bind_matches ha).exists_ok hb
    exact ⟨_, .missingParent hb' ((h.arena.contains closed).trans hp), rfl⟩
  | @primitive name p fault hp happ =>
    obtain rfl := Value.eq_symbol_of_bare hc
    obtain ⟨fault', happ', hf⟩ := (p.apply_matches ha).exists_error happ
    exact ⟨fault', .primitive hp happ', hf⟩
  | notFunction hn hp =>
    refine ⟨_, .notFunction ?_ ?_, congrArg Fault.notFunction hc⟩
    · rintro params code closed rfl
      obtain ⟨code', he, -⟩ := Value.exists_closure hc.symm
      exact hn params code' closed he
    · rintro name rfl
      exact hp name (Value.eq_symbol_of_bare hc.symm)

/-- **Returns** succeed or fail alike. -/
theorem leave (h : m.Like n) : Matches (Upto Fault.bare) Machine.Like m.leave n.leave := by
  have hstack := h.stack
  have hframes := h.frames
  have finish : ∀ {stack stack' : List Value}, stack'.map Value.bare = stack.map Value.bare →
      Machine.Like { m with stack := stack, frames := [] }
        { n with stack := stack', frames := [] } := fun hs =>
    ⟨h.arena, hs, rfl, h.output, h.fault, h.gcThreshold, h.allocations⟩
  unfold Machine.leave
  -- both have the same numbers of frames and values, and without a callee only these matter
  rcases hf : m.frames with _ | ⟨f, _ | ⟨caller, frames⟩⟩ <;>
    rcases hg : n.frames with _ | ⟨g, _ | ⟨caller', frames'⟩⟩ <;>
    simp only [hf, hg, List.map_cons, List.map_nil, reduceCtorEq, List.cons.injEq, and_false]
      at hframes <;>
    rcases hs : m.stack with _ | ⟨v, _ | ⟨callee, below⟩⟩ <;>
    rcases hs' : n.stack with _ | ⟨v', _ | ⟨callee', below'⟩⟩ <;>
    simp only [hs, hs', List.map_cons, List.map_nil, reduceCtorEq, List.cons.injEq, and_false]
      at hstack
  all_goals first | exact .error rfl | exact .error (congrArg Fault.notCallee hstack.2.1) | skip
  · exact .ok (finish (by simp [hstack]))
  · exact .ok (finish (by simp [hstack]))
  · cases callee with
    | closure params code closed =>
      obtain ⟨code', rfl, -⟩ := Value.exists_closure hstack.2.1
      exact .ok ⟨h.arena, by simp [hstack], by simp [hframes], h.output, h.fault, h.gcThreshold,
        h.allocations⟩
    | _ =>
      cases callee' with
      | closure => cases hstack.2.1
      | _ => exact .error (congrArg Fault.notCallee hstack.2.1)

/-- **Instructions fail for the same reason.** -/
theorem fails (h : m.Like n) (hi : j.bare = i.bare) (hf : m.Fails scope i fault) :
    ∃ fault', n.Fails scope j fault' ∧ fault'.bare = fault.bare := by
  have hcons : ∀ {v rest}, m.stack = v :: rest → ∃ w rest', n.stack = w :: rest' ∧
      w.bare = v.bare ∧ rest'.map Value.bare = rest.map Value.bare :=
    fun hs => exists_cons_of_map (hs ▸ h.stack)
  have hplace : ∀ place : Nat, (n.stack.reverse[place]?).map Value.bare =
      (m.stack.reverse[place]?).map Value.bare := by
    intro place
    rw [← List.getElem?_map, List.map_reverse, h.stack, ← List.map_reverse, List.getElem?_map]
  obtain ⟨v, w, rfl, rfl, -⟩ | rfl := Instruction.cases_of_bare hi
  · cases hf
  cases hf with
  | pop hs => exact ⟨_, .pop (h.eq_nil hs), rfl⟩
  | @lookup name fault hf =>
    obtain ⟨_, hf', rfl⟩ := (h.arena.find scope name).exists_error hf
    exact ⟨_, .lookup hf', rfl⟩
  | @unbound name hf hp =>
    obtain ⟨found, hf', hbare⟩ := (h.arena.find scope name).exists_ok hf
    rw [Upto, Option.map_none, Option.map_eq_none_iff] at hbare
    subst hbare
    exact ⟨_, .unbound hf' hp, rfl⟩
  | missingScope hg =>
    obtain ⟨_, hg', rfl⟩ := (h.arena.get scope).exists_error hg
    exact ⟨_, .missingScope hg', rfl⟩
  | define hg hs =>
    obtain ⟨_, hg', -⟩ := (h.arena.get scope).exists_ok hg
    exact ⟨_, .define hg' (h.eq_nil hs), rfl⟩
  | jumpIfTruthy hs => exact ⟨_, .jumpIfTruthy (h.eq_nil hs), rfl⟩
  | jumpIfFalsy hs => exact ⟨_, .jumpIfFalsy (h.eq_nil hs), rfl⟩
  | ret hl =>
    obtain ⟨fault', hl', hbare⟩ := h.leave.exists_error hl
    exact ⟨fault', .ret hl', hbare⟩
  | makeClosure hs => exact ⟨_, .makeClosure (h.eq_nil hs), rfl⟩
  | notTemplate hs hv =>
    obtain ⟨w, rest', hs', hw, -⟩ := hcons hs
    refine ⟨_, .notTemplate hs' ?_, congrArg Fault.notTemplate hw⟩
    rintro params code rfl
    obtain ⟨code', he, -⟩ := Value.exists_template hw.symm
    exact hv params code' he
  | @callUnderflow argc hs =>
    have hlength := h.length_stack
    refine ⟨_, .callUnderflow (by omega), ?_⟩
    rw [hlength]
  | @call argc callee args below fault hs hn hc =>
    obtain ⟨args', rest', hs', hlen, hargs, hrest⟩ := h.exists_args hs
    obtain ⟨callee', below', rfl, hcallee, -⟩ := exists_cons_of_map hrest
    obtain ⟨fault', hc', hbare⟩ := h.uncalled hargs hcallee hc
    exact ⟨fault', .call hs' (by rw [hlen, hn]) hc', hbare⟩
  | @aboveStack argc hn hm =>
    have hnone := hplace (-argc - 1).toNat
    rw [hm, Option.map_none, Option.map_eq_none_iff] at hnone
    exact ⟨_, .aboveStack hn hnone, rfl⟩
  | @callAt argc callee fault hn hm hc =>
    have hsome := hplace (-argc - 1).toNat
    rw [hm, Option.map_some, Option.map_eq_some_iff] at hsome
    obtain ⟨callee', hm', hcallee⟩ := hsome
    obtain ⟨fault', hc', hbare⟩ := h.uncalled rfl hcallee hc
    exact ⟨fault', .callAt hn hm' hc', hbare⟩
  | unknownPrimitive hp => exact ⟨_, .unknownPrimitive hp, rfl⟩
  | @primitiveUnderflow name argc p hp hs =>
    have hlength := h.length_stack
    refine ⟨_, .primitiveUnderflow hp (by omega), ?_⟩
    rw [hlength]
  | @callPrimitive name argc p args below fault hs hn hp ha =>
    obtain ⟨args', below', hs', hlen, hargs, -⟩ := h.exists_args hs
    obtain ⟨fault', ha', hbare⟩ := (p.apply_matches hargs).exists_error ha
    exact ⟨fault', .callPrimitive hs' (by rw [hlen, hn]) hp ha', hbare⟩
  | applyUnderflow hs =>
    have hlength := h.length_stack
    exact ⟨_, .applyUnderflow (by omega), rfl⟩
  | notArguments hs hl =>
    obtain ⟨list', rest', hs', hlist, hrest⟩ := hcons hs
    obtain ⟨callee', below', rfl, -, -⟩ := exists_cons_of_map hrest
    exact ⟨_, .notArguments hs' (Value.list?_eq_none hlist hl), congrArg Fault.notArguments hlist⟩
  | @apply list callee items below fault hs hl hc =>
    obtain ⟨list', rest', hs', hlist, hrest⟩ := hcons hs
    obtain ⟨callee', below', rfl, hcallee, -⟩ := exists_cons_of_map hrest
    obtain ⟨items', hl', hitems⟩ := Value.exists_list? hlist hl
    obtain ⟨fault', hc', hbare⟩ := h.uncalled hitems hcallee hc
    exact ⟨fault', .apply hs' hl' hc', hbare⟩
  | display hs => exact ⟨_, .display (h.eq_nil hs), rfl⟩
  | undefined opcode => exact ⟨_, .undefined opcode, rfl⟩

/-- **A step that fails** does so in both, for the same reason. -/
theorem advance_error (h : m.Like n) (ha : m.advance = .error fault) :
    ∃ fault', n.advance = .error fault' ∧ fault'.bare = fault.bare := by
  rcases advance_eq_error.mp ha with ⟨hf, rfl⟩ | ⟨f, frames, hf, hcases⟩
  · have hframes := h.frames
    rw [hf, List.map_nil, List.map_eq_nil_iff] at hframes
    exact ⟨_, advance_eq_error.mpr (.inl ⟨hframes, rfl⟩), rfl⟩
  · obtain ⟨g, rest, hg, hbare, -⟩ := exists_cons_of_map (hf ▸ h.frames)
    have hscope : g.scope = f.scope := congrArg (·.scope) hbare
    rcases hcases with hi | ⟨i, hi, hfails⟩
    · obtain ⟨_, hj, rfl⟩ := (fetch_matches hbare).exists_error hi
      exact ⟨_, advance_eq_error.mpr (.inr ⟨g, rest, hg, .inl hj⟩), rfl⟩
    · obtain ⟨j, hj, hij⟩ := (fetch_matches hbare).exists_ok hi
      obtain ⟨fault', hfails', hfault⟩ := (h.jump 1).fails hij hfails
      exact ⟨fault', advance_eq_error.mpr (.inr ⟨g, rest, hg, .inr ⟨j, hj, hscope ▸ hfails'⟩⟩),
        hfault⟩

end Like

/-! ## Steps of twins -/

/-- **Machines that differ in locations only.** -/
structure Twin (m n : Machine) : Prop where
  arena : m.arena.Like n.arena
  stack : n.stack.map Value.bare = m.stack.map Value.bare
  frames : n.frames.map Frame.bare = m.frames.map Frame.bare
  output : n.output = m.output
  steps : n.steps = m.steps
  fault : n.fault.map Fault.bare = m.fault.map Fault.bare
  gcThreshold : n.gcThreshold = m.gcThreshold
  allocations : n.allocations = m.allocations

theorem Like.twin (h : m.Like n) (hs : n.steps = m.steps) : m.Twin n :=
  ⟨h.arena, h.stack, h.frames, h.output, hs, by rw [h.fault], h.gcThreshold, h.allocations⟩

/-- Only three faults are not remembered, and they are about no value. -/
theorem eq_of_bare_of_passing {fault' : Fault} (h : fault'.bare = fault.bare)
    (hf : fault = .noFrames ∨ fault = .beforeCode ∨ fault = .aboveStack) : fault' = fault := by
  rcases hf with rfl | rfl | rfl <;> cases fault' <;> cases h <;> rfl

theorem failed_of_not_passing
    (hf : ¬ (fault = .noFrames ∨ fault = .beforeCode ∨ fault = .aboveStack)) :
    m.failed fault = { m with fault := some fault } := by
  unfold failed
  split <;> simp_all

/-- Steps that fail leave twins. -/
theorem Like.failed (h : m.Like n) (hs : n.steps = m.steps) {fault' : Fault}
    (hf : fault'.bare = fault.bare) : (m.failed fault).Twin (n.failed fault') := by
  by_cases hpass : fault = .noFrames ∨ fault = .beforeCode ∨ fault = .aboveStack
  · obtain rfl := eq_of_bare_of_passing hf hpass
    rcases hpass with rfl | rfl | rfl
    · exact h.twin hs
    · exact h.twin hs
    · exact (h.jump 1).twin (by simpa using hs)
  · have hpass' : ¬ (fault' = .noFrames ∨ fault' = .beforeCode ∨ fault' = .aboveStack) :=
      fun h' => hpass (eq_of_bare_of_passing hf.symm h' ▸ h')
    rw [failed_of_not_passing hpass, failed_of_not_passing hpass']
    exact ⟨h.arena, h.stack, h.frames, h.output, hs, congrArg some hf, h.gcThreshold,
      h.allocations⟩

namespace Twin

theorem fault_none (h : m.Twin n) (hm : m.fault = none) : n.fault = none := by
  have hfault := h.fault
  rwa [hm, Option.map_none, Option.map_eq_none_iff] at hfault

theorem like (h : m.Twin n) (hm : m.fault = none) : m.Like n :=
  ⟨h.arena, h.stack, h.frames, h.output, (h.fault_none hm).trans hm.symm, h.gcThreshold,
    h.allocations⟩

/-- **What a step does** is the same. -/
theorem advance (h : m.Twin n) (hm : m.fault = none) :
    Matches (Upto Fault.bare) Twin m.advance n.advance := by
  cases ha : m.advance with
  | ok after =>
    obtain ⟨after', ha', hafter⟩ := (h.like hm).advance ha
    rw [ha']
    refine .ok (hafter.twin ?_)
    rw [steps_of_advance ha', steps_of_advance ha, h.steps]
  | error fault =>
    obtain ⟨fault', ha', hf⟩ := (h.like hm).advance_error ha
    rw [ha']
    exact .error hf

/-- **A step of twins** leaves twins and fails in both or in neither, for the same reason. -/
theorem step (h : m.Twin n) :
    m.step.1.Twin n.step.1 ∧ n.step.2.map Fault.bare = m.step.2.map Fault.bare := by
  cases hm : m.fault with
  | some fault =>
    have hfault := h.fault
    rw [hm, Option.map_some, Option.map_eq_some_iff] at hfault
    obtain ⟨fault', hn, hf⟩ := hfault
    rw [step_of_fault hm, step_of_fault hn]
    exact ⟨h, congrArg some hf⟩
  | none =>
    have hn := h.fault_none hm
    have hadvance := h.advance hm
    cases ha : m.advance with
    | ok after =>
      obtain ⟨after', ha', hafter⟩ := hadvance.exists_ok ha
      rw [step_of_ok hm ha, step_of_ok hn ha']
      exact ⟨hafter, rfl⟩
    | error fault =>
      obtain ⟨fault', ha', hf⟩ := hadvance.exists_error ha
      rw [step_of_error hm ha, step_of_error hn ha']
      exact ⟨(h.like hm).failed h.steps hf, congrArg some hf⟩

/-- **Any number of steps.** -/
theorem stepTimes (h : m.Twin n) (k : Nat) :
    (m.stepTimes k).1.Twin (n.stepTimes k).1 ∧
      (n.stepTimes k).2.map Fault.bare = (m.stepTimes k).2.map Fault.bare := by
  induction k generalizing m n with
  | zero => exact ⟨h, rfl⟩
  | succ k ih =>
    obtain ⟨hafter, hfault⟩ := h.step
    rw [Machine.stepTimes, Machine.stepTimes]
    rcases hm : m.step with ⟨after, fault⟩
    rcases hn : n.step with ⟨after', fault'⟩
    rw [hm, hn] at hafter hfault
    cases fault with
    | none =>
      obtain rfl := Option.map_eq_none_iff.mp hfault
      exact ih hafter
    | some fault =>
      obtain ⟨fault', rfl, -⟩ := Option.map_eq_some_iff.mp hfault
      exact ⟨hafter, hfault⟩

/-! ## Runs of twins -/

/-- **Runs of twins** with the same fuel. -/
theorem runFor (h : m.Twin n) (fuel : Nat) :
    (m.runFor fuel).1.Twin (n.runFor fuel).1 ∧
      (n.runFor fuel).2.bare = (m.runFor fuel).2.bare := by
  induction fuel generalizing m n with
  | zero =>
    rw [Machine.runFor, Machine.runFor, halted_of_bare h.frames]
    refine ⟨h, ?_⟩
    show Outcome.bare (if m.halted then n.outcome else .running) = _
    split
    · exact outcome_of_bare h.frames h.stack
    · rfl
  | succ fuel ih =>
    rw [Machine.runFor, Machine.runFor, halted_of_bare h.frames]
    split
    · exact ⟨h, outcome_of_bare h.frames h.stack⟩
    · obtain ⟨hafter, hfault⟩ := h.step
      rcases hm : m.step with ⟨after, fault⟩
      rcases hn : n.step with ⟨after', fault'⟩
      rw [hm, hn] at hafter hfault
      cases fault with
      | none =>
        obtain rfl := Option.map_eq_none_iff.mp hfault
        exact ih hafter
      | some fault =>
        obtain ⟨fault', rfl, hf⟩ := Option.map_eq_some_iff.mp hfault
        exact ⟨hafter, congrArg Outcome.fault hf⟩

/-- **Runs of twins**, with the same limit or with the same fuel. -/
theorem run (h : m.Twin n) (fuel : Nat) (limit : Option Int) :
    (m.run fuel limit).1.Twin (n.run fuel limit).1 ∧
      (n.run fuel limit).2.bare = (m.run fuel limit).2.bare := by
  cases limit with
  | none => exact h.runFor fuel
  | some limit =>
    obtain ⟨hafter, hout⟩ := h.runFor limit.toNat
    rw [Machine.run, Machine.run]
    rcases hm : m.runFor limit.toNat with ⟨after, out⟩
    rcases hn : n.runFor limit.toNat with ⟨after', out'⟩
    rw [hm, hn] at hafter hout
    cases out with
    | running =>
      obtain rfl := Outcome.eq_running_of_bare hout
      exact ⟨hafter, rfl⟩
    | value v =>
      obtain ⟨w, rfl, hw⟩ := Outcome.exists_value hout
      exact ⟨hafter, hout⟩
    | fault f =>
      obtain ⟨f', rfl, hf⟩ := Outcome.exists_fault hout
      exact ⟨hafter, hout⟩

end Twin

/-! ## More fuel -/

theorem runFor_of_le {fuel fuel' : Nat} (hfuel : fuel ≤ fuel')
    (h : (m.runFor fuel).2 ≠ .running) : m.runFor fuel' = m.runFor fuel := by
  obtain ⟨more, rfl⟩ := Nat.exists_eq_add_of_le hfuel
  rw [runFor_add]
  split
  · rename_i hr
    rw [hr] at h
    exact absurd rfl h
  · rfl

/-- **More fuel does not change a run that has ended.** -/
theorem run_of_le {fuel fuel' : Nat} (hfuel : fuel ≤ fuel') {limit : Option Int}
    (h : (m.run fuel limit).2 ≠ .running) : m.run fuel' limit = m.run fuel limit := by
  cases limit with
  | none => exact runFor_of_le hfuel h
  | some limit => rfl

end Machine

end StackLisp
