import Mathlib.Data.List.Perm.Subperm
import StackLisp.Proofs.Arena.Walk
import StackLisp.Proofs.Machine.Roots

/-!
# What automatic collections bound

A machine counts the scopes that it allocates, and collects when the count reaches its threshold.
A `Watch` writes down what the machine does not remember: the machine as it was right after its
latest automatic collection, and the scopes that were allocated since.  Both are read off the
machines before and after a step (`step_allocation`).

Definitions allocate nothing, steps that fail change neither the scopes nor the count, and a
collection that the host asks for drops scopes without starting the count again.  So **the scopes
that were allocated since are as many as are counted**, which is less than the threshold, and all
other scopes were there at that moment (`Watch.Sound`).
-/

namespace StackLisp.Machine

/-! ## The scopes that a step allocates -/

/-- **What a step does to the scopes and the count**: nothing new, or one new scope that is counted,
or one with which the machine was full, so that it has collected. -/
inductive Allocation (m : Machine) : Machine → Prop
  | nothing {after : Machine} (hnext : after.arena.nextId = m.arena.nextId)
      (hcount : after.allocations = m.allocations)
      (hcontains : ∀ id, after.arena.contains id = true → m.arena.contains id = true) :
      Allocation m after
  | counted {after : Machine} (hnext : after.arena.nextId = m.arena.nextId + 1)
      (hcount : after.allocations = m.allocations + 1) (hlt : m.allocations + 1 < m.gcThreshold)
      (hcontains : ∀ id, after.arena.contains id = true →
        m.arena.contains id = true ∨ id = m.arena.nextId) :
      Allocation m after
  | collected {full : Machine} (hnext : full.arena.nextId = m.arena.nextId + 1)
      (hcount : full.allocations = 0) : Allocation m full.collectGarbage

variable {m after : Machine} {scope : ScopeId} {i : Instruction}

@[simp] theorem jump_allocations (offset : Int) : (m.jump offset).allocations = m.allocations := by
  unfold jump
  split <;> rfl

@[simp] theorem collectGarbage_nextId : m.collectGarbage.arena.nextId = m.arena.nextId := rfl

@[simp] theorem collectGarbage_allocations : m.collectGarbage.allocations = m.allocations := rfl

/-- **When an allocation is noted**, it is counted, or the machine collects. -/
theorem noteAllocation_cases (ht : 0 < m.gcThreshold) :
    m.allocations + 1 < m.gcThreshold ∧
        m.noteAllocation = { m with allocations := m.allocations + 1 } ∨
      m.noteAllocation = ({ m with allocations := 0 } : Machine).collectGarbage := by
  unfold noteAllocation
  simp only
  split
  · exact .inr rfl
  · exact .inl ⟨by omega, rfl⟩

theorem Allocation.refl (m : Machine) : Allocation m m :=
  .nothing rfl rfl fun _ hid => hid

theorem Called.allocation {args stack rest : List Value} {callee : Value}
    (h : m.Called args stack rest callee after) (ht : 0 < m.gcThreshold) : Allocation m after := by
  cases h with
  | primitive hp ha => exact .nothing rfl rfl fun _ hid => hid
  | @closure params body closed new bindings arena hb ha =>
    have hnext : arena.nextId = m.arena.nextId + 1 := (Arena.id_of_allocate ha).2.1
    have hchanged : m.arena.Changed closed arena := .allocated ha
    rcases noteAllocation_cases (m := { m with
      arena := arena
      stack := stack
      frames := ⟨body, 0, new⟩ :: m.frames }) ht with ⟨hlt, heq⟩ | heq
    · rw [heq]
      exact .counted hnext rfl hlt fun k hk => (hchanged.contains hk).imp id fun h => h.1.symm
    · rw [heq]
      exact .collected hnext rfl

theorem Effect.allocation (h : m.Effect scope i after) (ht : 0 < m.gcThreshold) :
    Allocation m after := by
  cases h with
  | define hs hd =>
    have hchanged : m.arena.Changed scope _ := .defined hd
    have hnext := Arena.nextId_of_define hd
    refine .nothing hnext rfl fun k hk => (hchanged.contains hk).resolve_right fun h => ?_
    exact absurd (hnext.symm.trans h.2) (Int.ne_of_lt (Int.lt_succ _))
  | call _ _ hc => exact hc.allocation ht
  | callAt _ _ hc => exact hc.allocation ht
  | apply _ _ hc => exact hc.allocation ht
  | jumpIfTruthy _ =>
    split
    · exact .refl m
    · exact .nothing (by simp) (by simp) (by simp)
  | jumpIfFalsy _ =>
    split
    · exact .nothing (by simp) (by simp) (by simp)
    · exact .nothing rfl rfl fun _ hid => hid
  | _ => exact .nothing rfl rfl fun _ hid => hid

/-- **Steps allocate one scope at most**, and none if they fail. -/
theorem step_allocation (m : Machine) (ht : 0 < m.gcThreshold) : Allocation m m.step.1 := by
  cases hfault : m.fault with
  | some fault =>
    rw [step_of_fault hfault]
    exact .refl m
  | none =>
    cases ha : m.advance with
    | error fault =>
      rw [step_of_error hfault ha]
      cases fault with
      | aboveStack => exact .nothing (by simp [failed]) (by simp [failed]) (by simp [failed])
      | _ => exact .nothing rfl rfl fun _ hid => hid
    | ok after =>
      rw [step_of_ok hfault ha]
      obtain ⟨f, frames, i, next, -, -, he, rfl⟩ := advance_eq_ok.mp ha
      cases he.allocation (by simpa using ht) with
      | nothing hnext hcount hcontains =>
        exact .nothing (by simpa using hnext) (by simpa using hcount) (by simpa using hcontains)
      | counted hnext hcount hlt hcontains =>
        exact .counted (by simpa using hnext) (by simpa using hcount) (by simpa using hlt)
          (by simpa using hcontains)
      | @collected full hnext hcount =>
        have hnext : full.arena.nextId = m.arena.nextId + 1 := by simpa using hnext
        exact @Allocation.collected m { full with steps := full.steps + 1 } hnext hcount

theorem gcThreshold_step (m : Machine) : m.step.1.gcThreshold = m.gcThreshold := by
  cases hfault : m.fault with
  | some fault => rw [step_of_fault hfault]
  | none =>
    cases ha : m.advance with
    | ok after =>
      rw [step_of_ok hfault ha]
      exact gcThreshold_of_advance ha
    | error fault =>
      rw [step_of_error hfault ha]
      cases fault <;> simp [failed]

/-! ## Watching a machine -/

/-- What a host does with a machine: it lets it take a step, or asks it to collect. -/
inductive HostAction where
  | step
  | collect

/-- **A machine under watch.** -/
structure Watch where
  machine : Machine
  /-- The machine right after its latest automatic collection, or else at first. -/
  since : Machine
  /-- The scopes that the machine has allocated since. -/
  allocated : List ScopeId

namespace Watch

/-- **What is written down**: a step that takes an id has allocated a scope, and has collected if
nothing is counted behind it. -/
def act (w : Watch) : HostAction → Watch
  | .step =>
    let after := w.machine.step.1
    if after.arena.nextId = w.machine.arena.nextId then { w with machine := after }
    else if after.allocations = 0 then ⟨after, after, []⟩
    else { w with machine := after, allocated := w.machine.arena.nextId :: w.allocated }
  | .collect => { w with machine := w.machine.collectGarbage }

/-- **A watch that bounds the scopes** of a machine that was `start` at first. -/
structure Sound (start : Machine) (w : Watch) : Prop where
  threshold : w.machine.gcThreshold = start.gcThreshold
  count : w.machine.allocations = w.allocated.length
  lt : w.allocated.length < start.gcThreshold
  arena : ∀ id, w.machine.arena.contains id = true →
    id ∈ w.allocated ∨ w.since.arena.contains id = true
  since : w.since = start ∨ ∃ full : Machine, w.since = full.collectGarbage

variable {start : Machine} {w : Watch}

/-- What the host does keeps the bounds. -/
theorem Sound.act (h : w.Sound start) (ht : 0 < start.gcThreshold) (action : HostAction) :
    (w.act action).Sound start := by
  cases action with
  | collect =>
    refine ⟨h.threshold, h.count, h.lt, fun id hid => h.arena id ?_, h.since⟩
    exact ((w.machine.arena.contains_collect _ _ id).mp hid).1
  | step =>
    have hne : ∀ id : ScopeId, id + 1 ≠ id := fun id => Int.ne_of_gt (Int.lt_succ id)
    have hthreshold := w.machine.gcThreshold_step.trans h.threshold
    have hstep := w.machine.step_allocation (h.threshold ▸ ht)
    unfold Watch.act
    simp only
    generalize w.machine.step.1 = after at hstep hthreshold
    cases hstep with
    | nothing hnext hcount hcontains =>
      rw [if_pos hnext]
      exact ⟨hthreshold, hcount.trans h.count, h.lt, fun id hid => h.arena id (hcontains id hid),
        h.since⟩
    | counted hnext hcount hlt hcontains =>
      rw [if_neg (hnext ▸ hne _), if_neg (by omega)]
      have hlength := h.count
      refine ⟨hthreshold, ?_, ?_, fun id hid => ?_, h.since⟩
      · simp only [List.length_cons]
        omega
      · rw [h.threshold] at hlt
        simp only [List.length_cons]
        omega
      · rcases hcontains id hid with hid | rfl
        · exact (h.arena id hid).imp (List.mem_cons_of_mem _) fun h => h
        · exact .inl List.mem_cons_self
    | @collected full hnext hcount =>
      rw [collectGarbage_nextId, if_neg (hnext ▸ hne _), collectGarbage_allocations, if_pos hcount]
      exact ⟨hthreshold, hcount, ht, fun id hid => .inr hid, .inr ⟨full, rfl⟩⟩

theorem Sound.foldl (h : w.Sound start) (ht : 0 < start.gcThreshold) (actions : List HostAction) :
    (actions.foldl Watch.act w).Sound start := by
  induction actions generalizing w with
  | nil => exact h
  | cons action actions ih => exact ih (h.act ht action)

/-- **The scopes are bounded** by those from that moment and those allocated since. -/
theorem Sound.size_le (h : w.Sound start) :
    w.machine.arena.size ≤ w.since.arena.size + w.allocated.length := by
  have hsub : w.machine.arena.ids ⊆ w.since.arena.ids ++ w.allocated := by
    intro id hid
    have hcontains := Arena.contains_iff.mpr (Arena.mem_ids.mp hid)
    rw [List.mem_append, or_comm]
    exact (h.arena id hcontains).imp_right fun h => Arena.mem_ids.mpr (Arena.contains_iff.mp h)
  have hnodup : w.machine.arena.ids.Nodup := Std.TreeMap.nodup_keys
  have hle := (hnodup.subperm hsub).length_le
  rwa [List.length_append, Arena.ids, Arena.ids, Std.TreeMap.length_keys,
    Std.TreeMap.length_keys] at hle

end Watch

/-! ## Bounds -/

/-- **Automatic collections bound the arena.**  Let a machine have counted nothing yet, and have a
threshold above zero.  However the host lets it take steps and asks it to collect, it has allocated
fewer scopes since its latest automatic collection than the threshold says.  All scopes were
allocated since or present at that moment, and those present right after a collection are those
that were reached then.  So there are never more scopes than at that moment and one less than the
threshold. -/
theorem threshold_bounds (start : Machine) (hcount : start.allocations = 0)
    (ht : 0 < start.gcThreshold) (actions : List HostAction) :
    let w := actions.foldl Watch.act ⟨start, start, []⟩
    w.allocated.length < start.gcThreshold ∧
    (∀ id, w.machine.arena.contains id = true →
      id ∈ w.allocated ∨ w.since.arena.contains id = true) ∧
    (w.since = start ∨ ∃ full : Machine, w.since = full.collectGarbage ∧
      ∀ id, w.since.arena.contains id = true ↔
        full.arena.contains id = true ∧ full.Reached id) ∧
    w.machine.arena.size ≤ w.since.arena.size + (start.gcThreshold - 1) := by
  intro w
  have hstart : Watch.Sound start ⟨start, start, []⟩ :=
    ⟨rfl, hcount, ht, fun id hid => .inr hid, .inl rfl⟩
  have hw : w.Sound start := hstart.foldl ht actions
  refine ⟨hw.lt, hw.arena, hw.since.imp_right ?_, ?_⟩
  · rintro ⟨full, hfull⟩
    refine ⟨full, hfull, fun id => ?_⟩
    rw [hfull]
    exact full.arena.contains_collect _ _ id
  · have hsize := hw.size_le
    have hlt := hw.lt
    omega

/-- The bounds in `((lambda (x) x) true)` with a threshold of two: the scope of the call is the one
that has been allocated, also when the host asks for a collection while the call lasts. -/
theorem threshold_bounds_call :
    let code : Code := [.pushConst (.template ⟨["x"], none⟩ [.lookup "x", .ret]), .makeClosure,
      .pushConst (.bool true), .call 1, .ret]
    let start := ofProgram code .empty 2
    let actions : List HostAction := [.step, .step, .step, .step, .collect, .step]
    start.allocations = 0 ∧ 0 < start.gcThreshold ∧
      ∃ w, w = actions.foldl Watch.act ⟨start, start, []⟩ ∧ w.allocated = [1] ∧
        w.allocated.length < start.gcThreshold ∧
        w.machine.arena.size ≤ w.since.arena.size + (start.gcThreshold - 1) := by
  intro code start actions
  have hcount : start.allocations = 0 := rfl
  have ht : 0 < start.gcThreshold := by decide
  have hone : (actions.foldl Watch.act ⟨start, start, []⟩).allocated = [1] := by decide +kernel
  obtain ⟨hlt, -, -, hsize⟩ := threshold_bounds start hcount ht actions
  exact ⟨hcount, ht, _, rfl, hone, hlt, hsize⟩

end StackLisp.Machine
