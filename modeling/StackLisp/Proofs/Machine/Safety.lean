import StackLisp.Proofs.Machine.Collection
import StackLisp.Proofs.Machine.Discipline

/-!
# What can go wrong

A frame runs in a scope that is present, and so are the parents of all scopes, since the
collector keeps both (`Machine.Rooted`).  So a look-up never meets a missing scope, and of the
faults that tell of a broken machine **only one is left to compiled code**
(`Machine.fault_of_compiled`): the call of a closure whose scope is missing.

In a well-formed arena, and without closures among its constants, a program does not do that
either (`Machine.fault_of_plain`).
-/

namespace StackLisp

/-- **The faults of programs**, as opposed to those of a broken machine. -/
def Fault.OfProgram (f : Fault) : Prop :=
  f.kind ≠ .internal ∧ f.kind ≠ .range

namespace Arena

/-- **An arena whose ways outwards are whole**: all parents are present and have smaller ids. -/
structure Rooted (a : Arena) : Prop where
  global : a.contains globalId = true
  parents : ∀ id s parent, a.get? id = some s → s.parent = some parent →
    parent < id ∧ a.contains parent = true
  fresh : ∀ id, a.contains id = true → id < a.nextId

variable {a b : Arena}

theorem WellFormed.rooted (h : a.WellFormed) : a.Rooted where
  global := h.global
  parents id s parent hs hp := ⟨h.parents id s parent hs hp, h.scopes id s hs parent (.inl hp)⟩
  fresh := h.fresh

section Only
variable {vars : Bindings} (hglobal : a.get? globalId = some ⟨vars, none⟩)
  (honly : ∀ id, a.contains id = true → id = globalId)
include hglobal honly

/-- Where there is only a global scope, every scope is that one. -/
theorem eq_of_only {id : ScopeId} {s : Scope} (hs : a.get? id = some s) :
    id = globalId ∧ s = ⟨vars, none⟩ := by
  obtain rfl := honly id (contains_iff.mpr ⟨s, hs⟩)
  exact ⟨rfl, Option.some.inj (hs.symm.trans hglobal)⟩

theorem rooted_of_only (hnext : globalId < a.nextId) : a.Rooted where
  global := contains_iff.mpr ⟨_, hglobal⟩
  parents id s parent hs hp := by
    obtain ⟨-, rfl⟩ := eq_of_only hglobal honly hs
    cases hp
  fresh id hid := honly id hid ▸ hnext

end Only

theorem rooted_ofGlobals (vars : Bindings) : (ofGlobals vars).Rooted :=
  rooted_of_only ((get?_ofGlobals vars _).trans (if_pos rfl)) (fun _ => only_ofGlobals) Int.zero_lt_one

namespace Rooted

/-- Definitions and allocations keep the ways outwards. -/
theorem changed (h : a.Rooted) {scope : ScopeId} (hc : a.Changed scope b) : b.Rooted := by
  refine ⟨hc.contains_of (.inl h.global), fun id s parent hs hp => ?_,
    fun id hid => hc.fresh h.fresh hid⟩
  rcases hc.get? hs with ⟨old, ho, heq⟩ | ⟨rfl, other, ho, hcontains⟩
  · obtain ⟨hlt, hparent⟩ := h.parents id old parent ho (heq ▸ hp)
    exact ⟨hlt, hc.contains_of (.inl hparent)⟩
  · cases ho.symm.trans hp
    exact ⟨h.fresh _ hcontains, hc.contains_of (.inl hcontains)⟩

/-- **Collections keep the ways outwards**, since with a scope they keep its parent. -/
theorem collect (h : a.Rooted) (roots : List ScopeId) (values : List Value) :
    (a.collect roots values).Rooted := by
  refine ⟨?_, fun id s parent hs hp => ?_, fun id hid => ?_⟩
  · rw [contains_iff, get?_collect_of_reached (.root (.inl rfl))]
    exact contains_iff.mp h.global
  · obtain ⟨hs, hreached⟩ := reached_of_get?_collect hs
    obtain ⟨hlt, hparent⟩ := h.parents id s parent hs hp
    refine ⟨hlt, ?_⟩
    rw [contains_iff, get?_collect_of_reached (hreached.step hs (.inl hp))]
    exact contains_iff.mp hparent
  · obtain ⟨s, hs⟩ := contains_iff.mp hid
    exact h.fresh id (contains_iff.mpr ⟨s, (reached_of_get?_collect hs).1⟩)

end Rooted

end Arena

namespace Machine

/-- **A machine whose ways outwards are whole**: its frames are in scopes that are present. -/
structure Rooted (m : Machine) : Prop where
  arena : m.arena.Rooted
  frames : ∀ f ∈ m.frames, m.arena.contains f.scope = true

variable {m after : Machine} {scope : ScopeId} {i : Instruction}

namespace Rooted

theorem jump (h : m.Rooted) (offset : Int) : (m.jump offset).Rooted := by
  unfold Machine.jump
  split
  · exact h
  · rename_i frame frames hf
    have hframes := h.frames
    rw [hf] at hframes
    exact ⟨h.arena, List.forall_mem_cons.mpr (List.forall_mem_cons.mp hframes)⟩

theorem congr (h : m.Rooted) (hf : after.frames = m.frames) (ha : after.arena = m.arena) :
    after.Rooted := by
  refine ⟨ha ▸ h.arena, ?_⟩
  rw [hf, ha]
  exact h.frames

theorem noteAllocation (h : m.Rooted) : m.noteAllocation.Rooted := by
  unfold Machine.noteAllocation
  simp only
  split
  · refine ⟨h.arena.collect _ _, fun f hf => ?_⟩
    have hreached : m.Reached f.scope := reached_frame hf
    obtain ⟨s, hs⟩ := Arena.contains_iff.mp (h.frames f hf)
    exact Arena.contains_iff.mpr ⟨s, (Arena.get?_collect_of_reached hreached).trans hs⟩
  · exact ⟨h.arena, h.frames⟩

theorem called (h : m.Rooted) {callee : Value} {args stack rest : List Value}
    (hc : m.Called args stack rest callee after) : after.Rooted := by
  cases hc with
  | @closure _ _ closed id _ arena hb ha =>
    have hchanged : m.arena.Changed closed arena := .allocated ha
    obtain ⟨rfl, hnext, -⟩ := Arena.id_of_allocate ha
    refine noteAllocation ⟨h.arena.changed hchanged, List.forall_mem_cons.mpr ⟨?_, fun f hf => ?_⟩⟩
    · exact hchanged.contains_of (.inr ⟨rfl, hnext ▸ Int.ne_of_gt (Int.lt_succ _)⟩)
    · exact hchanged.contains_of (.inl (h.frames f hf))
  | primitive hp ha => exact ⟨h.arena, h.frames⟩

/-- **Instructions keep the ways outwards.** -/
theorem effect (h : m.Rooted) (he : m.Effect scope i after) : after.Rooted := by
  cases he with
  | define hs hd =>
    have hchanged : m.arena.Changed scope _ := .defined hd
    exact ⟨h.arena.changed hchanged, fun f hf => hchanged.contains_of (.inl (h.frames f hf))⟩
  | jumpIfTruthy hs =>
    split
    · exact h
    · exact h.jump _
  | @jumpIfFalsy _ _ rest hs =>
    have hpop : ({ m with stack := rest } : Machine).Rooted := ⟨h.arena, h.frames⟩
    split
    · exact hpop.jump _
    · exact hpop
  | finish hf hs => exact ⟨h.arena, fun f hm => absurd hm List.not_mem_nil⟩
  | ret hf hs => exact ⟨h.arena, fun f hm => h.frames f (hf ▸ List.mem_cons_of_mem _ hm)⟩
  | call _ _ hc => exact h.called hc
  | callAt _ _ hc => exact h.called hc
  | apply _ _ hc => exact h.called hc
  | _ => exact ⟨h.arena, h.frames⟩

theorem advance (h : m.Rooted) (ha : m.advance = .ok after) : after.Rooted := by
  obtain ⟨frame, frames, i, next, hf, hi, he, rfl⟩ := advance_eq_ok.mp ha
  have hnext := (h.jump 1).effect he
  exact ⟨hnext.arena, hnext.frames⟩

/-- No look-up and no definition meets a missing scope. -/
theorem ne_missingScope (h : m.Rooted) (hscope : m.arena.contains scope = true) {fault : Fault}
    (hf : m.Fails scope i fault) (id : ScopeId) : fault ≠ .missingScope id := by
  have hdescending : m.arena.Descending fun id => m.arena.contains id = true :=
    fun id s parent _ hs hp => h.arena.parents id s parent hs hp
  have huncalled : ∀ {args callee}, m.Uncalled args callee fault → fault ≠ .missingScope id := by
    intro args callee hc
    cases hc with
    | arguments hb => exact bind_eq_wrongArguments hb ▸ nofun
    | primitive _ ha => rintro rfl; cases Fault.not_missing_of_apply ha
    | missingParent _ _ | notFunction _ _ => exact nofun
  cases hf with
  | lookup hf => exact absurd hf (Arena.find_ne_error hdescending (fun _ hk => hk) hscope)
  | missingScope hg =>
    obtain ⟨s, hs⟩ := Arena.contains_iff.mp hscope
    cases (Arena.get_eq_error.mp hg).1.symm.trans hs
  | ret hl => rintro rfl; cases Fault.not_missing_of_leave hl
  | call _ _ hc => exact huncalled hc
  | callAt _ _ hc => exact huncalled hc
  | callPrimitive _ _ _ ha => rintro rfl; cases Fault.not_missing_of_apply ha
  | apply _ _ hc => exact huncalled hc
  | _ => exact nofun

end Rooted

/-! ## All faults -/

theorem ofProgram_of_apply {p : Primitive} {args : List Value} {fault : Fault}
    (h : p.apply args = .error fault) : fault.OfProgram := by
  rcases Primitive.kind_of_apply h with hk | hk <;> rw [Fault.OfProgram, hk] <;> decide

/-- How a call fails: since a scope is missing, or by what the program does. -/
theorem Uncalled.sorted {args : List Value} {callee : Value} {fault : Fault}
    (h : m.Uncalled args callee fault) : fault.isMissing = true ∨ fault.OfProgram := by
  cases h with
  | arguments hb => exact .inr (bind_eq_wrongArguments hb ▸ ⟨nofun, nofun⟩)
  | missingParent _ _ => exact .inl rfl
  | primitive _ ha => exact .inr (ofProgram_of_apply ha)
  | notFunction _ _ => exact .inr ⟨nofun, nofun⟩

/-- **How an instruction fails**: by broken code or a broken stack, since a scope is missing, or by
what the program does. -/
theorem Fails.sorted {fault : Fault} (h : m.Fails scope i fault) :
    fault.isBroken = true ∨ fault.isMissing = true ∨ fault.OfProgram := by
  cases h with
  | lookup hf =>
    obtain ⟨k, rfl⟩ := Arena.missingScope_of_find hf
    exact .inr (.inl rfl)
  | unbound _ _ => exact .inr (.inr ⟨nofun, nofun⟩)
  | missingScope hg =>
    obtain rfl := (Arena.get_eq_error.mp hg).2
    exact .inr (.inl rfl)
  | ret hl =>
    obtain rfl | rfl | ⟨callee, rfl⟩ := fault_of_leave hl <;> exact .inl rfl
  | call _ _ hc => exact .inr hc.sorted
  | callAt _ _ hc => exact .inr hc.sorted
  | callPrimitive _ _ _ ha => exact .inr (.inr (ofProgram_of_apply ha))
  | notArguments _ _ => exact .inr (.inr ⟨nofun, nofun⟩)
  | apply _ _ hc => exact .inr hc.sorted
  | _ => exact .inl rfl

/-! ## Programs -/

section Programs
variable {code : Code} {arena : Arena} {threshold : Int} {n : Nat} {fault : Fault}

theorem rooted_ofProgram (hr : arena.Rooted) (code : Code) (threshold : Int) :
    (ofProgram code arena threshold).Rooted :=
  ⟨hr, fun _ hf => List.mem_singleton.mp hf ▸ hr.global⟩

theorem rooted_of_steps (hr : arena.Rooted) (h : Steps n (ofProgram code arena threshold) m) :
    m.Rooted :=
  h.induction (fun _ _ hq ha => hq.advance ha) (rooted_ofProgram hr code threshold)

/-- **Of the faults of a broken machine, compiled code has one**: the call of a closure whose scope
is missing. -/
theorem fault_of_compiled (hc : Code.Compiled code) (ha : arena.Compiled) (hr : arena.Rooted)
    (h : Steps n (ofProgram code arena threshold) m) (hh : m.halted = false)
    (hf : m.advance = .error fault) : fault.OfProgram ∨ ∃ id, fault = .missingParent id := by
  have hbroken := ((settled_of_steps hc ha h).not_broken hf).1
  have hrooted := rooted_of_steps hr h
  rcases advance_eq_error.mp hf with ⟨hnone, -⟩ | ⟨f, frames, hframes, he | ⟨i, hi, hfails⟩⟩
  · simp [halted, hnone] at hh
  · obtain rfl | rfl := fault_of_fetch he <;> cases hbroken
  · rcases hfails.sorted with hb | hm | hp
    · cases hbroken.symm.trans hb
    · have hscope := hrooted.frames f (hframes ▸ List.mem_cons_self)
      have hne := (hrooted.jump 1).ne_missingScope ((jump_arena 1).symm ▸ hscope) hfails
      cases fault with
      | missingScope id => exact absurd rfl (hne id)
      | missingParent id => exact .inr ⟨id, rfl⟩
      | _ => cases hm
    · exact .inl hp

/-- A machine that never collects goes along with a program of plain code in a well-formed arena,
and no scope is missing there. -/
theorem reference_of_steps (hw : arena.WellFormed) (hc : Code.Plain code)
    (hs : ∀ id s, arena.get? id = some s → ∀ v ∈ s.vars.values, v.Sealed)
    (h : Steps n (ofProgram code arena threshold) m) :
    ∃ ref : Machine, ref.Reference m ∧ ref.Present := by
  have hsealed : (ofProgram code arena 0).Sealed :=
    ⟨fun _ hv => absurd hv List.not_mem_nil, fun _ hf => List.mem_singleton.mp hf ▸ hc,
      fun id s _ hget => hs id s hget⟩
  have hwf := wellFormed_ofProgram hw code 0
  have hstart : (ofProgram code arena 0).Reference (ofProgram code arena threshold) :=
    ⟨⟨arena, threshold, 0, rfl, rfl, fun _ _ => rfl⟩, hwf.whole hsealed, rfl⟩
  have key := h.induction
    (Q := fun m => m.fault = none ∧ ∃ ref : Machine, ref.Reference m ∧ ref.Present)
    (fun m next hq hadv => ?_) ⟨rfl, _, hstart, hwf.present hsealed⟩
  · exact key.2
  · obtain ⟨hfault, ref, href, hp⟩ := hq
    obtain ⟨hnext, -⟩ := href.step
    rw [step_of_ok hfault hadv] at hnext
    exact ⟨(fault_of_advance hadv).trans hfault, _, hnext, (hp.step href.whole href.zero).1⟩

/-- **Plain code in a well-formed arena fails by what the program does**, and in no other way. -/
theorem fault_of_plain (hc : Code.Compiled code) (hp : Code.Plain code) (ha : arena.Compiled)
    (hw : arena.WellFormed) (hs : ∀ id s, arena.get? id = some s → ∀ v ∈ s.vars.values, v.Sealed)
    (h : Steps n (ofProgram code arena threshold) m) (hh : m.halted = false)
    (hf : m.advance = .error fault) : fault.OfProgram := by
  rcases fault_of_compiled hc ha hw.rooted h hh hf with hprogram | ⟨id, rfl⟩
  · exact hprogram
  · exfalso
    obtain ⟨ref, href, hpresent⟩ := reference_of_steps hw hp hs h
    have hfault : m.fault = none := h.fault_eq
    have hstep := href.step.2
    rw [step_of_error hfault hf] at hstep
    have hbefore := (hpresent.step href.whole href.zero).2 _ (.inl hstep.symm) rfl
    obtain ⟨⟨a, k, count, rfl, -⟩, -, -⟩ := href
    cases hfault.symm.trans hbefore

/-- What such a program leaves: sealed values, and a well-formed arena. -/
theorem Reference.wellFormed_collectGarbage {ref : Machine} (h : ref.Reference m)
    (hp : ref.Present) :
    (∀ v ∈ m.stack, v.Sealed) ∧ m.collectGarbage.arena.WellFormed ∧
      ∀ id s, m.collectGarbage.arena.get? id = some s → ∀ v ∈ s.vars.values, v.Sealed := by
  have hget := h.agrees.get?_collectGarbage
  obtain ⟨⟨a, threshold, count, rfl, hsame⟩, hwhole, -⟩ := h
  have hkept : ∀ id, ref.Reached id →
      ((ref.withArena a threshold count).collectGarbage.arena).contains id = true := by
    intro id hid
    rw [Arena.contains_iff, hget, collectGarbage, Arena.get?_collect_of_reached hid]
    exact Arena.contains_iff.mp (hp id hid)
  refine ⟨hwhole.sealed.stack, ⟨hkept _ (reached_global ref), fun id s hs next hl => ?_,
    fun id s parent hs hparent => ?_, fun id hid => ?_⟩, fun id s hs => ?_⟩
  · obtain ⟨hs, hid⟩ := Arena.reached_of_get?_collect ((hget id).symm.trans hs)
    exact hkept next (hid.step hs hl)
  · obtain ⟨hs, hid⟩ := Arena.reached_of_get?_collect ((hget id).symm.trans hs)
    exact (hwhole.descending id s parent hid hs hparent).1
  · obtain ⟨s, hs⟩ := Arena.contains_iff.mp hid
    obtain ⟨hs, -⟩ := Arena.reached_of_get?_collect ((hget id).symm.trans hs)
    exact hsame.nextId ▸ hwhole.fresh id (Arena.contains_iff.mpr ⟨s, hs⟩)
  · obtain ⟨hs, hid⟩ := Arena.reached_of_get?_collect ((hget id).symm.trans hs)
    exact hwhole.sealed.scopes id s hid hs

end Programs

end Machine

end StackLisp
