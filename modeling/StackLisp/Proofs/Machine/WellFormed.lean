import StackLisp.Proofs.Machine.Failure
import StackLisp.Proofs.Machine.Kept

/-!
# Machines without missing scopes

A machine is **well-formed** if no scope is missing that it holds the id of
(`Machine.WellFormed`), and **sealed** if no closure is among the constants of its code
(`Machine.Sealed`).

An instruction reaches what was reached before it, and at most one new scope
(`Whole.mayReach`).  So as long as nothing is collected, **whatever is reached is present and
stays so** (`Present.effect`), and no instruction fails since a scope is missing
(`Whole.not_missing`).
-/

namespace StackLisp

namespace Fault

/-- The faults of scopes that are missing. -/
def isMissing : Fault → Bool
  | .missingScope _ | .missingParent _ => true
  | _ => false

theorem not_missing_of_apply {p : Primitive} {args : List Value} {fault : Fault}
    (h : p.apply args = .error fault) : fault.isMissing = false := by
  rcases Primitive.kind_of_apply h with hk | hk <;> cases fault <;> first | rfl | cases hk

theorem not_missing_of_leave {m : Machine} {fault : Fault} (h : m.leave = .error fault) :
    fault.isMissing = false := by
  obtain rfl | rfl | ⟨callee, rfl⟩ := Machine.fault_of_leave h <;> rfl

end Fault

/-- **An arena that holds no id of a missing scope.**  All parents and all scopes that values hold
are present.  Parents have smaller ids, the next id is above all ids, and the global scope is
present, as in every arena. -/
structure Arena.WellFormed (a : Arena) : Prop where
  global : a.contains Arena.globalId = true
  scopes : ∀ id s, a.get? id = some s → ∀ next, s.LeadsTo next → a.contains next = true
  parents : ∀ id s parent, a.get? id = some s → s.parent = some parent → parent < id
  fresh : ∀ id, a.contains id = true → id < a.nextId

namespace Machine

/-- The scopes that a machine can reach. -/
def Reached (m : Machine) : ScopeId → Prop :=
  m.arena.Reached (Arena.IsRoot (m.frames.map (·.scope)) m.rootValues)

/-- **A machine that holds no id of a missing scope**: those of its frames and those that values
hold are present. -/
structure WellFormed (m : Machine) : Prop where
  arena : m.arena.WellFormed
  frames : ∀ f ∈ m.frames, m.arena.contains f.scope = true
  stack : ∀ v ∈ m.stack, ∀ id, v.Holds id → m.arena.contains id = true

/-- **A machine without closures among its constants**: those of its frames, and of the functions
on its stack and in the scopes that it can reach. -/
structure Sealed (m : Machine) : Prop where
  stack : ∀ v ∈ m.stack, v.Sealed
  frames : ∀ f ∈ m.frames, Code.Plain f.code
  scopes : ∀ id s, m.Reached id → m.arena.get? id = some s → ∀ v ∈ s.vars.values, v.Sealed

/-- What carries over from step to step, whether scopes are missing or not. -/
structure Whole (m : Machine) : Prop where
  descending : m.arena.Descending m.Reached
  sealed : m.Sealed
  fresh : ∀ id, m.arena.contains id = true → id < m.arena.nextId

/-- No scope is missing of those that a machine reaches. -/
def Present (m : Machine) : Prop :=
  ∀ id, m.Reached id → m.arena.contains id = true

variable {m after : Machine} {scope : ScopeId}

/-! ## What is reached -/

theorem reached_global (m : Machine) : m.Reached Arena.globalId :=
  .root (.inl rfl)

theorem reached_frame {f : Frame} (h : f ∈ m.frames) : m.Reached f.scope :=
  .root (.inr (.inl (List.mem_map_of_mem h)))

theorem reached_stack {v : Value} (h : v ∈ m.stack) {id : ScopeId} (hid : v.Holds id) :
    m.Reached id :=
  .root (.inr (.inr ⟨v, List.mem_append_left _ h, hid⟩))

/-- A closure that code pushes is one of its constants. -/
theorem mem_of_closureConstants {code : Code} {v : Value} (h : v ∈ closureConstants code) :
    Instruction.pushConst v ∈ code := by
  obtain ⟨i, hi, hv⟩ := List.mem_filterMap.mp h
  split at hv
  · cases hv
    exact hi
  · cases hv

/-- **What is reached stays within a property** that the frames, the values and the scopes
keep. -/
theorem All.reached {S : ScopeId → Prop} {P : Value → Prop} {Q : Code → Prop} (h : m.All S P Q)
    (hP : Kept S P Q) (hheld : ∀ v, P v → ∀ id, v.Holds id → S id) (hglobal : S Arena.globalId)
    {id : ScopeId} (hid : m.Reached id) : S id := by
  induction hid with
  | root hr =>
    rcases hr with rfl | hr | ⟨v, hv, hid⟩
    · exact hglobal
    · obtain ⟨f, hf, rfl⟩ := List.mem_map.mp hr
      exact (h.frames f hf).1
    · refine hheld v ?_ _ hid
      rcases List.mem_append.mp hv with hv | hv
      · exact h.stack v hv
      · obtain ⟨f, hf, hv⟩ := List.mem_flatMap.mp hv
        exact hP.constant (h.frames f hf).2 (mem_of_closureConstants hv)
  | step _ hs hl ih =>
    obtain ⟨hvars, hparent⟩ := h.arena _ _ ih hs
    rcases hl with hl | ⟨v, hv, hid⟩
    · exact hparent _ hl
    · exact hheld v (hvars v hv) _ hid

end Machine

/-- A plain value holds no scope. -/
theorem Value.Plain.not_holds {v : Value} (h : v.Plain) (id : ScopeId) : ¬ v.Holds id := by
  intro hid
  induction hid with
  | closure params code => cases h
  | quoted _ ih =>
    cases h
    exact ih ‹_›
  | head _ ih | tail _ ih =>
    cases h
    exact ih ‹_›

theorem Arena.get?_ofGlobals (vars : Bindings) (id : ScopeId) :
    (Arena.ofGlobals vars).get? id = if id = Arena.globalId then some ⟨vars, none⟩ else none := by
  simp only [Arena.ofGlobals, Arena.get?, Std.TreeMap.getElem?_insert]
  by_cases h : id = Arena.globalId
  · simp [h]
  · simp [h, Ne.symm h]

theorem Arena.eq_of_get?_ofGlobals {vars : Bindings} {id : ScopeId} {s : Scope}
    (h : (Arena.ofGlobals vars).get? id = some s) : id = Arena.globalId ∧ s = ⟨vars, none⟩ := by
  rw [Arena.get?_ofGlobals] at h
  split at h <;> cases h
  exact ⟨‹_›, rfl⟩

theorem Arena.contains_ofGlobals (vars : Bindings) :
    (Arena.ofGlobals vars).contains Arena.globalId = true :=
  Arena.contains_iff.mpr ⟨_, (Arena.get?_ofGlobals vars _).trans (if_pos rfl)⟩

theorem Arena.only_ofGlobals {vars : Bindings} {id : ScopeId}
    (h : (Arena.ofGlobals vars).contains id = true) : id = Arena.globalId := by
  obtain ⟨s, hs⟩ := Arena.contains_iff.mp h
  exact (Arena.eq_of_get?_ofGlobals hs).1

theorem Arena.fresh_ofGlobals {vars : Bindings} {id : ScopeId}
    (h : (Arena.ofGlobals vars).contains id = true) : id < (Arena.ofGlobals vars).nextId := by
  obtain rfl := Arena.only_ofGlobals h
  exact Int.lt_succ 0

/-- An arena of plain values is well-formed. -/
theorem Arena.wellFormed_ofGlobals {vars : Bindings} (h : ∀ v ∈ vars.values, v.Plain) :
    (Arena.ofGlobals vars).WellFormed := by
  refine ⟨Arena.contains_ofGlobals vars, fun id s hs next hl => ?_, fun id s parent hs hp => ?_,
    fun id hid => Arena.fresh_ofGlobals hid⟩
  · obtain ⟨rfl, rfl⟩ := Arena.eq_of_get?_ofGlobals hs
    rcases hl with hl | ⟨v, hv, hid⟩
    · cases hl
    · exact absurd hid ((h v hv).not_holds next)
  · obtain ⟨rfl, rfl⟩ := Arena.eq_of_get?_ofGlobals hs
    cases hp

/-- Computing keeps sealed values that hold scopes of a given kind. -/
theorem Value.Sealed.kept (S : ScopeId → Prop) :
    Machine.Kept S (fun v => v.Sealed ∧ ∀ id, v.Holds id → S id) Code.Plain where
  nil := ⟨.nil, nofun⟩
  bool b := ⟨.bool b, nofun⟩
  number x := ⟨.number x, nofun⟩
  text s := ⟨.text s, nofun⟩
  symbol name := ⟨.symbol name, nofun⟩
  pair := by
    intro head tail loc
    constructor
    · rintro ⟨hs, hh⟩
      cases hs with
      | pair hhead htail =>
        exact ⟨⟨hhead, fun id h => hh id (.head h)⟩, ⟨htail, fun id h => hh id (.tail h)⟩⟩
    · rintro ⟨⟨hhead, hh⟩, ⟨htail, ht⟩⟩
      refine ⟨.pair hhead htail, fun id h => ?_⟩
      cases h with
      | head h => exact hh id h
      | tail h => exact ht id h
  closure := by
    rintro params code scope hscope ⟨hs, -⟩
    cases hs with
    | template h =>
      refine ⟨.closure h, fun id hid => ?_⟩
      cases hid
      exact hscope
  scope h := h.2 _ (.closure _ _)
  code := by
    rintro params code scope ⟨hs, -⟩
    cases hs
    assumption
  constant h hv := ⟨(h _ hv).sealed, fun id hid => absurd hid ((h _ hv).not_holds id)⟩

namespace Machine
variable {m after : Machine} {scope : ScopeId}

/-- A program in a well-formed arena. -/
theorem wellFormed_ofProgram {a : Arena} (h : a.WellFormed) (code : Code) (threshold : Int) :
    (ofProgram code a threshold).WellFormed where
  arena := h
  frames := fun _ hf => List.mem_singleton.mp hf ▸ h.global
  stack := fun _ hv => absurd hv List.not_mem_nil

theorem WellFormed.whole (h : m.WellFormed) (hs : m.Sealed) : m.Whole where
  descending id s parent hid hs hp := ⟨h.arena.parents id s parent hs hp, hid.step hs (.inl hp)⟩
  sealed := hs
  fresh := h.arena.fresh

theorem WellFormed.present (h : m.WellFormed) (hs : m.Sealed) : m.Present := by
  intro id hid
  cases hid with
  | root hr =>
    rcases hr with rfl | hr | ⟨v, hv, hid⟩
    · exact h.arena.global
    · obtain ⟨f, hf, rfl⟩ := List.mem_map.mp hr
      exact h.frames f hf
    · rcases List.mem_append.mp hv with hv | hv
      · exact h.stack v hv id hid
      · obtain ⟨f, hf, hv⟩ := List.mem_flatMap.mp hv
        have hplain := hs.frames f hf v (mem_of_closureConstants hv)
        exact absurd hid (hplain.not_holds id)
  | step _ hs hl => exact h.arena.scopes _ _ hs id hl

end Machine

/-! ## Without collections -/

/-- What an instruction does to an arena. -/
inductive Arena.Changed (scope : ScopeId) (a : Arena) : Arena → Prop
  | same : Arena.Changed scope a a
  | defined {name : String} {v : Value} {b : Arena} (h : a.define scope name v = .ok b) :
      Arena.Changed scope a b
  | allocated {vars : Bindings} {parent id : ScopeId} {b : Arena}
      (h : a.allocate vars parent = .ok (id, b)) : Arena.Changed scope a b

namespace Arena.Changed
variable {scope : ScopeId} {a b : Arena}

/-- A scope has the parent that it had before, or it is new and below one that was present. -/
theorem get? (h : a.Changed scope b) {id : ScopeId} {t : Scope} (ht : b.get? id = some t) :
    (∃ s, a.get? id = some s ∧ t.parent = s.parent) ∨
      id = a.nextId ∧ ∃ parent, t.parent = some parent ∧ a.contains parent = true := by
  cases h with
  | same => exact .inl ⟨t, ht, rfl⟩
  | defined h =>
    rw [get?_define h, Option.map_eq_some_iff] at ht
    obtain ⟨s, hs, rfl⟩ := ht
    exact .inl ⟨s, hs, by split <;> rfl⟩
  | allocated h =>
    rw [get?_allocate h] at ht
    split at ht
    · cases ht
      exact .inr ⟨Eq.symm ‹_›, _, rfl, (id_of_allocate h).2.2⟩
    · exact .inl ⟨t, ht, rfl⟩

/-- No scope goes away, and a new id is that of a new scope. -/
theorem contains_of (h : a.Changed scope b) {id : ScopeId}
    (hid : a.contains id = true ∨ id = a.nextId ∧ b.nextId ≠ a.nextId) :
    b.contains id = true := by
  cases h with
  | same =>
    rcases hid with hid | ⟨-, hne⟩
    · exact hid
    · exact absurd rfl hne
  | defined h =>
    rcases hid with hid | ⟨-, hne⟩
    · obtain ⟨s, hs⟩ := contains_iff.mp hid
      rw [contains_iff, get?_define h, hs]
      exact ⟨_, rfl⟩
    · exact absurd (nextId_of_define h) hne
  | allocated h =>
    rw [contains_iff, get?_allocate h]
    split
    · exact ⟨_, rfl⟩
    · rcases hid with hid | ⟨rfl, -⟩
      · exact contains_iff.mp hid
      · exact absurd rfl ‹_›

theorem contains (h : a.Changed scope b) {id : ScopeId} (hid : b.contains id = true) :
    a.contains id = true ∨ a.nextId = id ∧ b.nextId = a.nextId + 1 := by
  cases h with
  | same => exact .inl hid
  | defined h =>
    obtain ⟨s, hs⟩ := contains_iff.mp hid
    rw [get?_define h, Option.map_eq_some_iff] at hs
    obtain ⟨t, ht, -⟩ := hs
    exact .inl (contains_iff.mpr ⟨t, ht⟩)
  | allocated h =>
    obtain ⟨s, hs⟩ := contains_iff.mp hid
    rw [get?_allocate h] at hs
    split at hs
    · exact .inr ⟨‹_›, (id_of_allocate h).2.1⟩
    · exact .inl (contains_iff.mpr ⟨s, hs⟩)

theorem nextId (h : a.Changed scope b) : b.nextId = a.nextId ∨ b.nextId = a.nextId + 1 := by
  cases h with
  | same => exact .inl rfl
  | defined h => exact .inl (nextId_of_define h)
  | allocated h => exact .inr (id_of_allocate h).2.1

/-- The next id stays above all ids. -/
theorem fresh (h : a.Changed scope b) (ha : ∀ id, a.contains id = true → id < a.nextId)
    {id : ScopeId} (hid : b.contains id = true) : id < b.nextId := by
  rcases h.contains hid with hid | ⟨rfl, hnext⟩
  · have := ha id hid
    rcases h.nextId with hnext | hnext <;> rw [hnext]
    · exact this
    · exact Int.lt_trans this (Int.lt_succ _)
  · rw [hnext]
    exact Int.lt_succ _

end Arena.Changed

namespace Machine
variable {m after : Machine} {scope : ScopeId} {i : Instruction}

theorem Called.changed {args stack rest : List Value} {callee : Value} (h0 : m.gcThreshold = 0)
    (h : m.Called args stack rest callee after) : m.arena.Changed scope after.arena := by
  cases h with
  | closure hb ha =>
    rw [noteAllocation_of_zero (by exact h0)]
    exact .allocated ha
  | primitive hp ha => exact .same

theorem Effect.changed (h0 : m.gcThreshold = 0) (h : m.Effect scope i after) :
    m.arena.Changed scope after.arena := by
  cases h with
  | define hs hd => exact .defined hd
  | call _ _ hc => exact hc.changed h0
  | callAt _ _ hc => exact hc.changed h0
  | apply _ _ hc => exact hc.changed h0
  | jumpIfTruthy _ =>
    split
    · exact .same
    · rw [jump_arena]
      exact .same
  | jumpIfFalsy _ =>
    split
    · rw [jump_arena]
      exact .same
    · exact .same
  | _ => exact .same

/-- The scopes that can be reached after an instruction: those that were reached before, and the
new one if there is one. -/
def MayReach (m : Machine) (b : Arena) (id : ScopeId) : Prop :=
  m.Reached id ∨ id = m.arena.nextId ∧ b.nextId ≠ m.arena.nextId

/-- Values of a machine that hold such scopes. -/
def MayHold (m : Machine) (b : Arena) (v : Value) : Prop :=
  v.Sealed ∧ ∀ id, v.Holds id → m.MayReach b id

theorem Whole.all (h : m.Whole) (b : Arena) : m.All (m.MayReach b) (m.MayHold b) Code.Plain where
  stack v hv := ⟨h.sealed.stack v hv, fun id hid => .inl (reached_stack hv hid)⟩
  arena := by
    rintro id s (hid | ⟨rfl, -⟩) hs
    · exact ⟨fun v hv => ⟨h.sealed.scopes id s hid hs v hv, fun k hk =>
        .inl (hid.step hs (.inr ⟨v, hv, hk⟩))⟩, fun parent hp => .inl (hid.step hs (.inl hp))⟩
    · exact absurd (h.fresh _ (Arena.contains_iff.mpr ⟨s, hs⟩)) (Int.lt_irrefl _)
  frames f hf := ⟨.inl (reached_frame hf), h.sealed.frames f hf⟩

/-- **An instruction reaches nothing but what was reached**, and perhaps one new scope. -/
theorem Whole.mayReach (h : m.Whole) (hscope : m.Reached scope)
    (hi : ∀ v, i = .pushConst v → v.Plain) (he : m.Effect scope i after) :
    after.All (m.MayReach after.arena) (m.MayHold after.arena) Code.Plain ∧
      ∀ id, after.Reached id → m.MayReach after.arena id := by
  have hall := (h.all after.arena).effect (Value.Sealed.kept _) (.inl hscope)
    (fun v hv => ⟨(hi v hv).sealed, fun id hid => absurd hid ((hi v hv).not_holds id)⟩)
    (fun hne => .inr ⟨rfl, hne⟩) he
  exact ⟨hall, fun id hid => hall.reached (Value.Sealed.kept _) (fun _ hv => hv.2)
    (.inl (reached_global m)) hid⟩

theorem Whole.effect (h : m.Whole) (h0 : m.gcThreshold = 0) (hscope : m.Reached scope)
    (hi : ∀ v, i = .pushConst v → v.Plain) (he : m.Effect scope i after) : after.Whole := by
  have hchanged := he.changed h0
  obtain ⟨hall, hreached⟩ := h.mayReach hscope hi he
  refine ⟨fun id s parent hid hs hp => ⟨?_, hid.step hs (.inl hp)⟩,
    ⟨fun v hv => (hall.stack v hv).1, fun f hf => (hall.frames f hf).2,
      fun id s hid hs v hv => ((hall.arena id s (hreached id hid) hs).1 v hv).1⟩,
    fun id hid => hchanged.fresh h.fresh hid⟩
  rcases hchanged.get? hs with ⟨old, ho, heq⟩ | ⟨rfl, other, ho, hcontains⟩
  · rcases hreached id hid with hid | ⟨rfl, -⟩
    · exact (h.descending id old parent hid ho (heq ▸ hp)).1
    · exact absurd (h.fresh _ (Arena.contains_iff.mpr ⟨old, ho⟩)) (Int.lt_irrefl _)
  · cases ho.symm.trans hp
    exact h.fresh _ hcontains

/-- **Without collections, nothing that is reached goes missing.** -/
theorem Present.effect (hp : m.Present) (h : m.Whole) (h0 : m.gcThreshold = 0)
    (hscope : m.Reached scope) (hi : ∀ v, i = .pushConst v → v.Plain)
    (he : m.Effect scope i after) : after.Present := by
  intro id hid
  refine (he.changed h0).contains_of ?_
  rcases (h.mayReach hscope hi he).2 id hid with hid | hnew
  · exact .inl (hp id hid)
  · exact .inr hnew

theorem Present.uncalled (hp : m.Present) {callee : Value} {args : List Value} {fault : Fault}
    (hcallee : ∀ id, callee.Holds id → m.Reached id) (hc : m.Uncalled args callee fault) :
    fault.isMissing = false := by
  cases hc with
  | arguments hb => exact bind_eq_wrongArguments hb ▸ rfl
  | @missingParent _ _ closed _ hb ha =>
    cases ha.symm.trans (hp closed (hcallee closed (.closure _ _)))
  | primitive _ ha => exact Fault.not_missing_of_apply ha
  | notFunction _ _ => rfl

/-- **Where nothing is missing that is reached, no instruction fails since a scope is missing.** -/
theorem Present.not_missing (hp : m.Present) (h : m.Whole) (hscope : m.Reached scope)
    {fault : Fault} (hf : m.Fails scope i fault) : fault.isMissing = false := by
  have hheld : ∀ v ∈ m.stack, ∀ id, v.Holds id → m.Reached id :=
    fun v hv id hid => reached_stack hv hid
  cases hf with
  | lookup hf => exact absurd hf (Arena.find_ne_error h.descending hp hscope)
  | missingScope hg =>
    obtain ⟨s, hs⟩ := Arena.contains_iff.mp (hp scope hscope)
    cases (Arena.get_eq_error.mp hg).1.symm.trans hs
  | ret hl => exact Fault.not_missing_of_leave hl
  | call hs _ hc => exact hp.uncalled (hheld _ (by simp [hs])) hc
  | callAt _ hat hc =>
    exact hp.uncalled (hheld _ (List.mem_reverse.mp (List.mem_of_getElem? hat))) hc
  | callPrimitive _ _ _ ha => exact Fault.not_missing_of_apply ha
  | apply hs _ hc => exact hp.uncalled (hheld _ (by simp [hs])) hc
  | _ => rfl

/-! ## Steps -/

theorem code_of_mem_jump {offset : Int} {f : Frame} (h : f ∈ (m.jump offset).frames) :
    ∃ g ∈ m.frames, g.code = f.code := by
  unfold jump at h
  split at h
  · exact ⟨f, h, rfl⟩
  · rename_i g frames hf
    rw [hf]
    rcases List.mem_cons.mp h with rfl | h
    · exact ⟨g, List.mem_cons_self, rfl⟩
    · exact ⟨f, List.mem_cons_of_mem _ h, rfl⟩

/-- Where a frame is in its code does not matter to what is reached. -/
theorem reached_jump (m : Machine) (offset : Int) : (m.jump offset).Reached = m.Reached := by
  unfold jump
  split
  · rfl
  · rename_i f frames hf
    simp only [Reached, rootValues, hf, List.map_cons, List.flatMap_cons]

theorem Whole.jump (h : m.Whole) (offset : Int) : (m.jump offset).Whole := by
  have hreached := reached_jump m offset
  refine ⟨?_, ⟨?_, fun f hf => ?_, ?_⟩, ?_⟩
  · rw [hreached, jump_arena]
    exact h.descending
  · rw [jump_stack]
    exact h.sealed.stack
  · obtain ⟨g, hg, hcode⟩ := code_of_mem_jump hf
    exact hcode ▸ h.sealed.frames g hg
  · rw [hreached, jump_arena]
    exact h.sealed.scopes
  · rw [jump_arena]
    exact h.fresh

theorem Present.jump (h : m.Present) (offset : Int) : (m.jump offset).Present := by
  unfold Present
  rw [reached_jump, jump_arena]
  exact h

/-- What an instruction finds that the innermost frame points at. -/
theorem Whole.fetched (h : m.Whole) {f : Frame} {frames : List Frame}
    (hf : m.frames = f :: frames) (hi : fetch f = .ok i) :
    (m.jump 1).Reached f.scope ∧ ∀ v, i = .pushConst v → v.Plain := by
  have hmem : f ∈ m.frames := hf ▸ List.mem_cons_self
  refine ⟨reached_jump m 1 ▸ reached_frame hmem, ?_⟩
  rintro v rfl
  exact h.sealed.frames f hmem v (mem_of_fetch hi)

theorem Whole.advance (h : m.Whole) (h0 : m.gcThreshold = 0) (ha : m.advance = .ok after) :
    after.Whole := by
  obtain ⟨f, frames, i, next, hf, hi, he, rfl⟩ := advance_eq_ok.mp ha
  obtain ⟨hscope, hplain⟩ := h.fetched hf hi
  have hnext := (h.jump 1).effect ((jump_gcThreshold 1).trans h0) hscope hplain he
  exact ⟨hnext.descending, ⟨hnext.sealed.stack, hnext.sealed.frames, hnext.sealed.scopes⟩,
    hnext.fresh⟩

theorem Present.advance (hp : m.Present) (h : m.Whole) (h0 : m.gcThreshold = 0)
    (ha : m.advance = .ok after) : after.Present := by
  obtain ⟨f, frames, i, next, hf, hi, he, rfl⟩ := advance_eq_ok.mp ha
  obtain ⟨hscope, hplain⟩ := h.fetched hf hi
  have hnext := (hp.jump 1).effect (h.jump 1) ((jump_gcThreshold 1).trans h0) hscope hplain he
  exact hnext

/-- **No step fails since a scope is missing.** -/
theorem Present.advance_error (hp : m.Present) (h : m.Whole) {fault : Fault}
    (ha : m.advance = .error fault) : fault.isMissing = false := by
  rcases advance_eq_error.mp ha with ⟨-, rfl⟩ | ⟨f, frames, hf, ha | ⟨i, hi, hfails⟩⟩
  · rfl
  · obtain rfl | rfl := fault_of_fetch ha <;> rfl
  · exact (hp.jump 1).not_missing (h.jump 1) (h.fetched hf hi).1 hfails

end Machine

end StackLisp
