import StackLisp.Proofs.Machine.Steps
import StackLisp.Proofs.Machine.WellFormed

/-!
# Collecting is not observed

If no closure is among the constants of a machine's code, it makes no difference when scopes are
collected: **any two schedules of collections agree after every number of steps**
(`schedules_agree`), in everything but the scopes that can no longer be reached.

Every run is compared with one that never collects.  A run with collections has the same scopes
as far as they are reached (`SameScopes`), which is all that an instruction looks at
(`SameScopes.effect`, `SameScopes.fails`).
-/

namespace StackLisp

namespace Machine
variable {m after : Machine} {scope : ScopeId} {i : Instruction}

/-! ## Machines that agree -/

/-- The machine with another arena, and other numbers for its collections. -/
def withArena (m : Machine) (a : Arena) (threshold : Int) (count : Nat) : Machine :=
  { m with
    arena := a
    gcThreshold := threshold
    allocations := count }

/-- An arena with the same scopes, as far as a machine reaches them. -/
structure SameScopes (m : Machine) (a : Arena) : Prop where
  nextId : a.nextId = m.arena.nextId
  get? : ∀ id, m.Reached id → a.get? id = m.arena.get? id

/-- Leaving a frame does not look at the arena. -/
theorem leave_withArena (m : Machine) (a : Arena) (threshold : Int) (count : Nat) :
    (m.withArena a threshold count).leave = m.leave.map (·.withArena a threshold count) := by
  unfold leave
  simp only [withArena]
  split <;> rfl

section SameScopes
variable {a : Arena} {threshold : Int} {count : Nat}

theorem jump_withArena (m : Machine) (offset : Int) :
    (m.withArena a threshold count).jump offset = (m.jump offset).withArena a threshold count := by
  unfold jump
  simp only [withArena]
  split <;> rfl

/-- The same is reached in both arenas. -/
theorem SameScopes.reached (h : m.SameScopes a) {id : ScopeId} :
    (m.withArena a threshold count).Reached id ↔ m.Reached id := by
  constructor
  · intro hid
    induction hid with
    | root hr => exact .root hr
    | step _ hs hl ih => exact ih.step ((h.get? _ ih).symm.trans hs) hl
  · intro hid
    induction hid with
    | root hr => exact .root hr
    | step hprev hs hl ih => exact ih.step ((h.get? _ hprev).trans hs) hl

/-- **A collection leaves what is reached.** -/
theorem SameScopes.collect (h : m.SameScopes a) (threshold : Int) (count : Nat) :
    ∃ b, (m.withArena a threshold count).collectGarbage = m.withArena b threshold count ∧
      m.SameScopes b := by
  refine ⟨_, rfl, h.nextId, fun id hid => ?_⟩
  have hreached : (m.withArena a threshold count).Reached id := h.reached.mpr hid
  exact (Arena.get?_collect_of_reached hreached).trans (h.get? id hid)

theorem SameScopes.noteAllocation (h : m.SameScopes a) (threshold : Int) (count : Nat) :
    ∃ b k, (m.withArena a threshold count).noteAllocation = m.withArena b threshold k ∧
      m.SameScopes b := by
  unfold Machine.noteAllocation
  simp only
  split
  · obtain ⟨b, hb, hsame⟩ := h.collect threshold 0
    exact ⟨b, 0, hb, hsame⟩
  · exact ⟨a, _, rfl, h⟩

/-- An instruction that leaves the arena alone. -/
theorem SameScopes.of_arena_eq (h : m.SameScopes a) (harena : after.arena = m.arena)
    (hreached : ∀ id, after.Reached id → m.MayReach after.arena id) : after.SameScopes a := by
  refine ⟨harena ▸ h.nextId, fun id hid => ?_⟩
  rcases hreached id hid with hid | ⟨-, hne⟩
  · rw [harena]
    exact h.get? id hid
  · exact absurd (congrArg Arena.nextId harena) hne

theorem SameScopes.define (h : m.SameScopes a) {b : Arena} {name : String} {v : Value}
    (hscope : m.Reached scope) (hd : m.arena.define scope name v = .ok b) :
    ∃ c, a.define scope name v = .ok c ∧ c.nextId = b.nextId ∧
      ∀ id, m.Reached id → c.get? id = b.get? id := by
  have hget : a.get scope = m.arena.get scope := by
    simp only [Arena.get, h.get? scope hscope]
  obtain ⟨s, hs, -⟩ := bind_eq_ok.mp hd
  have hc : a.define scope name v = .ok _ := bind_eq_ok.mpr ⟨s, hget.trans hs, rfl⟩
  refine ⟨_, hc, ?_, fun id hid => ?_⟩
  · rw [Arena.nextId_of_define hc, Arena.nextId_of_define hd, h.nextId]
  · rw [Arena.get?_define hc, Arena.get?_define hd, h.get? id hid]

theorem SameScopes.allocate (h : m.SameScopes a) {b : Arena} {vars : Bindings}
    {parent id : ScopeId} (hparent : m.Reached parent)
    (ha : m.arena.allocate vars parent = .ok (id, b)) :
    ∃ c, a.allocate vars parent = .ok (id, c) ∧ c.nextId = b.nextId ∧
      ∀ k, m.MayReach b k → c.get? k = b.get? k := by
  obtain ⟨rfl, hnext, hcontains⟩ := Arena.id_of_allocate ha
  have hc : a.contains parent = true := by
    rw [Arena.contains_iff, h.get? parent hparent]
    exact Arena.contains_iff.mp hcontains
  refine ⟨⟨a.scopes.insert a.nextId ⟨vars, some parent⟩, a.nextId + 1⟩, ?_, ?_, ?_⟩
  · rw [Arena.allocate, if_pos hc, h.nextId]
  · rw [hnext, h.nextId]
  · intro k hk
    rw [Arena.get?_allocate (show a.allocate vars parent = .ok (a.nextId, _) by
      rw [Arena.allocate, if_pos hc]), Arena.get?_allocate ha, h.nextId]
    rcases hk with hk | ⟨rfl, -⟩
    · rw [h.get? k hk]
    · rw [if_pos rfl, if_pos rfl]

/-- **A call is the same** where a collection has taken place, or takes place in it. -/
theorem SameScopes.called (h : m.SameScopes a) (h0 : m.gcThreshold = 0) {callee : Value}
    {args stack rest : List Value} (hcallee : ∀ id, callee.Holds id → m.Reached id)
    (hreached : ∀ id, after.Reached id → m.MayReach after.arena id)
    (hc : m.Called args stack rest callee after) (threshold : Int) (count : Nat) :
    ∃ b k, (m.withArena a threshold count).Called args stack rest callee
      (after.withArena b threshold k) ∧ after.SameScopes b := by
  cases hc with
  | @closure params code closed id bindings arena hb ha =>
    obtain ⟨c, hallocate, hnext, hscopes⟩ := h.allocate (hcallee closed (.closure _ _)) ha
    rw [noteAllocation_of_zero (by exact h0)] at hreached ⊢
    have hsame : SameScopes { m with
        arena := arena
        stack := stack
        frames := ⟨code, 0, id⟩ :: m.frames } c :=
      ⟨hnext, fun k hk => hscopes k (hreached k hk)⟩
    obtain ⟨b, k, hnote, hb'⟩ := hsame.noteAllocation threshold count
    refine ⟨b, k, ?_, hb'.nextId, hb'.get?⟩
    have hcalled : (m.withArena a threshold count).Called args stack rest
        (.closure params code closed) _ := .closure hb hallocate
    exact hnote ▸ hcalled
  | primitive hp ha =>
    exact ⟨a, count, .primitive hp ha, h.of_arena_eq rfl hreached⟩

/-- **An instruction has the same effect** where a collection has taken place. -/
theorem SameScopes.effect (h : m.SameScopes a) (hm : m.Whole) (h0 : m.gcThreshold = 0)
    (hscope : m.Reached scope) (hi : ∀ v, i = .pushConst v → v.Plain)
    (he : m.Effect scope i after) (threshold : Int) (count : Nat) :
    ∃ b k, (m.withArena a threshold count).Effect scope i (after.withArena b threshold k) ∧
      after.SameScopes b := by
  have hreached := (hm.mayReach hscope hi he).2
  have hfind : ∀ name, a.find scope name = m.arena.find scope name :=
    fun name => Arena.find_congr hm.descending hscope h.get?
  have hheld : ∀ v ∈ m.stack, ∀ id, v.Holds id → m.Reached id :=
    fun v hv id hid => reached_stack hv hid
  cases he with
  | pushConst v => exact ⟨a, count, .pushConst v, h.of_arena_eq rfl hreached⟩
  | pop hs => exact ⟨a, count, .pop hs, h.of_arena_eq rfl hreached⟩
  | lookup hf => exact ⟨a, count, .lookup ((hfind _).trans hf), h.of_arena_eq rfl hreached⟩
  | lookupPrimitive hf hp =>
    exact ⟨a, count, .lookupPrimitive ((hfind _).trans hf) hp, h.of_arena_eq rfl hreached⟩
  | define hs hd =>
    obtain ⟨c, hc, hnext, hget⟩ := h.define hscope hd
    refine ⟨c, count, .define hs hc, hnext, fun id hid => hget id ?_⟩
    rcases hreached id hid with hid | ⟨-, hne⟩
    · exact hid
    · exact absurd (Arena.nextId_of_define hd) hne
  | @jumpIfTruthy offset v rest hs =>
    refine ⟨a, count, ?_, h.of_arena_eq (by split <;> simp) hreached⟩
    have he : (m.withArena a threshold count).Effect scope (.jumpIfTruthy offset) _ :=
      .jumpIfTruthy hs
    rw [jump_withArena] at he
    split at he
    · rwa [if_pos ‹_›]
    · rwa [if_neg ‹_›]
  | @jumpIfFalsy offset v rest hs =>
    refine ⟨a, count, ?_, h.of_arena_eq (by split <;> simp) hreached⟩
    have he : (m.withArena a threshold count).Effect scope (.jumpIfFalsy offset)
        (if v.isFalsy then (({ m with stack := rest } : Machine).withArena a threshold count).jump
          offset else ({ m with stack := rest } : Machine).withArena a threshold count) :=
      .jumpIfFalsy hs
    rw [jump_withArena] at he
    split at he
    · rwa [if_pos ‹_›]
    · rwa [if_neg ‹_›]
  | finish hf hs => exact ⟨a, count, .finish hf hs, h.of_arena_eq rfl hreached⟩
  | ret hf hs => exact ⟨a, count, .ret hf hs, h.of_arena_eq rfl hreached⟩
  | makeClosure hs => exact ⟨a, count, .makeClosure hs, h.of_arena_eq rfl hreached⟩
  | call hs hn hc =>
    obtain ⟨b, k, hc', hb⟩ := h.called h0 (hheld _ (by simp [hs])) hreached hc threshold count
    exact ⟨b, k, .call hs hn hc', hb⟩
  | callAt hn hat hc =>
    have hmem := List.mem_reverse.mp (List.mem_of_getElem? hat)
    obtain ⟨b, k, hc', hb⟩ := h.called h0 (hheld _ hmem) hreached hc threshold count
    exact ⟨b, k, .callAt hn hat hc', hb⟩
  | callPrimitive hs hn hp ha =>
    exact ⟨a, count, .callPrimitive hs hn hp ha, h.of_arena_eq rfl hreached⟩
  | apply hs hl hc =>
    obtain ⟨b, k, hc', hb⟩ := h.called h0 (hheld _ (by simp [hs])) hreached hc threshold count
    exact ⟨b, k, .apply hs hl hc', hb⟩
  | display hs => exact ⟨a, count, .display hs, h.of_arena_eq rfl hreached⟩

/-- **A call fails in the same way** where a collection has taken place. -/
theorem SameScopes.uncalled (h : m.SameScopes a) {callee : Value} {args : List Value}
    {fault : Fault} (hcallee : ∀ id, callee.Holds id → m.Reached id)
    (hc : m.Uncalled args callee fault) (threshold : Int) (count : Nat) :
    (m.withArena a threshold count).Uncalled args callee fault := by
  cases hc with
  | arguments hb => exact .arguments hb
  | @missingParent _ _ closed _ hb ha =>
    refine .missingParent hb ?_
    rw [← Bool.not_eq_true, Arena.contains_iff] at ha ⊢
    rwa [← h.get? closed (hcallee closed (.closure _ _))] at ha
  | primitive hp ha => exact .primitive hp ha
  | notFunction hc hp => exact .notFunction hc hp

/-- **An instruction fails in the same way** where a collection has taken place. -/
theorem SameScopes.fails (h : m.SameScopes a) (hm : m.Whole) (hscope : m.Reached scope)
    {fault : Fault} (hf : m.Fails scope i fault) (threshold : Int) (count : Nat) :
    (m.withArena a threshold count).Fails scope i fault := by
  have hheld : ∀ v ∈ m.stack, ∀ id, v.Holds id → m.Reached id :=
    fun v hv id hid => reached_stack hv hid
  have hfind : ∀ name, a.find scope name = m.arena.find scope name :=
    fun name => Arena.find_congr hm.descending hscope h.get?
  have hget : a.get scope = m.arena.get scope := by
    simp only [Arena.get, h.get? scope hscope]
  cases hf with
  | pop hs => exact .pop hs
  | lookup hf => exact .lookup ((hfind _).trans hf)
  | unbound hf hp => exact .unbound ((hfind _).trans hf) hp
  | missingScope hg => exact .missingScope (hget.trans hg)
  | define hg hs => exact .define (hget.trans hg) hs
  | jumpIfTruthy hs => exact .jumpIfTruthy hs
  | jumpIfFalsy hs => exact .jumpIfFalsy hs
  | ret hl =>
    refine .ret ?_
    rw [leave_withArena, hl]
    rfl
  | makeClosure hs => exact .makeClosure hs
  | notTemplate hs hv => exact .notTemplate hs hv
  | callUnderflow hs => exact .callUnderflow hs
  | call hs hn hc => exact .call hs hn (h.uncalled (hheld _ (by simp [hs])) hc threshold count)
  | aboveStack hn hat => exact .aboveStack hn hat
  | callAt hn hat hc =>
    have hmem := List.mem_reverse.mp (List.mem_of_getElem? hat)
    exact .callAt hn hat (h.uncalled (hheld _ hmem) hc threshold count)
  | unknownPrimitive hp => exact .unknownPrimitive hp
  | primitiveUnderflow hp hs => exact .primitiveUnderflow hp hs
  | callPrimitive hs hn hp ha => exact .callPrimitive hs hn hp ha
  | applyUnderflow hs => exact .applyUnderflow hs
  | notArguments hs hl => exact .notArguments hs hl
  | apply hs hl hc => exact .apply hs hl (h.uncalled (hheld _ (by simp [hs])) hc threshold count)
  | display hs => exact .display hs
  | undefined opcode => exact .undefined opcode

end SameScopes

theorem SameScopes.jump {a : Arena} (h : m.SameScopes a) (offset : Int) :
    (m.jump offset).SameScopes a := by
  refine ⟨?_, ?_⟩
  · rw [jump_arena]
    exact h.nextId
  · rw [reached_jump, jump_arena]
    exact h.get?

section Advance
variable {a : Arena}

/-- **A step succeeds in the same way** where a collection has taken place. -/
theorem SameScopes.advance (h : m.SameScopes a) (hm : m.Whole) (h0 : m.gcThreshold = 0)
    (ha : m.advance = .ok after) (threshold : Int) (count : Nat) :
    ∃ b k, (m.withArena a threshold count).advance = .ok (after.withArena b threshold k) ∧
      after.SameScopes b := by
  obtain ⟨f, frames, i, next, hf, hi, he, rfl⟩ := advance_eq_ok.mp ha
  obtain ⟨hscope, hplain⟩ := hm.fetched hf hi
  obtain ⟨b, k, he', hb⟩ := (h.jump 1).effect (hm.jump 1) ((jump_gcThreshold 1).trans h0) hscope
    hplain he threshold count
  rw [← jump_withArena] at he'
  exact ⟨b, k, advance_eq_ok.mpr ⟨f, frames, i, _, hf, hi, he', rfl⟩, hb.nextId, hb.get?⟩

/-- **A step fails in the same way** where a collection has taken place. -/
theorem SameScopes.advance_error (h : m.SameScopes a) (hm : m.Whole) {fault : Fault}
    (ha : m.advance = .error fault) (threshold : Int) (count : Nat) :
    (m.withArena a threshold count).advance = .error fault := by
  rcases advance_eq_error.mp ha with ⟨hf, rfl⟩ | ⟨f, frames, hf, ha | ⟨i, hi, hfails⟩⟩
  · exact advance_eq_error.mpr (.inl ⟨hf, rfl⟩)
  · exact advance_eq_error.mpr (.inr ⟨f, frames, hf, .inl ha⟩)
  · have hfails' := (h.jump 1).fails (hm.jump 1) (hm.fetched hf hi).1 hfails threshold count
    rw [← jump_withArena] at hfails'
    exact advance_eq_error.mpr (.inr ⟨f, frames, hf, .inr ⟨i, hi, hfails'⟩⟩)

end Advance

/-- **Machines that agree**: they differ only in scopes that are not reached, and in when they
collect. -/
def Agrees (m other : Machine) : Prop :=
  ∃ a threshold count, other = m.withArena a threshold count ∧ m.SameScopes a

section Agrees
variable {other : Machine}

theorem Agrees.collectGarbage (h : m.Agrees other) : m.Agrees other.collectGarbage := by
  obtain ⟨a, threshold, count, rfl, hsame⟩ := h
  obtain ⟨b, hb, hsame⟩ := hsame.collect threshold count
  exact ⟨b, threshold, count, hb, hsame⟩

theorem Agrees.withThreshold (h : m.Agrees other) (threshold : Int) :
    m.Agrees { other with gcThreshold := threshold } := by
  obtain ⟨a, _, count, rfl, hsame⟩ := h
  exact ⟨a, threshold, count, rfl, hsame⟩

/-- What a machine that never collects is to one that does. -/
structure Reference (m other : Machine) : Prop where
  agrees : m.Agrees other
  whole : m.Whole
  zero : m.gcThreshold = 0

theorem fault_of_failed {fault f : Fault} (h : (m.failed fault).fault = some f) :
    f = fault ∨ m.fault = some f := by
  cases fault with
  | noFrames | beforeCode => exact .inr h
  | aboveStack => exact .inr ((jump_fault 1).symm.trans h)
  | _ => exact .inl (Option.some.inj h).symm

theorem Reference.failed (h : m.Reference other) (fault : Fault) :
    (m.failed fault).Reference (other.failed fault) := by
  obtain ⟨⟨a, threshold, count, rfl, hsame⟩, hm, h0⟩ := h
  have hset : ({ m with fault := some fault } : Machine).Reference
      { m.withArena a threshold count with fault := some fault } :=
    ⟨⟨a, threshold, count, rfl, hsame.nextId, hsame.get?⟩,
      ⟨hm.descending, ⟨hm.sealed.stack, hm.sealed.frames, hm.sealed.scopes⟩, hm.fresh⟩, h0⟩
  cases fault with
  | noFrames | beforeCode => exact ⟨⟨a, threshold, count, rfl, hsame⟩, hm, h0⟩
  | aboveStack =>
    exact ⟨⟨a, threshold, count, jump_withArena m 1, hsame.jump 1⟩, hm.jump 1,
      (jump_gcThreshold 1).trans h0⟩
  | _ => exact hset

/-- **Machines that agree take the same step.** -/
theorem Reference.step (h : m.Reference other) :
    m.step.1.Reference other.step.1 ∧ other.step.2 = m.step.2 := by
  have hfailed := h.failed
  obtain ⟨⟨a, threshold, count, rfl, hsame⟩, hm, h0⟩ := h
  cases hf : m.fault with
  | some fault =>
    have hfo : (m.withArena a threshold count).fault = some fault := hf
    rw [step_of_fault hf, step_of_fault hfo]
    exact ⟨⟨⟨a, threshold, count, rfl, hsame⟩, hm, h0⟩, rfl⟩
  | none =>
    have hfo : (m.withArena a threshold count).fault = none := hf
    cases ha : m.advance with
    | ok after =>
      obtain ⟨b, k, hb, hsame'⟩ := hsame.advance hm h0 ha threshold count
      rw [step_of_ok hf ha, step_of_ok hfo hb]
      exact ⟨⟨⟨b, threshold, k, rfl, hsame'⟩, hm.advance h0 ha,
        (gcThreshold_of_advance ha).trans h0⟩, rfl⟩
    | error fault =>
      rw [step_of_error hf ha, step_of_error hfo (hsame.advance_error hm ha threshold count)]
      exact ⟨hfailed fault, rfl⟩

/-- **Machines that agree run alike**, to machines that agree. -/
theorem Reference.runFor (h : m.Reference other) (fuel : Nat) :
    (m.runFor fuel).1.Reference (other.runFor fuel).1 ∧
      (other.runFor fuel).2 = (m.runFor fuel).2 := by
  induction fuel generalizing m other with
  | zero =>
    refine ⟨h, ?_⟩
    obtain ⟨⟨a, threshold, count, rfl, -⟩, -, -⟩ := h
    rfl
  | succ fuel ih =>
    obtain ⟨hstep, hfault⟩ := h.step
    have hframes : other.halted = m.halted ∧ other.outcome = m.outcome := by
      obtain ⟨⟨a, threshold, count, rfl, -⟩, -, -⟩ := h
      exact ⟨rfl, rfl⟩
    unfold Machine.runFor
    rw [hframes.1, hframes.2]
    split
    · exact ⟨h, rfl⟩
    · rcases hm : m.step with ⟨after, _ | f⟩ <;> rcases ho : other.step with ⟨after', _ | f'⟩ <;>
        rw [hm, ho] at hstep hfault
      · exact ih hstep
      · cases hfault
      · cases hfault
      · cases hfault
        exact ⟨hstep, rfl⟩

theorem Reference.run (h : m.Reference other) {fuel : Nat} {limit : Option Int} {out : Outcome}
    (hr : m.run fuel limit = (after, out)) :
    ∃ a threshold count, other.run fuel limit = (after.withArena a threshold count, out) ∧
      after.Reference (after.withArena a threshold count) := by
  have key : ∀ fuel {after : Machine} {out : Outcome}, m.runFor fuel = (after, out) →
      ∃ a threshold count, other.runFor fuel = (after.withArena a threshold count, out) ∧
        after.Reference (after.withArena a threshold count) := by
    intro fuel after out hr
    obtain ⟨href, hout⟩ := h.runFor fuel
    rw [hr] at href hout
    obtain ⟨a, threshold, count, heq, hsame⟩ := href.agrees
    exact ⟨a, threshold, count, Prod.ext heq hout, ⟨_, _, _, rfl, hsame⟩, href.whole, href.zero⟩
  cases limit with
  | none => exact key fuel hr
  | some limit =>
    rcases hm : m.runFor limit.toNat with ⟨last, ended⟩
    obtain ⟨a, threshold, count, ho, href⟩ := key limit.toNat hm
    refine ⟨a, threshold, count, ?_⟩
    cases ended <;> simp only [Machine.run, hm] at hr <;> cases hr <;>
      simp only [Machine.run, ho] <;> exact ⟨trivial, href⟩

/-- Machines that agree have the same scopes after a collection. -/
theorem Agrees.get?_collectGarbage (h : m.Agrees other) (id : ScopeId) :
    other.collectGarbage.arena.get? id = m.collectGarbage.arena.get? id := by
  obtain ⟨a, threshold, count, rfl, hsame⟩ := h
  by_cases hid : m.Reached id
  · have hother : (m.withArena a threshold count).Reached id := hsame.reached.mpr hid
    exact ((Arena.get?_collect_of_reached hother).trans (hsame.get? id hid)).trans
      (Arena.get?_collect_of_reached hid).symm
  · have hother : ¬ (m.withArena a threshold count).Reached id := mt hsame.reached.mp hid
    exact (Arena.get?_collect_of_not_reached hother).trans
      (Arena.get?_collect_of_not_reached hid).symm

end Agrees

/-! ## Schedules -/

/-- **When scopes are collected**: before each step, the host may choose a threshold and collect
any number of times. -/
structure Schedule where
  /-- The threshold during a step. -/
  threshold : Nat → Int
  /-- How often scopes are collected before a step. -/
  collections : Nat → Nat

/-- Scopes are collected a number of times. -/
def collectTimes : Nat → Machine → Machine
  | 0, m => m
  | n + 1, m => collectTimes n m.collectGarbage

namespace Schedule

/-- A step, with what the schedule puts before it. -/
def step (s : Schedule) (n : Nat) (m : Machine) : Machine × Option Fault :=
  (collectTimes (s.collections n) { m with gcThreshold := s.threshold n }).step

/-- The machine after a number of steps. -/
def state (s : Schedule) (m : Machine) : Nat → Machine
  | 0 => m
  | n + 1 => (s.step n (s.state m n)).1

end Schedule

theorem Agrees.collectTimes {other : Machine} (h : m.Agrees other) (n : Nat) :
    m.Agrees (other.collectTimes n) := by
  induction n generalizing other with
  | zero => exact h
  | succ n ih => exact ih h.collectGarbage

theorem Reference.scheduled {other : Machine} (h : m.Reference other) (s : Schedule) (n : Nat) :
    m.step.1.Reference (s.step n other).1 ∧ (s.step n other).2 = m.step.2 :=
  Reference.step ⟨(h.agrees.withThreshold _).collectTimes _, h.whole, h.zero⟩

/-- The machine that never collects, after a number of steps. -/
def uncollected (m : Machine) : Nat → Machine
  | 0 => { m with gcThreshold := 0 }
  | n + 1 => (m.uncollected n).step.1

theorem reference_uncollected (hm : m.Whole) (s : Schedule) (n : Nat) :
    (m.uncollected n).Reference (s.state m n) := by
  induction n with
  | zero =>
    exact ⟨⟨m.arena, m.gcThreshold, m.allocations, rfl, rfl, fun _ _ => rfl⟩,
      ⟨hm.descending, ⟨hm.sealed.stack, hm.sealed.frames, hm.sealed.scopes⟩, hm.fresh⟩, rfl⟩
  | succ n ih => exact (ih.scheduled s n).1

/-- A step that fails leaves the scopes as they are. -/
theorem Present.failed (h : m.Present) (fault : Fault) : (m.failed fault).Present := by
  cases fault with
  | aboveStack => exact h.jump 1
  | _ => exact h

/-- A step does not lose scopes, and if it fails since a scope is missing, it has done so
before. -/
theorem Present.step (h : m.Present) (hm : m.Whole) (h0 : m.gcThreshold = 0) :
    m.step.1.Present ∧ ∀ fault, fault ∈ m.step.2 ∨ m.step.1.fault = some fault →
      fault.isMissing = true → m.fault = some fault := by
  cases hf : m.fault with
  | some fault =>
    rw [step_of_fault hf]
    exact ⟨h, fun f hfault _ => hfault.elim id (hf ▸ ·)⟩
  | none =>
    cases ha : m.advance with
    | ok after =>
      rw [step_of_ok hf ha]
      refine ⟨h.advance hm h0 ha, fun f hfault _ => ?_⟩
      rw [fault_of_advance ha, hf] at hfault
      simp at hfault
    | error fault =>
      have hmissing := h.advance_error hm ha
      rw [step_of_error hf ha]
      refine ⟨h.failed fault, fun f hfault hf' => ?_⟩
      have hor : f = fault ∨ m.fault = some f := by
        rcases hfault with hfault | hfault
        · exact .inl (by simpa [eq_comm] using hfault)
        · exact fault_of_failed hfault
      rcases hor with rfl | hor
      · cases hmissing.symm.trans hf'
      · exact hf ▸ hor

theorem present_uncollected (hm : m.Whole) (hp : m.Present) (n : Nat) :
    (m.uncollected n).Present ∧ ∀ fault, (m.uncollected n).fault = some fault →
      fault.isMissing = true → m.fault = some fault := by
  induction n with
  | zero => exact ⟨hp, fun fault hf _ => hf⟩
  | succ n ih =>
    obtain ⟨hpresent, hfault⟩ := ih
    obtain ⟨-, hwhole, h0⟩ := reference_uncollected hm ⟨fun _ => 0, fun _ => 0⟩ n
    obtain ⟨hstep, hmissing⟩ := hpresent.step hwhole h0
    exact ⟨hstep, fun fault hf hm => hfault fault (hmissing fault (.inr hf) hm) hm⟩

/-- **Machines that cannot be told apart**: they have the same stack, frames and output, have taken
the same number of steps, remember the same fault, and reach the same scopes. -/
structure Alike (m other : Machine) : Prop where
  stack : m.stack = other.stack
  frames : m.frames = other.frames
  output : m.output = other.output
  steps : m.steps = other.steps
  fault : m.fault = other.fault
  nextId : m.arena.nextId = other.arena.nextId
  reached : ∀ id, m.Reached id ↔ other.Reached id
  scopes : ∀ id, m.Reached id → m.arena.get? id = other.arena.get? id

/-- **Any two schedules of collections agree** after every number of steps, and the next step fails
in both or in neither, with the same fault. -/
theorem schedules_agree (hm : m.Whole) (s t : Schedule) (n : Nat) :
    (s.state m n).Alike (t.state m n) ∧
      (s.step n (s.state m n)).2 = (t.step n (t.state m n)).2 := by
  have href₁ := reference_uncollected hm s n
  have href₂ := reference_uncollected hm t n
  have hstep₁ := (href₁.scheduled s n).2
  have hstep₂ := (href₂.scheduled t n).2
  obtain ⟨a, _, _, ha, hsame₁⟩ := href₁.agrees
  obtain ⟨b, _, _, hb, hsame₂⟩ := href₂.agrees
  rw [hstep₁, hstep₂, ha, hb]
  refine ⟨⟨rfl, rfl, rfl, rfl, rfl, hsame₁.nextId.trans hsame₂.nextId.symm,
    fun id => hsame₁.reached.trans hsame₂.reached.symm, fun id hid => ?_⟩, rfl⟩
  have hid := hsame₁.reached.mp hid
  exact (hsame₁.get? id hid).trans (hsame₂.get? id hid).symm

/-- **No schedule makes a step fail since a scope is missing.** -/
theorem schedule_not_missing (hm : m.Whole) (hp : m.Present) (s : Schedule) (n : Nat)
    {fault : Fault} (hf : fault ∈ (s.step n (s.state m n)).2) (hmissing : fault.isMissing = true) :
    m.fault = some fault := by
  have href := reference_uncollected hm s n
  obtain ⟨hpresent, hfault⟩ := present_uncollected hm hp n
  rw [(href.scheduled s n).2] at hf
  exact hfault fault ((hpresent.step href.whole href.zero).2 fault (.inl hf) hmissing) hmissing

end Machine

end StackLisp
