import StackLisp.Proofs.Machine.Discipline
import StackLisp.Proofs.Machine.WellFormed

/-!
# What a call leaves alone

A closure that is called gets a scope of its own, under an id that no scope had before.  While
the call lasts, all frames above the caller were entered during the call, so they run in scopes
that are no older (`Machine.During`).  Definitions go to the scope of the frame that runs, and a
collection only drops scopes.  So **the scopes from before the call stay as they are, or go**
(`Arena.Grown`), and the caller finds its frame and its part of the stack where it left them
(`call_effect`).
-/

namespace StackLisp

namespace Arena

/-- **An arena that has grown at its end only**: scopes with ids below the limit are those that
were there before. -/
structure Grown (limit : ScopeId) (a b : Arena) : Prop where
  old : ∀ id s, id < limit → b.get? id = some s → a.get? id = some s
  nextId : a.nextId ≤ b.nextId

variable {limit scope : ScopeId} {a b c : Arena}

theorem Grown.refl (limit : ScopeId) (a : Arena) : Grown limit a a :=
  ⟨fun _ _ _ h => h, Int.le_refl _⟩

theorem Grown.trans (h : Grown limit a b) (h' : Grown limit b c) : Grown limit a c :=
  ⟨fun id s hid hs => h.old id s hid (h'.old id s hid hs), Int.le_trans h.nextId h'.nextId⟩

/-- A definition in a recent scope, or a new scope, adds at the end. -/
theorem Changed.grown (h : a.Changed scope b) (hscope : limit ≤ scope)
    (hnext : limit ≤ a.nextId) : Grown limit a b := by
  cases h with
  | same => exact .refl limit a
  | defined hd =>
    refine ⟨fun id s hid hs => ?_, Int.le_of_eq (nextId_of_define hd).symm⟩
    have hne : scope ≠ id := Int.ne_of_gt (Int.lt_of_lt_of_le hid hscope)
    simpa [get?_define hd, hne] using hs
  | allocated ha =>
    obtain ⟨-, hsucc, -⟩ := id_of_allocate ha
    refine ⟨fun id s hid hs => ?_, hsucc ▸ Int.le_of_lt (Int.lt_succ _)⟩
    have hne : a.nextId ≠ id := Int.ne_of_gt (Int.lt_of_lt_of_le hid hnext)
    simpa [get?_allocate ha, hne] using hs

end Arena

namespace Machine
variable {m next after : Machine} {scope limit : ScopeId} {i : Instruction}

/-! ## Single steps -/

/-- Collecting drops scopes, and does nothing else to the arena. -/
theorem get?_noteAllocation {id : ScopeId} {s : Scope}
    (h : m.noteAllocation.arena.get? id = some s) : m.arena.get? id = some s := by
  unfold noteAllocation at h
  simp only at h
  split at h
  · exact (Arena.reached_of_get?_collect h).1
  · exact h

theorem Called.exists_changed {args stack rest : List Value} {callee : Value}
    (h : m.Called args stack rest callee after) :
    ∃ b, m.arena.Changed scope b ∧ after.arena.nextId = b.nextId ∧
      ∀ id s, after.arena.get? id = some s → b.get? id = some s := by
  cases h with
  | @closure _ _ _ _ _ arena hb ha =>
    exact ⟨arena, .allocated ha, by simp, fun id s hs => get?_noteAllocation hs⟩
  | primitive hp ha => exact ⟨m.arena, .same, rfl, fun _ _ hs => hs⟩

/-- **What an instruction does to the arena**: it changes one scope or adds one, and then scopes
may be dropped. -/
theorem Effect.exists_changed (h : m.Effect scope i after) :
    ∃ b, m.arena.Changed scope b ∧ after.arena.nextId = b.nextId ∧
      ∀ id s, after.arena.get? id = some s → b.get? id = some s := by
  cases h with
  | define hs hd => exact ⟨_, .defined hd, rfl, fun _ _ hs => hs⟩
  | call _ _ hc => exact hc.exists_changed
  | callAt _ _ hc => exact hc.exists_changed
  | apply _ _ hc => exact hc.exists_changed
  | jumpIfTruthy _ =>
    refine ⟨m.arena, .same, ?_⟩
    split <;> simp
  | jumpIfFalsy _ =>
    refine ⟨m.arena, .same, ?_⟩
    split <;> simp
  | _ => exact ⟨m.arena, .same, rfl, fun _ _ hs => hs⟩

/-- A step in a recent scope adds to the arena at its end. -/
theorem grown_of_advance {f : Frame} {frames : List Frame} (hf : m.frames = f :: frames)
    (hscope : limit ≤ f.scope) (hnext : limit ≤ m.arena.nextId) (ha : m.advance = .ok after) :
    Arena.Grown limit m.arena after.arena := by
  obtain ⟨g, frames', i, next, hf', -, he, rfl⟩ := advance_eq_ok.mp ha
  obtain ⟨rfl, rfl⟩ := List.cons.inj (hf'.symm.trans hf)
  obtain ⟨b, hchanged, hid, hget⟩ := he.exists_changed
  rw [jump_arena] at hchanged
  have hgrown := hchanged.grown hscope hnext
  exact ⟨fun id s hlt hs => hgrown.old id s hlt (hget id s hs), hid ▸ hgrown.nextId⟩

/-- The next id stays above all ids. -/
theorem fresh_of_advance (hm : ∀ id, m.arena.contains id = true → id < m.arena.nextId)
    (ha : m.advance = .ok after) :
    ∀ id, after.arena.contains id = true → id < after.arena.nextId := by
  obtain ⟨g, frames, i, next, -, -, he, rfl⟩ := advance_eq_ok.mp ha
  obtain ⟨b, hchanged, hid, hget⟩ := he.exists_changed
  rw [jump_arena] at hchanged
  intro id hcontains
  obtain ⟨s, hs⟩ := Arena.contains_iff.mp hcontains
  have hlt := hchanged.fresh hm (Arena.contains_iff.mpr ⟨s, hget id s hs⟩)
  simpa only [hid] using hlt

/-- Instructions put texts out at the end. -/
theorem Effect.output (h : m.Effect scope i after) : ∃ texts, after.output = m.output ++ texts := by
  have called : ∀ {args stack rest : List Value} {callee : Value},
      m.Called args stack rest callee after → after.output = m.output ++ [] := by
    intro args stack rest callee hc
    cases hc with
    | closure hb ha =>
      unfold noteAllocation
      simp only
      split <;> simp [collectGarbage]
    | primitive hp ha => simp
  cases h with
  | display hs => exact ⟨_, rfl⟩
  | call _ _ hc => exact ⟨[], called hc⟩
  | callAt _ _ hc => exact ⟨[], called hc⟩
  | apply _ _ hc => exact ⟨[], called hc⟩
  | jumpIfTruthy _ => exact ⟨[], by split <;> simp⟩
  | jumpIfFalsy _ => exact ⟨[], by split <;> simp⟩
  | _ => exact ⟨[], (List.append_nil _).symm⟩

theorem output_of_advance (ha : m.advance = .ok after) :
    ∃ texts, after.output = m.output ++ texts := by
  obtain ⟨g, frames, i, next, -, -, he, rfl⟩ := advance_eq_ok.mp ha
  simpa using he.output

theorem Called.frames {f : Frame} {frames : List Frame} {args stack rest : List Value}
    {callee : Value} (hf : m.frames = f :: frames) (h : m.Called args stack rest callee after) :
    after.frames = f :: frames ∨
      ∃ g : Frame, g.ip = 0 ∧ g.scope = m.arena.nextId ∧ after.frames = g :: f :: frames := by
  cases h with
  | @closure params body closed id bindings arena hb ha =>
    refine .inr ⟨⟨body, 0, id⟩, rfl, (Arena.id_of_allocate ha).1, ?_⟩
    simp [hf]
  | primitive hp ha => exact .inl hf

/-- **What an instruction does to the frames**: the innermost one stays where it is or jumps, or a new
one is added, or the innermost one is left. -/
theorem Effect.frames {f : Frame} {frames : List Frame} (hf : m.frames = f :: frames)
    (h : m.Effect scope i after) :
    (∃ distance, (distance = 0 ∨ i = .jumpIfTruthy distance ∨ i = .jumpIfFalsy distance) ∧
      after.frames = { f with ip := f.ip + distance } :: frames) ∨
      (∃ g : Frame, g.ip = 0 ∧ g.scope = m.arena.nextId ∧ after.frames = g :: f :: frames) ∨
      i = .ret ∧ after.frames = frames := by
  have stays : after.frames = f :: frames →
      ∃ distance, (distance = 0 ∨ i = .jumpIfTruthy distance ∨ i = .jumpIfFalsy distance) ∧
        after.frames = { f with ip := f.ip + distance } :: frames :=
    fun h => ⟨0, .inl rfl, by simpa using h⟩
  have jumps : ∀ {m : Machine} (distance : Int), m.frames = f :: frames →
      (m.jump distance).frames = { f with ip := f.ip + distance } :: frames :=
    fun distance hf => by simp [jump, hf]
  cases h with
  | @jumpIfTruthy distance v rest hs =>
    left
    split
    · exact ⟨0, .inl rfl, by simpa using hf⟩
    · exact ⟨distance, .inr (.inl rfl), jumps distance hf⟩
  | @jumpIfFalsy distance v rest hs =>
    left
    split
    · exact ⟨distance, .inr (.inr rfl), jumps distance hf⟩
    · exact ⟨0, .inl rfl, by simpa using hf⟩
  | finish hf' hs =>
    obtain ⟨-, rfl⟩ := List.cons.inj (hf.symm.trans hf')
    exact .inr (.inr ⟨rfl, rfl⟩)
  | ret hf' hs =>
    obtain ⟨-, rfl⟩ := List.cons.inj (hf.symm.trans hf')
    exact .inr (.inr ⟨rfl, rfl⟩)
  | call _ _ hc => exact (hc.frames hf).imp stays .inl
  | callAt _ _ hc => exact (hc.frames hf).imp stays .inl
  | apply _ _ hc => exact (hc.frames hf).imp stays .inl
  | _ => exact .inl (stays hf)

/-! ## While a call lasts -/

/-- **The frames below one that runs while a call lasts**, with their part of the stack.  The
outermost one that was there before the call is `caller`, which waits for the call with the stack
`below`.  All others have been entered since, so their scopes have the limit or a greater id. -/
inductive Above (limit : ScopeId) (caller : Frame) (callers : List Frame) (below : List Value) :
    List Frame → List Value → Prop
  | entered {params : Parameters} {code : Code} {scope : ScopeId} :
      Above limit caller callers below (caller :: callers) (.closure params code scope :: below)
  | called {f : Frame} {frames : List Frame} {params : Parameters} {code : Code} {scope : ScopeId}
      {segment rest : List Value} (hs : limit ≤ f.scope)
      (hb : Code.Balanced f.ahead (segment.length + 1))
      (h : Above limit caller callers below frames rest) :
      Above limit caller callers below (f :: frames) (.closure params code scope :: (segment ++ rest))

/-- **A machine while a call lasts** that was entered from `before`, whose innermost frame points
behind the call at `caller`. -/
structure During (before : Machine) (caller : Frame) (callers : List Frame) (below : List Value)
    (m : Machine) : Prop where
  running : ∃ f frames segment rest, m.Running f frames segment rest ∧
    before.arena.nextId ≤ f.scope ∧ Above before.arena.nextId caller callers below frames rest
  grown : Arena.Grown before.arena.nextId before.arena m.arena
  output : ∃ texts, m.output = before.output ++ texts

/-- **A machine just after such a call.** -/
structure Returned (before : Machine) (caller : Frame) (callers : List Frame) (below : List Value)
    (m : Machine) : Prop where
  frames : m.frames = caller :: callers
  stack : ∃ v, m.stack = v :: below
  grown : Arena.Grown before.arena.nextId before.arena m.arena
  output : ∃ texts, m.output = before.output ++ texts

section During
variable {before : Machine} {caller : Frame} {callers : List Frame} {below : List Value}

theorem Above.length_le {frames : List Frame} {rest : List Value}
    (h : Above limit caller callers below frames rest) : callers.length + 1 ≤ frames.length := by
  induction h with
  | entered => simp
  | called _ _ _ ih =>
    rw [List.length_cons]
    omega

/-- A call lasts while there are more frames than before it. -/
theorem During.length_lt (h : before.During caller callers below m) :
    callers.length + 1 < m.frames.length := by
  obtain ⟨f, frames, segment, rest, hrun, -, habove⟩ := h.running
  have := habove.length_le
  rw [hrun.frames, List.length_cons]
  omega

/-- **Steps during a call** go on with it, or return from it. -/
theorem During.advance (h : before.During caller callers below m) (hm : m.Compiled)
    (ha : m.advance = .ok after) :
    before.During caller callers below after ∨ before.Returned caller callers below after := by
  obtain ⟨f, frames, segment, rest, hrun, hscope, habove⟩ := h.running
  have hnext := h.grown.nextId
  have hgrown := h.grown.trans (grown_of_advance hrun.frames hscope hnext ha)
  have houtput : ∃ texts, after.output = before.output ++ texts := by
    obtain ⟨old, ho⟩ := h.output
    obtain ⟨texts, ht⟩ := output_of_advance ha
    exact ⟨old ++ texts, by rw [ht, ho, List.append_assoc]⟩
  cases hrun.advance hm.callable ha with
  | @stays g operands hs hrun =>
    exact .inl ⟨⟨g, frames, operands, rest, hrun, hs ▸ hscope, habove⟩, hgrown, houtput⟩
  | @enters g operands params closed hs hb hrun =>
    refine .inl ⟨⟨g, _, _, _, hrun, hs ▸ hnext, ?_⟩, hgrown, houtput⟩
    exact .called hscope hb habove
  | @returns g frames' v params closed operands rest' hf hs hb hrun' =>
    subst hf
    generalize hrest : rest = whole at habove
    cases habove with
    | entered =>
      obtain ⟨-, rfl⟩ := List.cons.inj (hs.symm.trans hrest)
      exact .inr ⟨hrun'.frames, ⟨v, hrun'.stack⟩, hgrown, houtput⟩
    | @called _ _ _ _ _ operands' _ hg hb' habove =>
      -- Both cuts of the stack below the callee belong to the same place in the code.
      have hlen : operands.length = operands'.length := by
        have := hb.height_eq.symm.trans hb'.height_eq
        omega
      obtain ⟨-, hsplit⟩ := List.cons.inj (hs.symm.trans hrest)
      obtain ⟨rfl, rfl⟩ := List.append_inj hsplit hlen
      exact .inl ⟨⟨g, frames', _, _, hrun', hg, habove⟩, hgrown, houtput⟩
  | finishes hf hn hs =>
    subst hf
    cases habove

/-- **A call lasts until there are as many frames as before it**, and has returned then. -/
theorem During.steps (h : before.During caller callers below m) (hm : m.Compiled)
    (hfault : m.fault = none) {n : Nat}
    (ha : Steps n m after)
    (hfirst : ∀ k < n, (m.stepTimes k).1.frames.length ≠ callers.length + 1) :
    before.During caller callers below after ∨ before.Returned caller callers below after := by
  induction ha with
  | zero m => exact .inl h
  | @succ n m next after hadv hs ih =>
    rcases h.advance hm hadv with hnext | hnext
    · refine ih hnext (hm.advance hadv) ((fault_of_advance hadv).trans hfault) fun k hk => ?_
      have := hfirst (k + 1) (Nat.succ_lt_succ hk)
      rwa [stepTimes, step_of_ok hfault hadv] at this
    · cases hs with
      | zero => exact .inr hnext
      | succ _ _ =>
        have := hfirst 1 (by omega)
        simp [stepTimes, step_of_ok hfault hadv, hnext.frames] at this

end During

/-! ## Calls -/

/-- **The next instruction calls a closure**, with `below` as the stack under it. -/
inductive CallsClosure (m : Machine) (f : Frame) (below : List Value) : Prop
  | call (args : List Value) {params : Parameters} {code : Code} {closed : ScopeId}
      (hi : fetch f = .ok (.call args.length))
      (hs : m.stack = args.reverse ++ .closure params code closed :: below)
  | apply {list : Value} {params : Parameters} {code : Code} {closed : ScopeId}
      (hi : fetch f = .ok .apply) (hs : m.stack = list :: .closure params code closed :: below)

/-- What enters a closure is a call of it. -/
theorem CallsClosure.called {f : Frame} {callers : List Frame} {below : List Value}
    (h : m.CallsClosure f below) (hf : m.frames = f :: callers) (ha : m.advance = .ok after) :
    ∃ params code closed args next,
      (m.jump 1).Called args (.closure params code closed :: below) below
        (.closure params code closed) next ∧ after = { next with steps := next.steps + 1 } := by
  obtain ⟨g, frames, i, next, hf', hi, he, rfl⟩ := advance_eq_ok.mp ha
  obtain ⟨rfl, rfl⟩ := List.cons.inj (hf'.symm.trans hf)
  cases h with
  | @call args params code closed hcall hs =>
    cases hcall.symm.trans hi
    cases he with
    | @call _ callee args' below' _ hs' hn hc =>
      have hstack := hs.symm.trans ((jump_stack 1).symm.trans hs')
      have hlen : args.reverse.length = args'.reverse.length := by
        simp only [List.length_reverse]
        omega
      obtain ⟨-, hrest⟩ := List.append_inj hstack hlen
      obtain ⟨rfl, rfl⟩ := List.cons.inj hrest
      exact ⟨params, code, closed, args', next, hc, rfl⟩
    | callAt hn _ _ => exact absurd hn (by omega)
  | @apply list params code closed hcall hs =>
    cases hcall.symm.trans hi
    cases he with
    | @apply _ _ items _ _ hs' hl hc =>
      have hstack := hs.symm.trans ((jump_stack 1).symm.trans hs')
      obtain ⟨-, hrest⟩ := List.cons.inj hstack
      obtain ⟨rfl, rfl⟩ := List.cons.inj hrest
      exact ⟨params, code, closed, items, next, hc, rfl⟩

/-- What the stack and the frames are once a closure has been entered. -/
theorem Called.entered {f : Frame} {callers : List Frame} {below args : List Value}
    {params : Parameters} {code : Code} {closed : ScopeId} (hf : m.frames = f :: callers)
    (h : (m.jump 1).Called args (.closure params code closed :: below) below
      (.closure params code closed) next) :
    next.stack = .closure params code closed :: below ∧
      next.frames = ⟨code, 0, m.arena.nextId⟩ :: { f with ip := f.ip + 1 } :: callers := by
  cases h with
  | closure hb ha =>
    obtain ⟨rfl, -, -⟩ := Arena.id_of_allocate ha
    exact ⟨by simp, by simp [jump, hf]⟩

/-- **A call begins** with the step that enters the closure. -/
theorem CallsClosure.during {f : Frame} {callers : List Frame} {below : List Value}
    (h : m.CallsClosure f below) (hm : m.Compiled) (hsettled : m.Settled)
    (hf : m.frames = f :: callers) (ha : m.advance = .ok after) :
    m.During { f with ip := f.ip + 1 } callers below after := by
  obtain ⟨params, code, closed, args, next, hc, rfl⟩ := h.called hf ha
  obtain ⟨hstack, hframes⟩ := hc.entered hf
  refine ⟨?_, ?_, output_of_advance ha⟩
  · rcases hsettled with ⟨hnone, -⟩ | ⟨g, frames, segment, rest, hrun⟩
    · cases hnone.symm.trans hf
    obtain ⟨rfl, rfl⟩ := List.cons.inj (hrun.frames.symm.trans hf)
    -- There is one frame more than before, so the step has entered a closure.
    cases hrun.advance hm.callable ha with
    | enters hs hb hrun' =>
      obtain ⟨-, hbelow⟩ := List.cons.inj (hrun'.stack.symm.trans hstack)
      exact ⟨_, _, _, _, hrun', Int.le_of_eq hs.symm, hbelow ▸ .entered⟩
    | stays hs hrun' =>
      have hlen := congrArg List.length (hrun'.frames.symm.trans hframes)
      simp at hlen
    | returns hf' hs hb hrun' =>
      have hlen := congrArg List.length (hrun'.frames.symm.trans hframes)
      simp only [hf', List.length_cons] at hlen
      omega
    | finishes hf' hn hs => cases hn.symm.trans hframes
  · obtain ⟨b, hchanged, hid, hget⟩ := hc.exists_changed
    rw [jump_arena] at hchanged
    have hgrown := hchanged.grown (Int.le_refl _) (Int.le_refl _)
    exact ⟨fun id s hlt hs => hgrown.old id s hlt (hget id s hs), hid ▸ hgrown.nextId⟩

/-! ## Programs -/

theorem fresh_of_steps {code : Code} {arena : Arena} {threshold : Int} {n : Nat}
    (hfresh : ∀ id, arena.contains id = true → id < arena.nextId)
    (h : Steps n (ofProgram code arena threshold) m) :
    ∀ id, m.arena.contains id = true → id < m.arena.nextId :=
  h.induction (Q := fun m => ∀ id, m.arena.contains id = true → id < m.arena.nextId)
    (fun _ _ hq ha => fresh_of_advance hq ha) hfresh

theorem compiled_of_steps {code : Code} {arena : Arena} {threshold : Int} {n : Nat}
    (hc : Code.Compiled code) (ha : arena.Compiled)
    (h : Steps n (ofProgram code arena threshold) m) : m.Compiled :=
  h.induction (fun _ _ hq hadv => hq.advance hadv) (compiled_ofProgram hc ha threshold)

/-- **What a call does to what was there before it.**  Let a step of a compiled program enter a
closure, and let there be as many frames as before for the first time after `n` further steps.
Then every scope that was there before the call, and still is, binds what it did and has the
parent that it had.  The frames are those from before, and the caller's points behind the call.
The stack is what was below the closure, and one value.  The output has grown at its end.  And all
definitions in between are made in scopes that were not there before the call. -/
theorem call_effect {bound : List String} {forms : List Value} {code : Code} {arena : Arena}
    (hforms : ∀ form ∈ forms, form.Compiled) (hcode : Code.ofProgram bound forms = .ok code)
    (harena : arena.Compiled) (hfresh : ∀ id, arena.contains id = true → id < arena.nextId)
    {threshold : Int} {k n : Nat} {m next after : Machine} {f : Frame} {callers : List Frame}
    {below : List Value} (hm : (ofProgram code arena threshold).stepTimes k = (m, none))
    (hf : m.frames = f :: callers) (hcall : m.CallsClosure f below)
    (hnext : m.step = (next, none)) (hafter : next.stepTimes n = (after, none))
    (hback : after.frames.length = m.frames.length)
    (hfirst : ∀ j < n, (next.stepTimes j).1.frames.length ≠ m.frames.length) :
    (∀ id s t, m.arena.get? id = some s → after.arena.get? id = some t → t = s) ∧
    after.frames = { f with ip := f.ip + 1 } :: callers ∧
    (∃ v, after.stack = v :: below) ∧
    (∃ texts, after.output = m.output ++ texts) ∧
    ∀ j < n, ∀ g ∈ (next.stepTimes j).1.frames.head?, ∀ name, fetch g = .ok (.define name) →
      m.arena.nextId ≤ g.scope ∧ m.arena.contains g.scope = false := by
  have hc := Code.compiled_of_ofProgram hforms hcode
  have hsteps : Steps k (ofProgram code arena threshold) m := steps_of_stepTimes rfl hm
  have hfault : m.fault = none := hsteps.fault_eq
  have hadv := advance_of_step hfault hnext
  have hfault' := (fault_of_advance hadv).trans hfault
  have hafter' := steps_of_stepTimes hfault' hafter
  have hcompiled := compiled_of_steps hc harena hsteps
  have hcompiled' := hcompiled.advance hadv
  have hold := fresh_of_steps hfresh hsteps
  have hlen : m.frames.length = callers.length + 1 := by simp [hf]
  have hduring := hcall.during hcompiled (settled_of_steps hc harena hsteps) hf hadv
  rw [hlen] at hback hfirst
  have hreturned := (hduring.steps hcompiled' hfault' hafter' hfirst).resolve_left fun hlast => by
    have := hlast.length_lt
    omega
  refine ⟨fun id s t hs ht => ?_, hreturned.frames, hreturned.stack, hreturned.output, ?_⟩
  · have hlt := hold id (Arena.contains_iff.mpr ⟨s, hs⟩)
    exact Option.some.inj ((hreturned.grown.old id t hlt ht).symm.trans hs)
  · intro j hj g hg name _
    obtain ⟨mid, hmid, -⟩ := hafter'.split_of_le (Nat.le_of_lt hj)
    have hmid' := hduring.steps hcompiled' hfault' hmid fun i hi => hfirst i (Nat.lt_trans hi hj)
    have hfirst := hfirst j hj
    rw [hmid.stepTimes_eq hfault'] at hg hfirst
    rcases hmid' with hmid' | hmid'
    · obtain ⟨g', frames', _, _, hrun, hscope, -⟩ := hmid'.running
      obtain rfl : g' = g := by simpa [hrun.frames] using hg
      refine ⟨hscope, Bool.eq_false_iff.mpr fun hcontains => ?_⟩
      exact absurd (hold _ hcontains) (Int.not_lt.mpr hscope)
    · exact absurd (by simp [hmid'.frames]) hfirst

/-- The call in `((lambda (x) (define y x) (display y)) true)`. -/
theorem call_effect_definition :
    let form : Value := .ofList
      [.ofList [.symbol "lambda", .ofList [.symbol "x"] none .nil,
        .ofList [.symbol "define", .symbol "y", .symbol "x"] none .nil,
        .ofList [.symbol "display", .symbol "y"] none .nil] none .nil, .bool true] none .nil
    let code : Code := [.pushConst (.template ⟨["x"], none⟩ [.lookup "x", .define "y",
      .pushConst .nil, .pop, .lookup "y", .display, .ret]), .makeClosure, .pushConst (.bool true),
      .call 1, .ret]
    form.Compiled ∧ Code.ofProgram [] [form] = .ok code ∧ ∃ before next after,
      (ofProgram code .empty 1).stepTimes 3 = (before, none) ∧ before.step = (next, none) ∧
      next.stepTimes 7 = (after, none) ∧ after.output = ["true"] ∧
      ∀ id s t, before.arena.get? id = some s → after.arena.get? id = some t → t = s := by
  intro form code
  have hform : form.Compiled := by
    simp only [form, Value.ofList, List.foldr]
    repeat constructor
  have hforms : ∀ f ∈ [form], f.Compiled := by simpa using hform
  have hcode : Code.ofProgram [] [form] = .ok code := rfl
  have stepped : ∀ p : Machine × Option Fault, p.2.isNone = true → p = (p.1, none) := by
    rintro ⟨m, _ | fault⟩ h
    · rfl
    · cases h
  have hbefore := stepped ((ofProgram code .empty 1).stepTimes 3) (by decide +kernel)
  have hnext := stepped ((ofProgram code .empty 1).stepTimes 3).1.step (by decide +kernel)
  have hafter := stepped (((ofProgram code .empty 1).stepTimes 3).1.step.1.stepTimes 7)
    (by decide +kernel)
  refine ⟨hform, hcode, _, _, _, hbefore, hnext, hafter, by decide +kernel, ?_⟩
  exact (call_effect hforms hcode Arena.compiled_empty (fun _ => Arena.fresh_ofGlobals) hbefore rfl
    (.call [.bool true] rfl rfl) hnext hafter (by decide +kernel) (by decide +kernel)).1

end Machine

end StackLisp
