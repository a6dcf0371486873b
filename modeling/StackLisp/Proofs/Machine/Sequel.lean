import StackLisp.Proofs.Code.Joined
import StackLisp.Proofs.Machine.Calls
import StackLisp.Proofs.Machine.Shadowing

/-!
# One program after the other

When the code of two programs is joined, a pop takes the place of the first program's return
(`Code.Joined`).  The machine that runs the joined code does what the two programs do, one after
the other (`Machine.exists_steps_joined`), in one arena and without collecting in between: first
what the first does up to its return, then the pop, and then what the second does in the arena
that the first has left.

What it does differs from what a program does on its own only in the outermost frame, which has
other code and points to another place in it, and in what was put out and counted before
(`Machine.onto`).
-/

namespace StackLisp

namespace Machine

/-! ## The outermost frame -/

/-- The frames with other code in the outermost one, which points further behind by `offset`. -/
def rebased (code : Code) (offset : Nat) : List Frame → List Frame
  | [] => []
  | [f] => [⟨code, f.ip + offset, f.scope⟩]
  | f :: caller :: frames => f :: rebased code offset (caller :: frames)

/-- **A machine that goes on where another has been**: its outermost frame runs other code, and
what was put out and counted before comes first. -/
def onto (m : Machine) (code : Code) (offset : Nat) (before : Machine) : Machine :=
  { m with
    frames := rebased code offset m.frames
    output := before.output ++ m.output
    steps := before.steps + m.steps
    allocations := before.allocations + m.allocations }

variable {m before after next last : Machine} {scope : ScopeId} {i : Instruction} {code : Code}
  {offset : Nat}

theorem rebased_cons (f : Frame) {frames : List Frame} (h : frames ≠ []) :
    rebased code offset (f :: frames) = f :: rebased code offset frames := by
  cases frames with
  | nil => exact absurd rfl h
  | cons caller frames => rfl

theorem exists_rebased_cons (code : Code) (offset : Nat) (f : Frame) (frames : List Frame) :
    ∃ g rest, rebased code offset (f :: frames) = g :: rest ∧ g.scope = f.scope := by
  cases frames with
  | nil => exact ⟨_, _, rfl, rfl⟩
  | cons caller frames => exact ⟨_, _, rfl, rfl⟩

theorem jump_onto (m : Machine) (distance : Int) :
    (m.onto code offset before).jump distance = (m.jump distance).onto code offset before := by
  unfold Machine.jump onto
  match hf : m.frames with
  | [] => simp [rebased, hf]
  | [f] =>
    simp only [rebased]
    congr 3
    omega
  | f :: caller :: frames => rfl

/-- **Calls are made in the same way.** -/
theorem Called.onto {args stack rest : List Value} {callee : Value} (h0 : m.gcThreshold = 0)
    (hne : m.frames ≠ []) (h : m.Called args stack rest callee after) :
    (m.onto code offset before).Called args stack rest callee (after.onto code offset before) := by
  cases h with
  | @closure params body closed id bindings arena hb ha =>
    have hcalled : (m.onto code offset before).Called args stack rest
        (.closure params body closed) _ := .closure hb ha
    rw [noteAllocation_of_zero (by exact h0)] at hcalled ⊢
    simp only [Machine.onto, rebased_cons _ hne] at hcalled ⊢
    exact hcalled
  | primitive hp ha => exact .primitive hp ha

/-- **Instructions have the same effect.** -/
theorem Effect.onto (h0 : m.gcThreshold = 0) (hne : m.frames ≠ []) (h : m.Effect scope i after) :
    (m.onto code offset before).Effect scope i (after.onto code offset before) := by
  cases h with
  | pushConst v => exact .pushConst v
  | pop hs => exact .pop hs
  | lookup hf => exact .lookup hf
  | lookupPrimitive hf hp => exact .lookupPrimitive hf hp
  | define hs hd => exact .define hs hd
  | @jumpIfTruthy distance v rest hs =>
    have he : (m.onto code offset before).Effect scope (.jumpIfTruthy distance) _ :=
      .jumpIfTruthy hs
    rw [jump_onto] at he
    split at he
    · rwa [if_pos ‹_›]
    · rwa [if_neg ‹_›]
  | @jumpIfFalsy distance v rest hs =>
    have he : (m.onto code offset before).Effect scope (.jumpIfFalsy distance)
        (if v.isFalsy then (({ m with stack := rest } : Machine).onto code offset before).jump
          distance else ({ m with stack := rest } : Machine).onto code offset before) :=
      .jumpIfFalsy hs
    rw [jump_onto] at he
    split at he
    · rwa [if_pos ‹_›]
    · rwa [if_neg ‹_›]
  | @finish frame v rest hf hs =>
    have hframes : (m.onto code offset before).frames =
        [⟨code, frame.ip + offset, frame.scope⟩] := by
      simp only [Machine.onto, hf]
      rfl
    exact .finish hframes hs
  | @ret frame caller frames v params body closed below hf hs =>
    obtain ⟨g, rest, hg, -⟩ := exists_rebased_cons code offset caller frames
    have hframes : (m.onto code offset before).frames = frame :: g :: rest := by
      simp only [Machine.onto, hf, rebased, hg]
    have he : (m.onto code offset before).Effect scope .ret _ := .ret hframes hs
    simp only [Machine.onto, hg] at he ⊢
    exact he
  | makeClosure hs => exact .makeClosure hs
  | call hs hn hc => exact .call hs hn (hc.onto h0 hne)
  | callAt hn hm hc => exact .callAt hn hm (hc.onto h0 hne)
  | callPrimitive hs hn hp ha => exact .callPrimitive hs hn hp ha
  | apply hs hl hc => exact .apply hs hl (hc.onto h0 hne)
  | display hs =>
    have he : (m.onto code offset before).Effect scope .display _ := .display hs
    simp only [Machine.onto, ← List.append_assoc] at he ⊢
    exact he

/-- **A step is taken in the same way**, if the outermost frame finds the same instruction where it
points to. -/
theorem advance_onto (h0 : m.gcThreshold = 0)
    (hfetch : ∀ f i, m.frames = [f] → fetch f = .ok i →
      fetch ⟨code, f.ip + offset, f.scope⟩ = .ok i)
    (ha : m.advance = .ok after) :
    (m.onto code offset before).advance = .ok (after.onto code offset before) := by
  obtain ⟨f, frames, i, next, hf, hi, he, rfl⟩ := advance_eq_ok.mp ha
  have hne : (m.jump 1).frames ≠ [] := by simp [jump, hf]
  have he' : ((m.jump 1).onto code offset before).Effect f.scope i (next.onto code offset before) :=
    he.onto ((jump_gcThreshold 1).trans h0) hne
  rw [← jump_onto] at he'
  have hsteps : ({ next with steps := next.steps + 1 } : Machine).onto code offset before =
      { next.onto code offset before with
        steps := (next.onto code offset before).steps + 1 } := rfl
  rw [hsteps]
  cases frames with
  | nil =>
    have hframes : (m.onto code offset before).frames = [⟨code, f.ip + offset, f.scope⟩] := by
      simp only [onto, hf]
      rfl
    exact advance_eq_ok.mpr ⟨_, _, i, _, hframes, hfetch f i hf hi, he', rfl⟩
  | cons caller frames =>
    have hframes : (m.onto code offset before).frames =
        f :: rebased code offset (caller :: frames) := by
      simp only [onto, hf]
      rfl
    exact advance_eq_ok.mpr ⟨_, _, i, _, hframes, hi, he', rfl⟩

/-! ## Calls on top of a program -/

/-- **The frames while a program runs**: the outermost one runs its code in the global scope, and
calls run in scopes of their own. -/
inductive Based (code : Code) : List Frame → Prop
  | program (ip : Int) : Based code [⟨code, ip, Arena.globalId⟩]
  | call {f : Frame} {frames : List Frame} (hs : Arena.globalId < f.scope)
      (h : Based code frames) : Based code (f :: frames)

/-- **Steps keep the outermost frame**, until it is left. -/
theorem Based.advance (hb : Based code m.frames) (hnext : Arena.globalId < m.arena.nextId)
    (ha : m.advance = .ok after) : after.frames = [] ∨ Based code after.frames := by
  obtain ⟨f, frames, i, next, hf, -, he, rfl⟩ := advance_eq_ok.mp ha
  have hjump : (m.jump 1).frames = { f with ip := f.ip + 1 } :: frames := by simp [jump, hf]
  have hmoved : ∀ ip : Int, Based code ({ f with ip := ip } :: frames) := by
    intro ip
    rw [hf] at hb
    cases hb with
    | program => exact .program ip
    | call hs h => exact .call hs h
  rcases he.frames hjump with ⟨distance, -, hn⟩ | ⟨g, -, hg, hn⟩ | ⟨-, hn⟩
  · exact .inr (hn ▸ hmoved _)
  · refine .inr (hn ▸ .call ?_ (hmoved _))
    rwa [hg, jump_arena]
  · rw [hf] at hb
    cases hb with
    | program => exact .inl hn
    | call _ h => exact .inr (hn ▸ h)

/-- **A machine on its way through a program**, in order and with its frames on top of the
program's. -/
structure Underway (code : Code) (m : Machine) : Prop where
  compiled : m.Compiled
  settled : m.Settled
  rooted : m.Rooted
  based : m.frames = [] ∨ Based code m.frames

namespace Underway

theorem globalId_lt (h : m.Underway code) : Arena.globalId < m.arena.nextId :=
  h.rooted.arena.fresh _ h.rooted.arena.global

theorem advance (h : m.Underway code) (ha : m.advance = .ok after) : after.Underway code where
  compiled := h.compiled.advance ha
  settled := h.settled.advance h.compiled.callable ha
  rooted := h.rooted.advance ha
  based := by
    rcases h.based with hnone | hb
    · have hrun := not_halted_of_advance ha
      simp [halted, hnone] at hrun
    · exact hb.advance h.globalId_lt ha

theorem steps {n : Nat} (h : m.Underway code) (hs : Steps n m after) : after.Underway code :=
  hs.induction (fun _ _ hq ha => hq.advance ha) h

/-- The only frame of a machine is the program's, and points into its code. -/
theorem program (h : m.Underway code) {f : Frame} (hf : m.frames = [f]) :
    f.code = code ∧ f.scope = Arena.globalId ∧ f.Inside := by
  have hinside : f.Inside := by
    rcases h.settled with ⟨hnone, -⟩ | ⟨g, callers, segment, below, hrun⟩
    · cases hnone.symm.trans hf
    · obtain ⟨rfl, -⟩ := List.cons.inj (hf.symm.trans hrun.frames)
      exact Frame.inside_of_ahead hrun.inside hrun.ready.ne_nil
  rcases h.based with hnone | hb
  · cases hnone.symm.trans hf
  · rw [hf] at hb
    cases hb with
    | program ip => exact ⟨rfl, rfl, hinside⟩
    | call _ h => cases h

end Underway

theorem underway_ofProgram {arena : Arena} (hc : Code.Compiled code) (ha : arena.Compiled)
    (hr : arena.Rooted) (threshold : Int) :
    (ofProgram code arena threshold).Underway code where
  compiled := compiled_ofProgram hc ha threshold
  settled := settled_ofProgram hc threshold
  rooted := ⟨hr, fun f hf => by
    obtain rfl := List.mem_singleton.mp hf
    exact hr.global⟩
  based := .inr (.program 0)

/-! ## Joined code -/

/-- **The second program runs in the joined code** as it does on its own. -/
theorem Underway.steps_onto {n : Nat} {second : Code} (h : m.Underway second)
    (h0 : m.gcThreshold = 0) (hs : Steps n m last) (front : Code) (before : Machine) :
    Steps n (m.onto (front ++ second) front.length before)
      (last.onto (front ++ second) front.length before) := by
  induction hs with
  | zero m => exact .zero _
  | @succ n m next after ha _ ih =>
    refine .succ (advance_onto h0 ?_ ha) (ih (h.advance ha) ((gcThreshold_of_advance ha).trans h0))
    intro f i hf hi
    obtain ⟨rfl, -, hip, -⟩ := h.program hf
    rw [fetch_eq_ok hip] at hi
    rw [fetch_eq_ok (by simp only; omega)]
    have hplace : (f.ip + front.length).toNat = front.length + f.ip.toNat := by omega
    simp only [hplace]
    rw [List.getElem?_append_right (by omega), Nat.add_sub_cancel_left, hi]

/-- The first program is about to return, where the joined code has the pop. -/
theorem Underway.advance_pop {first : Code} (h : m.Underway (first ++ [.ret]))
    (h0 : m.gcThreshold = 0) (hm : m.fault = none) {f : Frame} (hf : m.frames = [f])
    (hip : f.ip = first.length) (ha : m.advance = .ok last) (second : Code) (before : Machine) :
    last.halted = true ∧ ∃ before',
      (m.onto (first ++ .pop :: second) 0 before).advance =
        .ok ((ofProgram second last.arena 0).onto (first ++ .pop :: second) (first.length + 1)
          before') ∧
      before'.output = before.output ++ last.output := by
  have hsettled := (h.advance ha).settled
  obtain ⟨hcode, hscope, hpos, -⟩ := h.program hf
  obtain ⟨g, frames, i, next, hf', hi, he, rfl⟩ := advance_eq_ok.mp ha
  obtain ⟨rfl, rfl⟩ := List.cons.inj (hf.symm.trans hf')
  have hret : i = .ret := by
    rw [fetch_eq_ok hpos, hcode, hip] at hi
    simpa [eq_comm] using hi
  subst hret
  have hjump : (m.jump 1).frames = [{ f with ip := f.ip + 1 }] := by simp [jump, hf]
  -- once it has returned, its value is all there is on the stack, and this is what the pop drops
  cases he with
  | ret hf'' => cases hjump.symm.trans hf''
  | finish _ _ =>
    refine ⟨rfl, ?_⟩
    rcases hsettled with ⟨-, v, hv⟩ | ⟨g, callers, segment, below, hrun⟩
    · have hstack : m.stack = [v] := by simpa using hv
      refine ⟨{ idle m.arena 0 with
        output := before.output ++ m.output
        steps := before.steps + m.steps + 1
        allocations := before.allocations + m.allocations }, ?_, by simp⟩
      have hpop : ((m.onto (first ++ .pop :: second) 0 before).jump 1).stack = [v] := by
        simpa [onto] using hstack
      refine advance_eq_ok.mpr ⟨⟨first ++ .pop :: second, f.ip + 0, f.scope⟩, [], .pop, _,
        by simp [onto, hf, rebased], ?_, .pop hpop, ?_⟩
      · rw [fetch_eq_ok (by simpa using hpos)]
        simp [hip]
      · simp [ofProgram, idle, onto, jump, hf, rebased, hip, hscope, h0, hm]
    · cases hrun.frames

/-- **The first program runs in the joined code** up to its return, and the pop drops its value. -/
theorem Underway.exists_steps_pop {n : Nat} {first : Code} (hr : Instruction.ret ∉ first)
    (h : m.Underway (first ++ [.ret])) (h0 : m.gcThreshold = 0) (hm : m.fault = none)
    (hrun : m.halted = false) (hs : Steps n m last) (hlast : last.halted = true) (second : Code)
    (before : Machine) :
    ∃ before', Steps n (m.onto (first ++ .pop :: second) 0 before)
      ((ofProgram second last.arena 0).onto (first ++ .pop :: second) (first.length + 1) before') ∧
      before'.output = before.output ++ last.output := by
  induction hs with
  | zero m => cases hrun.symm.trans hlast
  | @succ n m next last ha hs ih =>
    -- the two codes differ in the last instruction of the first program, and it is the program's
    -- own frame that comes to it last
    by_cases hend : ∃ f, m.frames = [f] ∧ f.ip = first.length
    · obtain ⟨f, hf, hip⟩ := hend
      obtain ⟨hhalted, before', hpop, hout⟩ :=
        h.advance_pop h0 hm hf hip ha second before
      cases hs with
      | zero => exact ⟨before', .single hpop, hout⟩
      | succ ha' _ => cases hhalted.symm.trans (not_halted_of_advance ha')
    · have hfetch : ∀ f i, m.frames = [f] → fetch f = .ok i → first[f.ip.toNat]? = some i := by
        intro f i hf hi
        obtain ⟨hcode, -, hip, hlt⟩ := h.program hf
        have hne : f.ip ≠ first.length := fun he => hend ⟨f, hf, he⟩
        rw [fetch_eq_ok hip, hcode] at hi
        rw [hcode, List.length_append, List.length_singleton] at hlt
        rwa [List.getElem?_append_left (by omega)] at hi
      have hnext : next.halted = false := by
        obtain ⟨f, frames, i, after, hf, hi, he, rfl⟩ := advance_eq_ok.mp ha
        have hjump : (m.jump 1).frames = { f with ip := f.ip + 1 } :: frames := by
          simp [jump, hf]
        rcases he.frames hjump with ⟨distance, -, hn⟩ | ⟨g, -, -, hn⟩ | ⟨rfl, hn⟩
        · simp [halted, hn]
        · simp [halted, hn]
        · -- there is no return before the last instruction
          cases frames with
          | nil => exact absurd (List.mem_of_getElem? (hfetch f _ hf hi)) hr
          | cons caller frames => simp [halted, hn]
      have hadvance : (m.onto (first ++ .pop :: second) 0 before).advance =
          .ok (next.onto (first ++ .pop :: second) 0 before) := by
        refine advance_onto h0 (fun f i hf hi => ?_) ha
        obtain ⟨-, -, hip, -⟩ := h.program hf
        have hi := hfetch f i hf hi
        rw [fetch_eq_ok (by simpa using hip)]
        have hlt := (List.getElem?_eq_some_iff.mp hi).1
        simp only [Int.natCast_zero, Int.add_zero]
        rw [List.getElem?_append_left hlt, hi]
      obtain ⟨before', hsteps, hout⟩ := ih (h.advance ha)
        ((gcThreshold_of_advance ha).trans h0) ((fault_of_advance ha).trans hm) hnext hlast
      exact ⟨before', .succ hadvance hsteps, hout⟩

/-- A program without forms does nothing but leave a value. -/
theorem arena_output_of_empty {n : Nat} {arena : Arena} {threshold : Int}
    (hs : Steps n (ofProgram [.pushConst .nil, .ret] arena threshold) last)
    (hl : last.halted = true) : last.arena = arena ∧ last.output = [] := by
  cases hs with
  | zero => cases hl
  | succ ha hs =>
    cases ha
    cases hs with
    | zero => cases hl
    | succ ha hs =>
      cases ha
      cases hs with
      | zero => exact ⟨rfl, rfl⟩
      | succ ha _ => cases ha

/-- **The joined code does what the two programs do**, one after the other. -/
theorem exists_steps_joined {n n' : Nat} {first second joined : Code} {arena : Arena}
    {last last' : Machine} (hj : Code.Joined second first joined) (hc : Code.Compiled first)
    (hc' : Code.Compiled second) (ha : arena.Compiled) (hr : arena.Rooted)
    (hs : Steps n (ofProgram first arena 0) last) (hl : last.halted = true)
    (hs' : Steps n' (ofProgram second last.arena 0) last') (hl' : last'.halted = true) :
    ∃ k final, k ≤ n + n' ∧ Steps k (ofProgram joined arena 0) final ∧ final.halted = true ∧
      final.stack = last'.stack ∧ final.arena = last'.arena ∧
      final.output = last.output ++ last'.output := by
  cases hj with
  | empty =>
    obtain ⟨harena, hout⟩ := arena_output_of_empty hs hl
    rw [harena] at hs'
    exact ⟨n', last', Nat.le_add_left n' n, hs', hl', rfl, rfl, by rw [hout, List.nil_append]⟩
  | @sequel first hret =>
    have hunder := underway_ofProgram hc ha hr 0
    have hend := hunder.steps hs
    have harena : last.arena.Compiled := fun id s hget => (hend.compiled.arena id s trivial hget).1
    obtain ⟨before, hsteps, hout⟩ :=
      hunder.exists_steps_pop hret rfl rfl rfl hs hl second (idle arena 0)
    have hsecond := (underway_ofProgram hc' harena hend.rooted.arena 0).steps_onto rfl hs'
      (first ++ [.pop]) before
    rw [List.length_append, List.length_singleton, List.append_assoc, List.singleton_append]
      at hsecond
    have hstart : (ofProgram (first ++ [.ret]) arena 0).onto (first ++ .pop :: second) 0
        (idle arena 0) = ofProgram (first ++ .pop :: second) arena 0 := rfl
    rw [hstart] at hsteps
    have hnone : last'.frames = [] := by simpa [halted] using hl'
    refine ⟨n + n', _, Nat.le_refl _, hsteps.trans hsecond, ?_, rfl, rfl, ?_⟩
    · simp [halted, onto, hnone, rebased]
    · simp only [onto, hout]
      rfl

/-! ## Names -/

theorem mem_globalNames {a : Arena} {name : String} :
    name ∈ a.globalNames ↔ ∃ s, a.get? Arena.globalId = some s ∧ name ∈ s.vars.names := by
  unfold Arena.globalNames
  cases a.get? Arena.globalId <;> simp

/-- **Only definitions in the global scope** bind names there. -/
theorem Effect.globalNames (hnext : Arena.globalId < m.arena.nextId)
    (h : m.Effect scope i after) {name : String} (hn : name ∈ after.arena.globalNames) :
    name ∈ m.arena.globalNames ∨ scope = Arena.globalId ∧ i = .define name := by
  have called : ∀ {args stack rest : List Value} {callee : Value},
      m.Called args stack rest callee after → name ∈ m.arena.globalNames := by
    intro args stack rest callee hc
    cases hc with
    | closure hb ha =>
      obtain ⟨s, hs, hname⟩ := mem_globalNames.mp hn
      have hget := get?_noteAllocation hs
      rw [Arena.get?_allocate ha, if_neg (Int.ne_of_gt hnext)] at hget
      exact mem_globalNames.mpr ⟨s, hget, hname⟩
    | primitive hp ha => exact hn
  cases h with
  | @define other v rest arena hs hd =>
    obtain ⟨s, hget, hname⟩ := mem_globalNames.mp hn
    rw [Arena.get?_define hd] at hget
    obtain ⟨old, hold, rfl⟩ := Option.map_eq_some_iff.mp hget
    split at hname
    · rename_i hscope
      rcases Bindings.mem_names_set hname with rfl | hname
      · exact .inr ⟨hscope, rfl⟩
      · exact .inl (mem_globalNames.mpr ⟨old, hold, hname⟩)
    · exact .inl (mem_globalNames.mpr ⟨old, hold, hname⟩)
  | call _ _ hc => exact .inl (called hc)
  | callAt _ _ hc => exact .inl (called hc)
  | apply _ _ hc => exact .inl (called hc)
  | jumpIfTruthy _ =>
    refine .inl ?_
    split at hn <;> simpa using hn
  | jumpIfFalsy _ =>
    refine .inl ?_
    split at hn <;> simpa using hn
  | _ => exact .inl hn

/-- **A program binds globally what its own code defines**, and nothing else: calls define names in
scopes of their own. -/
theorem Underway.globalNames {n : Nat} (h : m.Underway code) (hs : Steps n m last) {name : String}
    (hn : name ∈ last.arena.globalNames) :
    name ∈ m.arena.globalNames ∨ Instruction.define name ∈ code := by
  induction hs with
  | zero m => exact .inl hn
  | @succ n m next last ha _ ih =>
    rcases ih (h.advance ha) hn with hn | hdefine
    · obtain ⟨f, frames, i, after, hf, hi, he, rfl⟩ := advance_eq_ok.mp ha
      have hnext : Arena.globalId < (m.jump 1).arena.nextId := by
        rw [jump_arena]
        exact h.globalId_lt
      rcases he.globalNames hnext hn with hn | ⟨hscope, rfl⟩
      · exact .inl (by simpa using hn)
      · refine .inr ?_
        rcases h.based with hnone | hb
        · cases hnone.symm.trans hf
        · rw [hf] at hb
          cases hb with
          | program ip => exact mem_of_fetch hi
          | call hlt _ => exact absurd hscope (Int.ne_of_gt hlt)
    · exact .inr hdefine

end Machine

end StackLisp
