import StackLisp.Proofs.Arena.Find
import StackLisp.Proofs.Machine.Kept
import StackLisp.Proofs.Machine.Steps
import StackLisp.Proofs.Value.Bare

/-!
# Machines up to locations

Two machines are **alike** (`Machine.Like`) if they differ in locations only: on their stacks, in
the code of their frames and in the scopes of their arenas.  Then **each takes the steps of the
other** (`Like.steps`), to machines that are alike again.  They collect at the same time, and
since locations lead nowhere, they drop the same scopes (`Arena.Like.collect`).
-/

namespace StackLisp

/-- What is like a list with a first item has a first item. -/
theorem exists_cons_of_map {α β : Type} {f : α → β} {v : α} {vs ws : List α}
    (h : ws.map f = (v :: vs).map f) : ∃ w rest, ws = w :: rest ∧ f w = f v ∧
      rest.map f = vs.map f :=
  List.map_eq_cons_iff.mp h

/-- What is like a list of two parts has two parts. -/
theorem exists_append_of_map {α β : Type} {f : α → β} {us vs ws : List α}
    (h : ws.map f = (us ++ vs).map f) : ∃ us' vs', ws = us' ++ vs' ∧ us'.map f = us.map f ∧
      vs'.map f = vs.map f := by
  rw [List.map_append] at h
  obtain ⟨us', vs', rfl, hu, hv⟩ := List.map_eq_append_iff.mp h
  exact ⟨us', vs', rfl, hu, hv⟩

/-! ## Arenas -/

/-- The scope with its values' locations left out. -/
def Scope.bare (s : Scope) : Scope :=
  ⟨s.vars.bare, s.parent⟩

theorem Scope.leadsTo_bare {s : Scope} {id : ScopeId} : s.bare.LeadsTo id ↔ s.LeadsTo id := by
  rw [Scope.LeadsTo, Scope.LeadsTo, Scope.bare, Bindings.values_bare, Value.exists_holds_bare]

theorem Scope.get?_of_bare {s s' : Scope} (h : s'.bare = s.bare) (name : String) :
    (s'.vars.get? name).map Value.bare = (s.vars.get? name).map Value.bare := by
  rw [← Bindings.get?_bare, ← Bindings.get?_bare]
  exact congrArg (·.vars.get? name) h

namespace Arena

/-- **Arenas with the same scopes up to locations**, whose names were bound in the same order. -/
structure Like (a b : Arena) : Prop where
  nextId : b.nextId = a.nextId
  get? : ∀ id, (b.get? id).map Scope.bare = (a.get? id).map Scope.bare

variable {a b : Arena}

namespace Like

theorem refl (a : Arena) : a.Like a :=
  ⟨rfl, fun _ => rfl⟩

theorem symm (h : a.Like b) : b.Like a :=
  ⟨h.nextId.symm, fun id => (h.get? id).symm⟩

theorem trans {c : Arena} (h : a.Like b) (h' : b.Like c) : a.Like c :=
  ⟨h'.nextId.trans h.nextId, fun id => (h'.get? id).trans (h.get? id)⟩

theorem exists_get? (h : a.Like b) {id : ScopeId} {s : Scope} (hs : a.get? id = some s) :
    ∃ s', b.get? id = some s' ∧ s'.bare = s.bare := by
  have hget := h.get? id
  rw [hs, Option.map_some, Option.map_eq_some_iff] at hget
  exact hget

theorem contains (h : a.Like b) (id : ScopeId) : b.contains id = a.contains id := by
  have hsome := congrArg Option.isSome (h.get? id)
  rw [Option.isSome_map, Option.isSome_map] at hsome
  rw [Arena.contains, Arena.contains, Std.TreeMap.contains_eq_isSome_getElem?,
    Std.TreeMap.contains_eq_isSome_getElem?]
  exact hsome

theorem size (h : a.Like b) : b.size = a.size := by
  have hkeys : b.scopes.keys.Perm a.scopes.keys := by
    rw [List.perm_ext_iff_of_nodup Std.TreeMap.nodup_keys Std.TreeMap.nodup_keys]
    intro id
    rw [Std.TreeMap.mem_keys, Std.TreeMap.mem_keys, ← Std.TreeMap.contains_iff_mem,
      ← Std.TreeMap.contains_iff_mem]
    exact iff_of_eq (congrArg (· = true) (h.contains id))
  rw [Arena.size, Arena.size, ← Std.TreeMap.length_keys, ← Std.TreeMap.length_keys]
  exact hkeys.length_eq

theorem globalNames (h : a.Like b) : b.globalNames = a.globalNames := by
  have hget := h.get? globalId
  unfold Arena.globalNames
  cases ha : a.get? globalId with
  | none =>
    rw [ha, Option.map_none, Option.map_eq_none_iff] at hget
    rw [hget]
  | some s =>
    obtain ⟨s', hs, hbare⟩ := h.exists_get? ha
    have hvars := congrArg Scope.vars hbare
    simp only [Scope.bare] at hvars
    rw [hs]
    simpa using congrArg Bindings.names hvars

/-- The scope of an id is the same, or missing in both. -/
theorem get (h : a.Like b) (id : ScopeId) : Matches Eq (Upto Scope.bare) (a.get id) (b.get id) := by
  have hget := h.get? id
  unfold Arena.get
  cases ha : a.get? id with
  | none =>
    rw [ha, Option.map_none, Option.map_eq_none_iff] at hget
    rw [hget]
    exact .error rfl
  | some s =>
    obtain ⟨s', hs, hbare⟩ := h.exists_get? ha
    rw [hs]
    exact .ok hbare

theorem findWithin (h : a.Like b) (name : String) (fuel : Nat) (id : ScopeId) :
    Matches Eq (Upto (Option.map (·.2.bare))) (a.findWithin name fuel id)
      (b.findWithin name fuel id) := by
  induction fuel generalizing id with
  | zero =>
    refine (h.get id).bind fun s s' hbare => .ok ?_
    have hvar := Scope.get?_of_bare hbare name
    simpa [Function.comp_def] using hvar
  | succ fuel ih =>
    refine (h.get id).bind fun s s' hbare => ?_
    have hvar := Scope.get?_of_bare hbare name
    have hparent : s'.bare.parent = s.bare.parent := congrArg Scope.parent hbare
    simp only [Scope.bare] at hparent
    rw [hparent]
    cases hv : s.vars.get? name with
    | some v =>
      rw [hv, Option.map_some, Option.map_eq_some_iff] at hvar
      obtain ⟨v', hv', hbare'⟩ := hvar
      rw [hv']
      exact .ok (congrArg some hbare')
    | none =>
      rw [hv, Option.map_none, Option.map_eq_none_iff] at hvar
      rw [hvar]
      cases s.parent with
      | none => exact .ok rfl
      | some parent => exact ih parent

/-- **Look-ups find the same value** up to locations, or none, or miss the same scope. -/
theorem find (h : a.Like b) (id : ScopeId) (name : String) :
    Matches Eq (Upto (Option.map (·.2.bare))) (a.find id name) (b.find id name) := by
  -- scopes are searched to a depth that depends on how many there are
  rw [Arena.find, Arena.find, h.size]
  exact h.findWithin name a.size id

theorem exists_define (h : a.Like b) {a' : Arena} {id : ScopeId} {name : String} {v w : Value}
    (hv : w.bare = v.bare) (hd : a.define id name v = .ok a') :
    ∃ b', b.define id name w = .ok b' ∧ a'.Like b' := by
  obtain ⟨s, hs, -⟩ := bind_eq_ok.mp hd
  obtain ⟨s', hs', -⟩ := h.exists_get? (get_eq_ok.mp hs)
  have hd' : b.define id name w = .ok _ := bind_eq_ok.mpr ⟨s', get_eq_ok.mpr hs', rfl⟩
  refine ⟨_, hd', ?_, fun k => ?_⟩
  · rw [nextId_of_define hd', nextId_of_define hd, h.nextId]
  · have hget := h.get? k
    rw [get?_define hd', get?_define hd]
    cases ha : a.get? k with
    | none =>
      rw [ha, Option.map_none, Option.map_eq_none_iff] at hget
      rw [hget]
      rfl
    | some t =>
      obtain ⟨t', ht', hbare⟩ := h.exists_get? ha
      rw [ht']
      simp only [Option.map_some, Option.some.injEq]
      split
      · simp only [Scope.bare, Scope.mk.injEq] at hbare ⊢
        rw [← Bindings.set_bare, ← Bindings.set_bare, hbare.1, hv]
        exact ⟨rfl, hbare.2⟩
      · exact hbare

theorem exists_allocate (h : a.Like b) {a' : Arena} {vars vars' : Bindings} {parent id : ScopeId}
    (hv : vars'.bare = vars.bare) (ha : a.allocate vars parent = .ok (id, a')) :
    ∃ b', b.allocate vars' parent = .ok (id, b') ∧ a'.Like b' := by
  obtain ⟨rfl, hnext, hcontains⟩ := id_of_allocate ha
  have hb : b.allocate vars' parent =
      .ok (a.nextId, ⟨b.scopes.insert b.nextId ⟨vars', some parent⟩, b.nextId + 1⟩) := by
    rw [allocate, if_pos ((h.contains parent).trans hcontains), h.nextId]
  refine ⟨_, hb, ?_, fun k => ?_⟩
  · rw [hnext, h.nextId]
  · rw [get?_allocate hb, get?_allocate ha, h.nextId]
    split
    · simp [Scope.bare, hv]
    · exact h.get? k

/-- The same scopes are reached. -/
theorem reached (h : a.Like b) {R R' : ScopeId → Prop} (hR : ∀ id, R id → R' id) {id : ScopeId}
    (hid : a.Reached R id) : b.Reached R' id := by
  induction hid with
  | root hr => exact .root (hR _ hr)
  | step _ hs hl ih =>
    obtain ⟨s', hs', hbare⟩ := h.exists_get? hs
    exact ih.step hs' (Scope.leadsTo_bare.mp (hbare ▸ Scope.leadsTo_bare.mpr hl))

/-- **A collection drops the same scopes.** -/
theorem collect (h : a.Like b) {roots : List ScopeId} {values values' : List Value}
    (hv : values'.map Value.bare = values.map Value.bare) :
    (a.collect roots values).Like (b.collect roots values') := by
  have hroot : ∀ id, IsRoot roots values id ↔ IsRoot roots values' id := by
    intro id
    rw [IsRoot, IsRoot, ← Value.exists_holds_bare, ← hv, Value.exists_holds_bare]
  refine ⟨h.nextId, fun id => ?_⟩
  by_cases hid : a.Reached (IsRoot roots values) id
  · have hid' := h.reached (fun k => (hroot k).mp) hid
    rw [get?_collect_of_reached hid, get?_collect_of_reached hid']
    exact h.get? id
  · have hid' : ¬ b.Reached (IsRoot roots values') id :=
      fun hr => hid (h.symm.reached (fun k => (hroot k).mpr) hr)
    rw [get?_collect_of_not_reached hid, get?_collect_of_not_reached hid']

end Like

end Arena

/-! ## Values, frames and code -/

/-- What is a closure up to locations is a closure. -/
theorem Value.exists_closure {w : Value} {params : Parameters} {code : Code} {scope : ScopeId}
    (h : w.bare = (closure params code scope).bare) :
    ∃ code', w = closure params code' scope ∧ bareCode code' = bareCode code := by
  cases w with
  | closure params' code' scope' =>
    simp only [Value.bare, closure.injEq] at h
    obtain ⟨rfl, hcode, rfl⟩ := h
    exact ⟨code', rfl, hcode⟩
  | _ => cases h

theorem Value.exists_template {w : Value} {params : Parameters} {code : Code}
    (h : w.bare = (template params code).bare) :
    ∃ code', w = template params code' ∧ bareCode code' = bareCode code := by
  cases w with
  | template params' code' =>
    simp only [Value.bare, template.injEq] at h
    obtain ⟨rfl, hcode⟩ := h
    exact ⟨code', rfl, hcode⟩
  | _ => cases h

theorem Value.eq_symbol_of_bare {w : Value} {name : String}
    (h : w.bare = (symbol name).bare) : w = symbol name := by
  cases w <;> cases h
  rfl

/-- The elements of what is a list up to locations. -/
theorem Value.exists_list? {v w : Value} {items : List Value} (h : w.bare = v.bare)
    (hl : v.list? = some items) :
    ∃ items', w.list? = some items' ∧ items'.map Value.bare = items.map Value.bare := by
  have hlist := congrArg Value.list? h
  rw [Value.list?_bare, Value.list?_bare, hl, Option.map_some, Option.map_eq_some_iff] at hlist
  exact hlist

theorem Value.list?_eq_none {v w : Value} (h : w.bare = v.bare) (hl : v.list? = none) :
    w.list? = none := by
  have hlist := congrArg Value.list? h
  rwa [Value.list?_bare, Value.list?_bare, hl, Option.map_none, Option.map_eq_none_iff] at hlist

/-- An instruction up to locations: only the constant that it pushes may differ. -/
theorem Instruction.cases_of_bare {i j : Instruction} (h : j.bare = i.bare) :
    (∃ v w, i = pushConst v ∧ j = pushConst w ∧ w.bare = v.bare) ∨ j = i := by
  cases i with
  | pushConst v =>
    cases j with
    | pushConst w => exact .inl ⟨v, w, rfl, rfl, pushConst.inj h⟩
    | _ => cases h
  | _ =>
    cases j <;> cases h
    exact .inr rfl

/-- The frame with the locations in its code left out. -/
def Frame.bare (f : Frame) : Frame :=
  { f with code := bareCode f.code }

/-- The outcome without locations. -/
def Outcome.bare : Outcome → Outcome
  | value v => value v.bare
  | fault f => fault f.bare
  | running => running

namespace Outcome
variable {out : Outcome}

theorem exists_value {v : Value} (h : out.bare = (value v).bare) :
    ∃ w, out = value w ∧ w.bare = v.bare := by
  cases out with
  | value w => exact ⟨w, rfl, value.inj h⟩
  | _ => cases h

theorem exists_fault {f : Fault} (h : out.bare = (fault f).bare) :
    ∃ f', out = fault f' ∧ f'.bare = f.bare := by
  cases out with
  | fault f' => exact ⟨f', rfl, fault.inj h⟩
  | _ => cases h

theorem eq_running_of_bare (h : out.bare = running.bare) : out = running := by
  cases out <;> cases h
  rfl

end Outcome

namespace Machine

/-- **Machines that are the same up to locations.** -/
structure Like (m n : Machine) : Prop where
  arena : m.arena.Like n.arena
  stack : n.stack.map Value.bare = m.stack.map Value.bare
  frames : n.frames.map Frame.bare = m.frames.map Frame.bare
  output : n.output = m.output
  fault : n.fault = m.fault
  gcThreshold : n.gcThreshold = m.gcThreshold
  allocations : n.allocations = m.allocations

theorem closureConstants_bare (code : Code) :
    closureConstants (bareCode code) = (closureConstants code).map Value.bare := by
  induction code with
  | nil => rfl
  | cons i code ih =>
    simp only [closureConstants] at ih ⊢
    cases i with
    | pushConst v =>
      cases v with
      | closure params body scope =>
        simp only [bareCode, Instruction.bare, Value.bare, List.filterMap_cons, ih, List.map_cons]
      | _ => exact ih
    | _ => exact ih

variable {m n after : Machine} {scope : ScopeId} {i j : Instruction}

theorem halted_of_bare (hf : n.frames.map Frame.bare = m.frames.map Frame.bare) :
    n.halted = m.halted := by
  have hempty := congrArg List.isEmpty hf
  rwa [List.isEmpty_map, List.isEmpty_map] at hempty

/-- **What one machine ends with, the other ends with**: only frames and stack matter. -/
theorem outcome_of_bare (hf : n.frames.map Frame.bare = m.frames.map Frame.bare)
    (hs : n.stack.map Value.bare = m.stack.map Value.bare) :
    n.outcome.bare = m.outcome.bare := by
  unfold outcome result
  cases hm : m.frames with
  | cons f frames =>
    obtain ⟨g, rest, hn, -, -⟩ := exists_cons_of_map (hm ▸ hf)
    rw [hn]
  | nil =>
    rw [hm, List.map_nil, List.map_eq_nil_iff] at hf
    rw [hf]
    cases hv : m.stack with
    | cons v rest =>
      obtain ⟨w, rest', hw, hbare, -⟩ := exists_cons_of_map (hv ▸ hs)
      rw [hw]
      exact congrArg Outcome.value hbare
    | nil =>
      rw [hv, List.map_nil, List.map_eq_nil_iff] at hs
      rw [hs]

/-- **The same instruction is fetched**, or none in both. -/
theorem fetch_matches {f g : Frame} (h : g.bare = f.bare) :
    Matches Eq (Upto Instruction.bare) (fetch f) (fetch g) := by
  simp only [Frame.bare, Frame.mk.injEq] at h
  obtain ⟨hcode, hip, -⟩ := h
  have hlen : g.code.length = f.code.length := by
    rw [← length_bareCode, hcode, length_bareCode]
  have hget : ∀ place : Nat, (g.code[place]?).map Instruction.bare =
      (f.code[place]?).map Instruction.bare := by
    intro place
    rw [← List.getElem?_map, ← List.getElem?_map, ← bareCode_eq, ← bareCode_eq, hcode]
  unfold fetch
  simp only [hip, hlen]
  generalize (if f.ip < 0 then f.ip + f.code.length else f.ip) = place
  split
  · exact .error rfl
  · have hplace := hget place.toNat
    cases hi : f.code[place.toNat]? with
    | none =>
      rw [hi, Option.map_none, Option.map_eq_none_iff] at hplace
      rw [hplace]
      exact .error rfl
    | some i =>
      rw [hi, Option.map_some, Option.map_eq_some_iff] at hplace
      obtain ⟨j, hj, hbare⟩ := hplace
      rw [hj]
      exact .ok hbare

namespace Like

theorem scopes (h : m.Like n) : n.frames.map (·.scope) = m.frames.map (·.scope) := by
  have hscopes := congrArg (List.map Frame.scope) h.frames
  rwa [List.map_map, List.map_map] at hscopes

theorem rootValues (h : m.Like n) :
    n.rootValues.map Value.bare = m.rootValues.map Value.bare := by
  have hconstants : ∀ frames : List Frame,
      (frames.flatMap fun f => closureConstants f.code).map Value.bare =
        (frames.map Frame.bare).flatMap fun f => closureConstants f.code := by
    intro frames
    rw [List.map_flatMap, List.flatMap_map]
    congr 1
    funext f
    exact (closureConstants_bare f.code).symm
  rw [Machine.rootValues, Machine.rootValues, List.map_append, List.map_append, h.stack,
    hconstants, hconstants, h.frames]

theorem jump (h : m.Like n) (offset : Int) : (m.jump offset).Like (n.jump offset) := by
  unfold Machine.jump
  cases hf : m.frames with
  | nil =>
    have hframes := h.frames
    rw [hf, List.map_nil, List.map_eq_nil_iff] at hframes
    rw [hframes]
    exact h
  | cons f frames =>
    obtain ⟨g, rest, hg, hbare, hrest⟩ := exists_cons_of_map (hf ▸ h.frames)
    simp only [Frame.bare, Frame.mk.injEq] at hbare
    rw [hg]
    refine ⟨h.arena, h.stack, ?_, h.output, h.fault, h.gcThreshold, h.allocations⟩
    simp [Frame.bare, hbare, hrest]

theorem collectGarbage (h : m.Like n) : m.collectGarbage.Like n.collectGarbage := by
  refine ⟨?_, h.stack, h.frames, h.output, h.fault, h.gcThreshold, h.allocations⟩
  unfold Machine.collectGarbage
  rw [h.scopes]
  exact h.arena.collect h.rootValues

theorem noteAllocation (h : m.Like n) : m.noteAllocation.Like n.noteAllocation := by
  have hnote : ∀ count, ({ m with allocations := count } : Machine).Like
      { n with allocations := count } := fun count =>
    ⟨h.arena, h.stack, h.frames, h.output, h.fault, h.gcThreshold, rfl⟩
  unfold Machine.noteAllocation
  simp only
  rw [h.allocations]
  by_cases hgc : m.gcThreshold ≠ 0 ∧ m.gcThreshold ≤ ↑(m.allocations + 1)
  · rw [if_pos hgc, if_pos (h.gcThreshold ▸ hgc)]
    exact (hnote 0).collectGarbage
  · rw [if_neg hgc, if_neg (h.gcThreshold ▸ hgc)]
    exact hnote _

/-- The machine with another stack. -/
theorem withStack (h : m.Like n) {stack stack' : List Value}
    (hs : stack'.map Value.bare = stack.map Value.bare) :
    ({ m with stack := stack } : Machine).Like { n with stack := stack' } :=
  ⟨h.arena, hs, h.frames, h.output, h.fault, h.gcThreshold, h.allocations⟩

/-- The arguments of a call, on top of the stack and the last of them first. -/
theorem exists_args (h : m.Like n) {args below : List Value}
    (hs : m.stack = args.reverse ++ below) :
    ∃ args' below' : List Value, n.stack = args'.reverse ++ below' ∧ args'.length = args.length ∧
      args'.map Value.bare = args.map Value.bare ∧
      below'.map Value.bare = below.map Value.bare := by
  obtain ⟨top, below', hs', htop, hbelow⟩ := exists_append_of_map (hs ▸ h.stack)
  have hargs : top.reverse.map Value.bare = args.map Value.bare := by
    rw [List.map_reverse, htop, List.map_reverse, List.reverse_reverse]
  have hlen : top.reverse.length = args.length := by simpa using congrArg List.length hargs
  exact ⟨top.reverse, below', by rw [List.reverse_reverse, hs'], hlen, hargs, hbelow⟩

/-- **Calls are alike.** -/
theorem called (h : m.Like n) {args args' stack stack' rest rest' : List Value}
    {callee callee' : Value} (ha : args'.map Value.bare = args.map Value.bare)
    (hs : stack'.map Value.bare = stack.map Value.bare)
    (hr : rest'.map Value.bare = rest.map Value.bare) (hc : callee'.bare = callee.bare)
    (hcall : m.Called args stack rest callee after) :
    ∃ after', n.Called args' stack' rest' callee' after' ∧ after.Like after' := by
  cases hcall with
  | @closure params code closed id bindings arena hb hal =>
    obtain ⟨code', rfl, hcode⟩ := Value.exists_closure hc
    obtain ⟨bindings', hb', hbare⟩ := (params.bind_matches ha).exists_ok hb
    obtain ⟨arena', hal', harena⟩ := h.arena.exists_allocate hbare hal
    refine ⟨_, .closure hb' hal', noteAllocation ?_⟩
    refine ⟨harena, hs, ?_, h.output, h.fault, h.gcThreshold, h.allocations⟩
    simp [Frame.bare, hcode, h.frames]
  | @primitive name p value hp happ =>
    obtain rfl := Value.eq_symbol_of_bare hc
    obtain ⟨value', happ', hbare⟩ := (p.apply_matches ha).exists_ok happ
    exact ⟨_, .primitive hp happ', h.withStack (by simp [hbare, hr])⟩

/-- **Instructions have effects that are alike.** -/
theorem effect (h : m.Like n) (hi : j.bare = i.bare) (he : m.Effect scope i after) :
    ∃ after', n.Effect scope j after' ∧ after.Like after' := by
  have hstack : ∀ {v rest}, m.stack = v :: rest → ∃ w rest', n.stack = w :: rest' ∧
      w.bare = v.bare ∧ rest'.map Value.bare = rest.map Value.bare :=
    fun hs => exists_cons_of_map (hs ▸ h.stack)
  -- only constants have locations, so all other instructions are the same
  obtain ⟨v, w, rfl, rfl, hv⟩ | rfl := Instruction.cases_of_bare hi
  · cases he with
    | pushConst => exact ⟨_, .pushConst w, h.withStack (by simp [hv, h.stack])⟩
  cases he with
  | pushConst v => exact ⟨_, .pushConst v, h.withStack (by simp [h.stack])⟩
  | pop hs =>
    obtain ⟨w, rest', hs', -, hrest⟩ := hstack hs
    exact ⟨_, .pop hs', h.withStack hrest⟩
  | @lookup name id v hf =>
    obtain ⟨found, hf', hbare⟩ := (h.arena.find scope name).exists_ok hf
    rw [Upto, Option.map_some, Option.map_eq_some_iff] at hbare
    obtain ⟨⟨id', w⟩, rfl, hw⟩ := hbare
    exact ⟨_, .lookup hf', h.withStack (by simp [hw, h.stack])⟩
  | @lookupPrimitive name p hf hp =>
    obtain ⟨found, hf', hbare⟩ := (h.arena.find scope name).exists_ok hf
    rw [Upto, Option.map_none, Option.map_eq_none_iff] at hbare
    subst hbare
    exact ⟨_, .lookupPrimitive hf' hp, h.withStack (by simp [h.stack])⟩
  | define hs hd =>
    obtain ⟨w, rest', hs', hw, hrest⟩ := hstack hs
    obtain ⟨b, hd', hb⟩ := h.arena.exists_define hw hd
    exact ⟨_, .define hs' hd',
      ⟨hb, hrest, h.frames, h.output, h.fault, h.gcThreshold, h.allocations⟩⟩
  | @jumpIfTruthy offset v rest hs =>
    obtain ⟨w, rest', hs', hw, -⟩ := hstack hs
    refine ⟨_, .jumpIfTruthy hs', ?_⟩
    rw [← Value.isFalsy_bare w, hw, Value.isFalsy_bare]
    split
    · exact h
    · exact h.jump offset
  | @jumpIfFalsy offset v rest hs =>
    obtain ⟨w, rest', hs', hw, hrest⟩ := hstack hs
    refine ⟨_, .jumpIfFalsy hs', ?_⟩
    rw [← Value.isFalsy_bare w, hw, Value.isFalsy_bare]
    split
    · exact (h.withStack hrest).jump offset
    · exact h.withStack hrest
  | @finish frame v rest hf hs =>
    obtain ⟨w, rest', hs', -, -⟩ := hstack hs
    obtain ⟨g, frames, hg, -, hnone⟩ := exists_cons_of_map (hf ▸ h.frames)
    obtain rfl := List.map_eq_nil_iff.mp hnone
    exact ⟨_, .finish hg hs',
      ⟨h.arena, h.stack, rfl, h.output, h.fault, h.gcThreshold, h.allocations⟩⟩
  | @ret frame caller frames v params code closed below hf hs =>
    obtain ⟨w, rest', hs', hw, hrest⟩ := hstack hs
    obtain ⟨callee, below', rfl, hcallee, hbelow⟩ := exists_cons_of_map hrest
    obtain ⟨code', rfl, -⟩ := Value.exists_closure hcallee
    obtain ⟨g, callers, hg, -, hcallers⟩ := exists_cons_of_map (hf ▸ h.frames)
    obtain ⟨caller', frames', rfl, hcaller, hframes⟩ := exists_cons_of_map hcallers
    refine ⟨_, .ret hg hs', ⟨h.arena, ?_, ?_, h.output, h.fault, h.gcThreshold, h.allocations⟩⟩
    · simp [hw, hbelow]
    · simp [hcaller, hframes]
  | makeClosure hs =>
    obtain ⟨w, rest', hs', hw, hrest⟩ := hstack hs
    obtain ⟨code', rfl, hcode⟩ := Value.exists_template hw
    exact ⟨_, .makeClosure hs', h.withStack (by simp [Value.bare, hcode, hrest])⟩
  | @call argc callee args below after hs hn hc =>
    obtain ⟨args', rest', hs', hlen, hargs, hrest⟩ := h.exists_args hs
    obtain ⟨callee', below', rfl, hcallee, hbelow⟩ := exists_cons_of_map hrest
    obtain ⟨after', hc', hafter⟩ := h.called hargs hrest hbelow hcallee hc
    exact ⟨after', .call hs' (by rw [hlen, hn]) hc', hafter⟩
  | @callAt argc callee after hn hm hc =>
    have hcallee : (n.stack.reverse[(-argc - 1).toNat]?).map Value.bare = some callee.bare := by
      rw [← List.getElem?_map, List.map_reverse, h.stack, ← List.map_reverse, List.getElem?_map, hm]
      rfl
    obtain ⟨callee', hm', hbare⟩ := Option.map_eq_some_iff.mp hcallee
    obtain ⟨after', hc', hafter⟩ := h.called rfl h.stack h.stack hbare hc
    exact ⟨after', .callAt hn hm' hc', hafter⟩
  | @callPrimitive name argc p args below value hs hn hp ha =>
    obtain ⟨args', below', hs', hlen, hargs, hbelow⟩ := h.exists_args hs
    obtain ⟨value', ha', hvalue⟩ := (p.apply_matches hargs).exists_ok ha
    exact ⟨_, .callPrimitive hs' (by rw [hlen, hn]) hp ha',
      h.withStack (by simp [hvalue, hbelow])⟩
  | @apply list callee items below after hs hl hc =>
    obtain ⟨list', rest', hs', hlist, hrest⟩ := hstack hs
    obtain ⟨callee', below', rfl, hcallee, hbelow⟩ := exists_cons_of_map hrest
    obtain ⟨items', hl', hitems⟩ := Value.exists_list? hlist hl
    obtain ⟨after', hc', hafter⟩ := h.called hitems hrest hbelow hcallee hc
    exact ⟨after', .apply hs' hl' hc', hafter⟩
  | @display v rest hs =>
    obtain ⟨w, rest', hs', hw, hrest⟩ := hstack hs
    have htext : w.toText = v.toText := by rw [← Value.toText_bare, hw, Value.toText_bare]
    exact ⟨_, .display hs', ⟨h.arena, by simp [hrest], h.frames, by simp [h.output, htext],
      h.fault, h.gcThreshold, h.allocations⟩⟩

/-- **A step that succeeds** does so in both. -/
theorem advance (h : m.Like n) (ha : m.advance = .ok after) :
    ∃ after', n.advance = .ok after' ∧ after.Like after' := by
  obtain ⟨f, frames, i, next, hf, hi, he, rfl⟩ := advance_eq_ok.mp ha
  obtain ⟨g, rest, hg, hbare, -⟩ := exists_cons_of_map (hf ▸ h.frames)
  obtain ⟨j, hj, hij⟩ := (fetch_matches hbare).exists_ok hi
  have hscope : g.scope = f.scope := congrArg (·.scope) hbare
  obtain ⟨next', he', hnext⟩ := (h.jump 1).effect hij he
  refine ⟨_, advance_eq_ok.mpr ⟨g, rest, j, next', hg, hj, hscope ▸ he', rfl⟩, ?_⟩
  exact ⟨hnext.arena, hnext.stack, hnext.frames, hnext.output, hnext.fault, hnext.gcThreshold,
    hnext.allocations⟩

/-- **Machines that are alike take the same steps.** -/
theorem steps (h : m.Like n) {k : Nat} (hs : Steps k m after) :
    ∃ after', Steps k n after' ∧ after.Like after' := by
  induction hs generalizing n with
  | zero m => exact ⟨n, .zero n, h⟩
  | succ ha _ ih =>
    obtain ⟨next', ha', hnext⟩ := h.advance ha
    obtain ⟨after', hs', hafter⟩ := ih hnext
    exact ⟨after', .succ ha' hs', hafter⟩

/-- **Runs that end with a value end alike**, with any larger number of steps. -/
theorem runFor (h : m.Like n) (hm : m.fault = none) {fuel fuel' : Nat} (hfuel : fuel ≤ fuel')
    {v : Value} (hr : m.runFor fuel = (after, .value v)) :
    ∃ after' w, n.runFor fuel' = (after', .value w) ∧ after.Like after' ∧ w.bare = v.bare := by
  obtain ⟨k, last, hk, hs, -, hout⟩ := runFor_cases fuel hm
  rcases hout with ⟨hh, hout⟩ | ⟨f, -, -, hout⟩ | ⟨-, -, hout⟩
  · obtain ⟨rfl, hv⟩ := Prod.mk.inj (hout.symm.trans hr)
    obtain ⟨last', hs', hlast⟩ := h.steps hs
    obtain ⟨w, hw, hbare⟩ := Outcome.exists_value (hv ▸ outcome_of_bare hlast.frames hlast.stack)
    refine ⟨last', w, ?_, hlast, hbare⟩
    have hend := hs'.runFor_eq (h.fault.trans hm) (fuel' - k)
    rw [Nat.add_sub_cancel' (Nat.le_trans hk hfuel)] at hend
    rw [hend, runFor_of_halted ((halted_of_bare hlast.frames).trans hh), hw]
  · cases hout.symm.trans hr
  · cases hout.symm.trans hr

end Like

/-- The same program, up to locations, in the same arena. -/
theorem like_ofProgram {code code' : Code} {a b : Arena} (hc : bareCode code' = bareCode code)
    (ha : a.Like b) (threshold : Int) :
    (ofProgram code a threshold).Like (ofProgram code' b threshold) :=
  ⟨ha, rfl, by simp [ofProgram, Frame.bare, hc], rfl, rfl, rfl, rfl⟩

end Machine

end StackLisp
