import StackLisp.Proofs.Code.Names
import StackLisp.Proofs.Machine.Safety

/-!
# Direct calls and shadowing

A call of a primitive that the compiler has made direct skips the look-up of its name.  That is
right only as long as no scope binds the name, wherever the call is met.

Let a program without closures among its forms run where there is only a global scope, all of
whose names the compiler knew.  Then all closures that there ever are have been made by code of
the program, and their code and parameters keep to the names that its forms bind.  So **no scope
ever binds the name of a primitive that is called directly** (`direct_calls_agree`), and looking
the name up would have come to the same call.
-/

namespace StackLisp

/-! ## The names of scopes -/

namespace Bindings

theorem mem_names_set {bindings : Bindings} {name other : String} {value : Value}
    (h : other ∈ (bindings.set name value).names) : other = name ∨ other ∈ bindings.names := by
  obtain ⟨p, hp, rfl⟩ := List.mem_map.mp h
  rcases mem_set hp with rfl | hp
  · exact .inl rfl
  · exact .inr (List.mem_map_of_mem hp)

theorem mem_names_ofPairs {pairs : List (String × Value)} {name : String}
    (h : name ∈ (ofPairs pairs).names) : ∃ p ∈ pairs, p.1 = name := by
  obtain ⟨p, hp, hname⟩ := List.mem_map.mp h
  exact ⟨p, mem_ofPairs hp, hname⟩

theorem get?_eq_none {bindings : Bindings} {name : String} (h : name ∉ bindings.names) :
    bindings.get? name = none := by
  induction bindings with
  | nil => rfl
  | cons entry rest ih =>
    obtain ⟨key, value⟩ := entry
    simp only [names, List.map_cons, List.mem_cons, not_or] at h
    simp only [get?, if_neg (Ne.symm h.1)]
    exact ih h.2

end Bindings

/-- A call binds its parameters, and no other names. -/
theorem Parameters.mem_names_bind {params : Parameters} {args : List Value} {bindings : Bindings}
    (h : params.bind args = .ok bindings) {name : String} (hn : name ∈ bindings.names) :
    name ∈ params.names := by
  have pairs : name ∈ (Bindings.ofPairs (params.required.zip args)).names →
      name ∈ params.required := by
    intro hn
    obtain ⟨p, hp, rfl⟩ := Bindings.mem_names_ofPairs hn
    exact (List.of_mem_zip hp).1
  unfold Parameters.bind at h
  simp only [Parameters.names, List.mem_append]
  split at h
  · split at h
    · cases h
      exact .inl (pairs hn)
    · rename_i rest hrest
      cases h
      rcases Bindings.mem_names_set hn with rfl | hn
      · exact .inr (by simp [hrest])
      · exact .inl (pairs hn)
  · cases h

namespace Arena
variable {N : String → Prop} {a b : Arena}

/-- The scopes of an arena bind names of `N` only. -/
def BindsOnly (N : String → Prop) (a : Arena) : Prop :=
  ∀ id s, a.get? id = some s → ∀ name ∈ s.vars.names, N name

theorem BindsOnly.allocate (h : a.BindsOnly N) {vars : Bindings} {parent id : ScopeId}
    (hv : ∀ name ∈ vars.names, N name) (ha : a.allocate vars parent = .ok (id, b)) :
    b.BindsOnly N := by
  intro k s hs
  rw [get?_allocate ha] at hs
  split at hs
  · cases hs
    exact hv
  · exact h k s hs

theorem BindsOnly.define (h : a.BindsOnly N) {id : ScopeId} {name : String} {value : Value}
    (hn : N name) (hd : a.define id name value = .ok b) : b.BindsOnly N := by
  intro k s hs
  rw [get?_define hd, Option.map_eq_some_iff] at hs
  obtain ⟨old, ho, rfl⟩ := hs
  split
  · intro other hm
    rcases Bindings.mem_names_set hm with rfl | hm
    · exact hn
    · exact h k old ho other hm
  · exact h k old ho

/-- A name that no scope binds is not found. -/
theorem find_eq_none (hr : a.Rooted) {id : ScopeId} (hid : a.contains id = true) {name : String}
    (h : ∀ k s, a.get? k = some s → name ∉ s.vars.names) : a.find id name = .ok none := by
  have hdescending : a.Descending fun k => a.contains k = true :=
    fun k s parent _ hs hp => hr.parents k s parent hs hp
  cases hfind : a.find id name with
  | error fault => exact absurd hfind (find_ne_error hdescending (fun _ hk => hk) hid)
  | ok found =>
    cases found with
    | none => rfl
    | some found =>
      exfalso
      have hfinds := (find_eq_iff hdescending hid).mp hfind
      clear hfind
      generalize hf : Except.ok (some found) = outcome at hfinds
      induction hfinds with
      | missing _ | nowhere _ _ _ => cases hf
      | here hs hv => cases (Bindings.get?_eq_none (h _ _ hs)).symm.trans hv
      | outwards hs hv hp _ ih => exact ih (hr.parents _ _ _ hs hp).2 hf

end Arena

/-! ## Closures that keep to names -/

/-- **A value whose closures keep to the names `N`**, in their code and their parameters. -/
inductive Value.Within (bound : List String) (N : String → Prop) : Value → Prop
  | nil : Value.Within bound N .nil
  | bool (b : Bool) : Value.Within bound N (.bool b)
  | number (x : Float) : Value.Within bound N (.number x)
  | text (s : String) : Value.Within bound N (.text s)
  | symbol (name : String) : Value.Within bound N (.symbol name)
  | quoted {v : Value} (h : Value.Within bound N v) : Value.Within bound N (.quoted v)
  | pair {head tail : Value} {loc : Option Location} (hh : Value.Within bound N head)
      (ht : Value.Within bound N tail) : Value.Within bound N (.pair head tail loc)
  | template (params : Parameters) (code : Code) : Value.Within bound N (.template params code)
  | closure {params : Parameters} {code : Code} {scope : ScopeId}
      (hp : ∀ name ∈ params.names, N name) (hb : Code.Balanced code 0)
      (hc : Code.Within bound N code) : Value.Within bound N (.closure params code scope)

section Within
variable {bound : List String} {N : String → Prop}

/-- A value without closures keeps to all names. -/
theorem Value.within_of_not_holds : ∀ {v : Value}, (∀ id, ¬ v.Holds id) → v.Within bound N
  | .nil, _ => .nil
  | .bool b, _ => .bool b
  | .number x, _ => .number x
  | .text s, _ => .text s
  | .symbol name, _ => .symbol name
  | .quoted _, h => .quoted (within_of_not_holds fun id hid => h id (.quoted hid))
  | .pair _ _ _, h =>
    .pair (within_of_not_holds fun id hid => h id (.head hid))
      (within_of_not_holds fun id hid => h id (.tail hid))
  | .template params code, _ => .template params code
  | .closure params code scope, h => absurd (.closure params code) (h scope)

/-- Computing keeps closures to their names, if it makes such closures. -/
theorem Value.Within.carried :
    Machine.Carried (fun _ => True) (Value.Within bound N) (Code.Within bound N) where
  nil := .nil
  bool := .bool
  number := .number
  text := .text
  symbol := .symbol
  pair := ⟨fun h => by cases h; constructor <;> assumption, fun h => .pair h.1 h.2⟩
  scope _ := trivial
  code h := by
    cases h
    assumption
  constant h hv := by
    obtain ⟨each, -, -, -, -⟩ := h
    exact within_of_not_holds (each _ hv)

namespace Machine
variable {m after : Machine} {scope : ScopeId} {i : Instruction}

/-- **A machine that keeps to the names `N`**: its code and its closures do, and its scopes bind no
other names. -/
structure Within (bound : List String) (N : String → Prop) (m : Machine) : Prop where
  all : m.All (fun _ => True) (Value.Within bound N) (Code.Within bound N)
  names : m.arena.BindsOnly N
  settled : m.Settled

theorem bindsOnly_noteAllocation (h : m.arena.BindsOnly N) :
    m.noteAllocation.arena.BindsOnly N := by
  unfold noteAllocation
  simp only
  split
  · exact fun id s hs => h id s (Arena.reached_of_get?_collect hs).1
  · exact h

/-- A call binds the parameters of the closure that is called. -/
theorem Called.bindsOnly {args stack rest : List Value} {callee : Value}
    (h : m.arena.BindsOnly N) (hcallee : callee.Within bound N)
    (hc : m.Called args stack rest callee after) : after.arena.BindsOnly N := by
  cases hc with
  | closure hb ha =>
    cases hcallee with
    | closure hp _ _ =>
      have harena := h.allocate (fun name hn => hp name (Parameters.mem_names_bind hb hn)) ha
      exact bindsOnly_noteAllocation harena
  | primitive _ _ => exact h

/-- **Instructions bind names of `N` only**, if definitions do and the closures that are called. -/
theorem Effect.bindsOnly (h : m.arena.BindsOnly N) (hv : ∀ v ∈ m.stack, v.Within bound N)
    (hi : i.Allowed bound N) (he : m.Effect scope i after) : after.arena.BindsOnly N := by
  cases he with
  | define hs hd => exact h.define hi hd
  | call hs _ hc => exact hc.bindsOnly h (hv _ (by simp [hs]))
  | callAt _ hm hc => exact hc.bindsOnly h (hv _ (List.mem_reverse.mp (List.mem_of_getElem? hm)))
  | apply hs _ hc => exact hc.bindsOnly h (hv _ (by simp [hs]))
  | jumpIfTruthy _ =>
    split
    · exact h
    · simpa using h
  | jumpIfFalsy _ =>
    split
    · simpa using h
    · exact h
  | _ => exact h

/-- **Steps keep to the names.** -/
theorem Within.advance (h : m.Within bound N) (ha : m.advance = .ok after) :
    after.Within bound N := by
  have hcallable : ∀ v ∈ m.stack, Callable v := by
    rintro v hv params code closed rfl
    cases h.all.stack _ hv with
    | closure _ hb _ => exact hb
  refine ⟨?_, ?_, h.settled.advance hcallable ha⟩
  · refine Value.Within.carried.advance h.all ?_ (fun _ => trivial) ha
    intro f hf params code below hi hs
    obtain ⟨-, hcode⟩ := h.all.frames f (List.mem_of_mem_head? hf)
    -- The template on the stack is the one that the code has pushed for this closure.
    rcases h.settled with ⟨hnone, -⟩ | ⟨g, callers, segment, rest, hrun⟩
    · simp [hnone] at hf
    · obtain rfl : g = f := by simpa [hrun.frames] using hf
      have hmakes := hrun.makes hi hs
      obtain ⟨-, -, parameters, balanced, bodies⟩ := hcode
      exact .closure (parameters _ _ hmakes) (balanced _ _ hmakes) (bodies _ _ hmakes)
  · obtain ⟨f, frames, i, next, hf, hi, he, rfl⟩ := advance_eq_ok.mp ha
    obtain ⟨-, each, -, -, -, -⟩ := h.all.frames f (by simp [hf])
    have hnext : next.arena.BindsOnly N :=
      he.bindsOnly (by simpa using h.names) (by simpa using h.all.stack) (each i (mem_of_fetch hi))
    exact hnext

theorem Within.congr (h : m.Within bound N) (hs : after.stack = m.stack)
    (hf : after.frames = m.frames) (ha : after.arena = m.arena) : after.Within bound N :=
  ⟨⟨hs ▸ h.all.stack, ha ▸ h.all.arena, hf ▸ h.all.frames⟩, ha ▸ h.names, h.settled.congr hf hs⟩

/-- **All machines that a program leads to keep to its names**, those where a step has failed
included. -/
theorem within_of_stepTimes (hm : m.Within bound N) (hr : m.Rooted) (hfault : m.fault = none)
    (n : Nat) : (m.stepTimes n).1.Within bound N ∧ (m.stepTimes n).1.Rooted := by
  refine stepTimes_induction (P := fun m => m.Within bound N ∧ m.Rooted)
    (fun _ _ h ha => ⟨h.1.advance ha, h.2.advance ha⟩) (fun _ h => h.1.settled) ?_ ⟨hm, hr⟩ hfault n
  exact fun _ _ h hs hf ha => ⟨h.1.congr hs hf ha, h.2.congr hf ha⟩

/-- A name that is called directly is bound in no scope. -/
theorem Within.not_bound (h : m.Within bound N) {f : Frame} (hf : f ∈ m.frames) {name : String}
    {argc : Int} (hi : fetch f = .ok (.callPrimitive name argc)) : name ∉ bound := by
  obtain ⟨-, each, -, -, -, -⟩ := h.all.frames f hf
  exact each _ (mem_of_fetch hi)

/-- The operands of a primitive that is called directly are on top of the stack. -/
theorem Settled.operands (h : m.Settled) {f : Frame} (hf : f ∈ m.frames.head?) {name : String}
    {argc : Int} (hi : fetch f = .ok (.callPrimitive name argc)) :
    ∃ (args below : List Value) (p : Primitive), m.stack = args.reverse ++ below ∧ argc = args.length ∧
      Primitive.ofName? name = some p := by
  rcases h with ⟨hnone, -⟩ | ⟨g, callers, segment, below, hrun⟩
  · simp [hnone] at hf
  · obtain rfl : g = f := by simpa [hrun.frames] using hf
    obtain ⟨j, rest, hj, -, hr, -⟩ := hrun.exists_fetched
    cases hi.symm.trans hj
    cases hr with
    | balanced hb =>
      generalize hlen : segment.length = height at hb
      cases hb with
      | @callPrimitive _ height argc p ha hb =>
        refine ⟨(segment.take argc).reverse, segment.drop argc ++ below, p, ?_, ?_,
          Primitive.ofName?_name p⟩
        · rw [List.reverse_reverse, ← List.append_assoc, List.take_append_drop, hrun.stack]
        · have : argc ≤ segment.length := by omega
          simp [this]

/-- A direct call does what a call of the primitive's symbol does. -/
theorem execute_callPrimitive {name : String} {p : Primitive} {args below : List Value}
    (hs : m.stack = args.reverse ++ below) (hp : Primitive.ofName? name = some p) :
    ({ m with stack := args.reverse ++ .symbol name :: below } : Machine).execute scope
        (.call args.length) = m.execute scope (.callPrimitive name args.length) := by
  have hnot : ¬ ((args.length : Int) < 0) := by omega
  simp only [execute, if_neg hnot, Int.toNat_natCast, callWith_append, callValue, hp,
    applyPrimitive, hs]
  simp

end Machine

end Within

namespace Machine

/-- **Machines that a program leads to** where there is only a global scope bind no names but those
that were bound at the start and those that the code of the program binds. -/
theorem within_ofProgram {bound : List String} {forms : List Value} {code : Code} {arena : Arena}
    {vars : Bindings} (hforms : ∀ form ∈ forms, ∀ id, ¬ form.Holds id)
    (hcode : Code.ofProgram bound forms = .ok code)
    (hglobal : arena.get? Arena.globalId = some ⟨vars, none⟩)
    (honly : ∀ id, arena.contains id = true → id = Arena.globalId)
    (hnext : Arena.globalId < arena.nextId) (hvars : ∀ v ∈ vars.values, ∀ id, ¬ v.Holds id)
    (threshold : Int) (n : Nat) :
    let m := ((ofProgram code arena threshold).stepTimes n).1
    m.Within (Code.programNames bound forms) (fun name => name ∈ vars.names ∨ code.Binds name) ∧
      m.Rooted := by
  obtain ⟨hbalanced, hall⟩ := Code.within_of_ofProgram (N := fun _ => True) trivial
    (fun _ _ => trivial) hforms hcode
  have hwithin := hall.of_forall_binds (M := fun name => name ∈ vars.names ∨ code.Binds name)
    fun _ hb => .inr hb
  refine within_of_stepTimes ⟨⟨fun _ hv => absurd hv List.not_mem_nil, fun id s _ hs => ?_,
      fun f hf => ?_⟩, fun id s hs => ?_, ?_⟩
    (rooted_ofProgram (Arena.rooted_of_only hglobal honly hnext) code threshold) rfl n
  · obtain ⟨-, rfl⟩ := Arena.eq_of_only hglobal honly hs
    exact ⟨fun v hv => Value.within_of_not_holds (hvars v hv), fun _ _ => trivial⟩
  · exact ⟨trivial, List.mem_singleton.mp hf ▸ hwithin⟩
  · obtain ⟨-, rfl⟩ := Arena.eq_of_only hglobal honly hs
    exact fun name hn => .inl hn
  · exact .inr ⟨_, [], [], [], rfl, rfl, Int.le_refl 0, .balanced hbalanced, .nothing _⟩

/-- **Direct calls respect shadowing.**  Let forms without closures be compiled by someone who
knows the names of the global scope, and let the code run where there is no other scope, and no
closure in that one.  Whenever the next instruction calls a primitive directly, its name is not
found from the scope of the frame.  So a look-up of the name would have given its symbol, and the
call of that symbol with the same operands is the direct call.  For no scope ever binds a name that
was not bound at the start and that the code does not bind, and the names of primitives that the
code binds are all among the bound names of the forms. -/
theorem direct_calls_agree {bound : List String} {forms : List Value} {code : Code}
    {arena : Arena} {vars : Bindings} (hforms : ∀ form ∈ forms, ∀ id, ¬ form.Holds id)
    (hcode : Code.ofProgram bound forms = .ok code)
    (hglobal : arena.get? Arena.globalId = some ⟨vars, none⟩)
    (honly : ∀ id, arena.contains id = true → id = Arena.globalId)
    (hnext : Arena.globalId < arena.nextId) (hvars : ∀ v ∈ vars.values, ∀ id, ¬ v.Holds id)
    (hbound : ∀ name ∈ vars.names, name ∈ bound) (threshold : Int) (n : Nat) :
    let m := ((ofProgram code arena threshold).stepTimes n).1
    (∀ f ∈ m.frames.head?, ∀ name argc, fetch f = .ok (.callPrimitive name argc) →
      m.arena.find f.scope name = .ok none ∧
      m.execute f.scope (.lookup name) = .ok (m.push (.symbol name)) ∧
      ∃ args below : List Value, m.stack = args.reverse ++ below ∧ argc = args.length ∧
        ({ m with stack := args.reverse ++ .symbol name :: below } : Machine).execute f.scope
          (.call argc) = m.execute f.scope (.callPrimitive name argc)) ∧
    (∀ id s, m.arena.get? id = some s → ∀ name ∈ s.vars.names,
      name ∈ vars.names ∨ code.Binds name) ∧
    ∀ name p, Primitive.ofName? name = some p → code.Binds name →
      name ∈ forms.flatMap Value.boundNames := by
  intro m
  obtain ⟨hm, hr⟩ := within_ofProgram hforms hcode hglobal honly hnext hvars threshold n
  refine ⟨fun f hf name argc hi => ?_, hm.names, fun name p hp hb =>
    hb.mem_boundNames hforms hcode hp⟩
  have hmem := List.mem_of_mem_head? hf
  obtain ⟨args, below, p, hs, rfl, hp⟩ := hm.settled.operands hf hi
  have hnot := hm.not_bound hmem hi
  rw [Code.programNames, List.mem_append, not_or] at hnot
  have hfind : m.arena.find f.scope name = .ok none := by
    refine Arena.find_eq_none hr.arena (hr.frames f hmem) fun id s hget hn => ?_
    rcases hm.names id s hget name hn with hold | hbinds
    · exact hnot.1 (hbound name hold)
    · exact hnot.2 (hbinds.mem_boundNames hforms hcode hp)
  exact ⟨hfind, execute_eq_ok.mpr (.lookupPrimitive hfind hp), args, below, hs, rfl,
    execute_callPrimitive hs hp⟩

/-- The direct call of `cons` in `((lambda (x) (cons x x)) true)`. -/
theorem direct_calls_agree_cons :
    let form : Value := .ofList
      [.ofList [.symbol "lambda", .ofList [.symbol "x"] none .nil,
        .ofList [.symbol "cons", .symbol "x", .symbol "x"] none .nil] none .nil,
        .bool true] none .nil
    let body : Code := [.lookup "x", .lookup "x", .callPrimitive "cons" 2, .ret]
    let code : Code := [.pushConst (.template ⟨["x"], none⟩ body), .makeClosure,
      .pushConst (.bool true), .call 1, .ret]
    Code.ofProgram [] [form] = .ok code ∧
      let m := ((ofProgram code .empty 0).stepTimes 6).1
      ∃ f ∈ m.frames.head?, fetch f = .ok (.callPrimitive "cons" 2) ∧
        m.arena.find f.scope "cons" = .ok none := by
  intro form body code
  have hform : ∀ id, ¬ form.Holds id := by
    intro id
    rw [← Value.mem_scopes]
    simp [form, Value.ofList, Value.scopes]
  have hcode : Code.ofProgram [] [form] = .ok code := rfl
  have hglobal : Arena.empty.get? Arena.globalId = some ⟨[], none⟩ := rfl
  obtain ⟨hagree, -⟩ := direct_calls_agree (by simpa using hform) hcode hglobal
    (fun _ => Arena.only_ofGlobals) Int.zero_lt_one (by simp [Bindings.values]) (by simp [Bindings.names]) 0 6
  refine ⟨hcode, ⟨body, 2, 1⟩, rfl, rfl, ?_⟩
  exact (hagree ⟨body, 2, 1⟩ rfl "cons" 2 rfl).1

end Machine

end StackLisp
