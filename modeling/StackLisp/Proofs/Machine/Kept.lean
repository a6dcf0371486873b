import StackLisp.Proofs.Arena.Find
import StackLisp.Proofs.Code.Constants
import StackLisp.Proofs.Machine.Effect
import StackLisp.Proofs.Primitive

/-!
# What computing keeps

A program makes new values from old ones only in a few ways: primitives take pairs apart and
put them together, a call binds its arguments and makes a list of those left over, a template
becomes a closure, and the code of a closure pushes its constants.  It gets at scopes only
through frames, parents and closures.

So let `P` be a property of values, `S` one of scopes and `Q` one of code that these ways keep
(`Machine.Kept`).  If the stack and the variables of all scopes in `S` have `P`, and the frames
run code of `Q` in scopes of `S` (`Machine.All`), then this is so **after every step**
(`All.advance`), as long as new scopes are in `S`.  Where templates may be anything, that the
closures made of them have `P` is left to be shown (`Carried.advance`).
-/

namespace StackLisp

/-- Scopes with the property `S` have variables with the property `P` and parents with `S`. -/
def Arena.All (S : ScopeId → Prop) (P : Value → Prop) (a : Arena) : Prop :=
  ∀ id s, S id → a.get? id = some s →
    (∀ v ∈ s.vars.values, P v) ∧ ∀ parent, s.parent = some parent → S parent

namespace Machine

/-- Properties of scopes, values and code that computing keeps, making closures apart. -/
structure Carried (S : ScopeId → Prop) (P : Value → Prop) (Q : Code → Prop) : Prop where
  nil : P .nil
  bool : ∀ b, P (.bool b)
  number : ∀ x, P (.number x)
  text : ∀ s, P (.text s)
  symbol : ∀ name, P (.symbol name)
  pair : ∀ {head tail loc}, P (.pair head tail loc) ↔ P head ∧ P tail
  scope : ∀ {params code scope}, P (.closure params code scope) → S scope
  code : ∀ {params code scope}, P (.closure params code scope) → Q code
  constant : ∀ {code v}, Q code → .pushConst v ∈ code → P v

/-- **Properties of scopes, values and code that computing keeps.** -/
structure Kept (S : ScopeId → Prop) (P : Value → Prop) (Q : Code → Prop) : Prop
    extends Carried S P Q where
  closure : ∀ {params code scope},
    S scope → P (.template params code) → P (.closure params code scope)

/-- The stack, the frames and the scopes of a machine have the given properties. -/
structure All (S : ScopeId → Prop) (P : Value → Prop) (Q : Code → Prop) (m : Machine) : Prop where
  stack : ∀ v ∈ m.stack, P v
  arena : m.arena.All S P
  frames : ∀ f ∈ m.frames, S f.scope ∧ Q f.code

variable {S : ScopeId → Prop} {P : Value → Prop} {Q : Code → Prop}

/-! ## Lists and bindings -/

namespace Carried

/-- The elements of a list have what the list has. -/
theorem elements (hP : Carried S P Q) {v : Value} (hv : P v) : ∀ item ∈ v.elements, P item :=
  Value.forall_elements (fun h => hP.pair.mp h) hv

theorem ofList (hP : Carried S P Q) {items : List Value} {loc : Option Location} {last : Value}
    (hi : ∀ v ∈ items, P v) (hl : P last) : P (.ofList items loc last) := by
  induction items with
  | nil => exact hl
  | cons item items ih =>
    exact hP.pair.mpr ⟨hi item List.mem_cons_self,
      ih (fun v hv => hi v (List.mem_cons_of_mem _ hv))⟩

/-- **Primitives keep the property.** -/
theorem apply (hP : Carried S P Q) {p : Primitive} {args : List Value} {v : Value}
    (ha : ∀ a ∈ args, P a) (h : p.apply args = .ok v) : P v := by
  cases Primitive.made_of_apply h with
  | bool b => exact hP.bool b
  | number x => exact hP.number x
  | text s => exact hP.text s
  | pair hx hy => exact hP.pair.mpr ⟨ha _ hx, ha _ hy⟩
  | head hm => exact (hP.pair.mp (ha _ hm)).1
  | tail hm => exact (hP.pair.mp (ha _ hm)).2

end Carried

end Machine

namespace Bindings

/-- **Giving a name a value** binds nothing else. -/
theorem mem_set {bindings : Bindings} {name : String} {value : Value} {p : String × Value}
    (h : p ∈ bindings.set name value) : p = (name, value) ∨ p ∈ bindings := by
  induction bindings with
  | nil => exact .inl (List.mem_singleton.mp h)
  | cons entry rest ih =>
    obtain ⟨key, old⟩ := entry
    by_cases hk : key = name
    · rw [set, if_pos hk, hk] at h
      exact (List.mem_cons.mp h).imp_right (List.mem_cons_of_mem _)
    · rw [set, if_neg hk] at h
      rcases List.mem_cons.mp h with rfl | h
      · exact .inr List.mem_cons_self
      · exact (ih h).imp_right (List.mem_cons_of_mem _)

theorem mem_ofPairs {pairs : List (String × Value)} {p : String × Value}
    (h : p ∈ ofPairs pairs) : p ∈ pairs := by
  have key : ∀ (pairs : List (String × Value)) (start : Bindings),
      p ∈ pairs.foldl (fun bindings p => bindings.set p.1 p.2) start → p ∈ pairs ∨ p ∈ start := by
    intro pairs
    induction pairs with
    | nil => exact fun start h => .inr h
    | cons q pairs ih =>
      intro start h
      rcases ih _ h with h | h
      · exact .inl (List.mem_cons_of_mem _ h)
      · rcases mem_set h with rfl | h
        · exact .inl List.mem_cons_self
        · exact .inr h
  exact (key pairs [] h).resolve_right List.not_mem_nil

theorem mem_values_set {bindings : Bindings} {name : String} {value v : Value}
    (h : v ∈ (bindings.set name value).values) : v = value ∨ v ∈ bindings.values := by
  obtain ⟨p, hp, rfl⟩ := List.mem_map.mp h
  rcases mem_set hp with rfl | hp
  · exact .inl rfl
  · exact .inr (List.mem_map_of_mem hp)

theorem mem_values_ofPairs {pairs : List (String × Value)} {v : Value}
    (h : v ∈ (ofPairs pairs).values) : ∃ p ∈ pairs, p.2 = v := by
  obtain ⟨p, hp, hv⟩ := List.mem_map.mp h
  exact ⟨p, mem_ofPairs hp, hv⟩

theorem get?_mem_values {bindings : Bindings} {name : String} {v : Value}
    (h : bindings.get? name = some v) : v ∈ bindings.values := by
  induction bindings with
  | nil => cases h
  | cons entry rest ih =>
    obtain ⟨key, value⟩ := entry
    simp only [get?] at h
    split at h
    · cases h
      exact List.mem_cons_self
    · exact List.mem_cons_of_mem _ (ih h)

end Bindings

/-- What a call binds comes from its arguments. -/
theorem Parameters.mem_values_bind {params : Parameters} {args : List Value}
    {bindings : Bindings} (h : params.bind args = .ok bindings) {v : Value}
    (hv : v ∈ bindings.values) : v ∈ args ∨ ∃ k, v = .ofList (args.drop k) none .nil := by
  have pairs : v ∈ (Bindings.ofPairs (params.required.zip args)).values → v ∈ args := by
    intro hv
    obtain ⟨p, hp, rfl⟩ := Bindings.mem_values_ofPairs hv
    exact (List.of_mem_zip hp).2
  unfold Parameters.bind at h
  split at h
  · split at h
    · cases h
      exact .inl (pairs hv)
    · cases h
      rcases Bindings.mem_values_set hv with rfl | hv
      · exact .inr ⟨_, rfl⟩
      · exact .inl (pairs hv)
  · cases h

/-- **A call binds values that its arguments are made of.** -/
theorem Machine.Carried.bind {S : ScopeId → Prop} {P : Value → Prop} {Q : Code → Prop}
    (hP : Machine.Carried S P Q)
    {params : Parameters} {args : List Value} {bindings : Bindings} (ha : ∀ v ∈ args, P v)
    (h : params.bind args = .ok bindings) : ∀ v ∈ bindings.values, P v := by
  intro v hv
  rcases Parameters.mem_values_bind h hv with hv | ⟨k, rfl⟩
  · exact ha v hv
  · exact hP.ofList (fun w hw => ha w (List.mem_of_mem_drop hw)) hP.nil

namespace Arena
variable {S : ScopeId → Prop} {P : Value → Prop} {a b : Arena}

/-- What is found from a scope with the property is in such a scope. -/
theorem All.find (h : a.All S P) {id found : ScopeId} {name : String} {v : Value} (hid : S id)
    (hf : a.find id name = .ok (some (found, v))) : P v := by
  have key : ∀ (fuel : Nat) (id : ScopeId), S id →
      a.findWithin name fuel id = .ok (some (found, v)) → P v := by
    intro fuel
    induction fuel with
    | zero =>
      intro id hid hf
      simp only [findWithin, bind_eq_ok, pure_eq_ok, Except.ok.injEq, Option.map_eq_some_iff,
        Prod.mk.injEq] at hf
      obtain ⟨s, hs, w, hw, -, rfl⟩ := hf
      exact (h id s hid (get_eq_ok.mp hs)).1 w (Bindings.get?_mem_values hw)
    | succ fuel ih =>
      intro id hid hf
      simp only [findWithin, bind_eq_ok] at hf
      obtain ⟨s, hs, hf⟩ := hf
      split at hf
      · rename_i w hw
        cases hf
        exact (h found s hid (get_eq_ok.mp hs)).1 v (Bindings.get?_mem_values hw)
      · cases hf
      · rename_i parent _ hp
        exact ih parent ((h id s hid (get_eq_ok.mp hs)).2 parent hp) hf
  exact key a.size id hid hf

theorem All.allocate (h : a.All S P) {vars : Bindings} {parent id : ScopeId}
    (hv : ∀ v ∈ vars.values, P v) (hp : S parent) (ha : a.allocate vars parent = .ok (id, b)) :
    b.All S P := by
  intro k s hk hs
  rw [get?_allocate ha] at hs
  split at hs
  · cases hs
    refine ⟨hv, fun other ho => ?_⟩
    cases ho
    exact hp
  · exact h k s hk hs

theorem All.define (h : a.All S P) {id : ScopeId} {name : String} {value : Value}
    (hv : P value) (hd : a.define id name value = .ok b) : b.All S P := by
  intro k s hk hs
  rw [get?_define hd, Option.map_eq_some_iff] at hs
  obtain ⟨old, ho, rfl⟩ := hs
  obtain ⟨hvars, hparent⟩ := h k old hk ho
  split
  · refine ⟨fun v hm => ?_, hparent⟩
    rcases Bindings.mem_values_set hm with rfl | hm
    · exact hv
    · exact hvars v hm
  · exact ⟨hvars, hparent⟩

theorem All.collect (h : a.All S P) (roots : List ScopeId) (values : List Value) :
    (a.collect roots values).All S P :=
  fun k s hk hs => h k s hk (reached_of_get?_collect hs).1

theorem id_of_allocate {vars : Bindings} {parent id : ScopeId}
    (h : a.allocate vars parent = .ok (id, b)) :
    id = a.nextId ∧ b.nextId = a.nextId + 1 ∧ a.contains parent = true := by
  unfold allocate at h
  split at h
  · cases h
    exact ⟨rfl, rfl, ‹_›⟩
  · cases h

theorem nextId_of_define {id : ScopeId} {name : String} {value : Value}
    (h : a.define id name value = .ok b) : b.nextId = a.nextId := by
  simp only [Arena.define, bind_eq_ok, pure_eq_ok, Except.ok.injEq] at h
  obtain ⟨s, -, rfl⟩ := h
  rfl

end Arena

namespace Machine
variable {S : ScopeId → Prop} {P : Value → Prop} {Q : Code → Prop} {m after : Machine}
  {scope : ScopeId}

/-! ## Steps -/

theorem All.jump (h : m.All S P Q) (offset : Int) : (m.jump offset).All S P Q := by
  unfold Machine.jump
  split
  · exact h
  · rename_i frame frames hf
    have hframes := h.frames
    rw [hf] at hframes
    exact ⟨h.stack, h.arena, List.forall_mem_cons.mpr (List.forall_mem_cons.mp hframes)⟩

theorem All.collectGarbage (h : m.All S P Q) : m.collectGarbage.All S P Q :=
  ⟨h.stack, h.arena.collect _ _, h.frames⟩

theorem All.noteAllocation (h : m.All S P Q) : m.noteAllocation.All S P Q := by
  unfold Machine.noteAllocation
  simp only
  split
  · exact ⟨h.stack, h.arena.collect _ _, h.frames⟩
  · exact ⟨h.stack, h.arena, h.frames⟩

theorem Carried.called (hP : Carried S P Q) (h : m.All S P Q) {callee : Value}
    {args stack rest : List Value} (hcallee : P callee) (hargs : ∀ v ∈ args, P v)
    (hstack : ∀ v ∈ stack, P v) (hrest : ∀ v ∈ rest, P v)
    (hnew : after.arena.nextId ≠ m.arena.nextId → S m.arena.nextId)
    (hc : m.Called args stack rest callee after) : after.All S P Q := by
  cases hc with
  | closure hb ha =>
    have harena := h.arena.allocate (hP.bind hargs hb) (hP.scope hcallee) ha
    obtain ⟨rfl, hid, -⟩ := Arena.id_of_allocate ha
    rw [noteAllocation_nextId, hid] at hnew
    refine All.noteAllocation ⟨hstack, harena, fun f hm => ?_⟩
    rcases List.mem_cons.mp hm with rfl | hm
    · exact ⟨hnew (Int.ne_of_gt (Int.lt_succ _)), hP.code hcallee⟩
    · exact h.frames f hm
  | primitive hp ha =>
    refine ⟨fun v hv => ?_, h.arena, h.frames⟩
    rcases List.mem_cons.mp hv with rfl | hv
    · exact hP.apply hargs ha
    · exact hrest v hv

/-- **What computing keeps, an instruction keeps**, if the closure that it makes has the
property. -/
theorem Carried.effect (hP : Carried S P Q) (h : m.All S P Q) {i : Instruction} (hscope : S scope)
    (hi : ∀ v, i = .pushConst v → P v)
    (hmake : ∀ params code below, i = .makeClosure → m.stack = .template params code :: below →
      P (.closure params code scope))
    (hnew : after.arena.nextId ≠ m.arena.nextId → S m.arena.nextId)
    (he : m.Effect scope i after) : after.All S P Q := by
  have hstack := h.stack
  cases he with
  | pushConst v =>
    exact ⟨List.forall_mem_cons.mpr ⟨hi v rfl, hstack⟩, h.arena, h.frames⟩
  | pop hs =>
    rw [hs] at hstack
    exact ⟨(List.forall_mem_cons.mp hstack).2, h.arena, h.frames⟩
  | lookup hf =>
    exact ⟨List.forall_mem_cons.mpr ⟨h.arena.find hscope hf, hstack⟩, h.arena, h.frames⟩
  | lookupPrimitive hf hp =>
    exact ⟨List.forall_mem_cons.mpr ⟨hP.symbol _, hstack⟩, h.arena, h.frames⟩
  | define hs hd =>
    rw [hs] at hstack
    obtain ⟨hv, hrest⟩ := List.forall_mem_cons.mp hstack
    exact ⟨hrest, h.arena.define hv hd, h.frames⟩
  | jumpIfTruthy hs =>
    split
    · exact h
    · exact h.jump _
  | jumpIfFalsy hs =>
    rw [hs] at hstack
    have hpop : ({ m with stack := _ } : Machine).All S P Q :=
      ⟨(List.forall_mem_cons.mp hstack).2, h.arena, h.frames⟩
    split
    · exact hpop.jump _
    · exact hpop
  | finish hf hs => exact ⟨hstack, h.arena, fun f hm => absurd hm List.not_mem_nil⟩
  | ret hf hs =>
    rw [hs] at hstack
    obtain ⟨hv, hrest⟩ := List.forall_mem_cons.mp hstack
    refine ⟨List.forall_mem_cons.mpr ⟨hv, (List.forall_mem_cons.mp hrest).2⟩, h.arena,
      fun f hm => h.frames f ?_⟩
    rw [hf]
    exact List.mem_cons_of_mem _ hm
  | makeClosure hs =>
    rw [hs] at hstack
    have hclosure := hmake _ _ _ rfl hs
    exact ⟨List.forall_mem_cons.mpr ⟨hclosure, (List.forall_mem_cons.mp hstack).2⟩, h.arena,
      h.frames⟩
  | call hs hn hc =>
    rw [hs] at hstack
    obtain ⟨hargs, hcallee⟩ := List.forall_mem_append.mp hstack
    exact hP.called h (List.forall_mem_cons.mp hcallee).1
      (fun v hv => hargs v (List.mem_reverse.mpr hv)) hcallee
      (List.forall_mem_cons.mp hcallee).2 hnew hc
  | callAt hn hm hc =>
    have hcallee := List.mem_of_getElem? hm
    exact hP.called h (hstack _ (List.mem_reverse.mp hcallee))
      (fun v hv => absurd hv List.not_mem_nil) hstack hstack hnew hc
  | callPrimitive hs hn hp ha =>
    rw [hs] at hstack
    obtain ⟨hargs, hbelow⟩ := List.forall_mem_append.mp hstack
    exact ⟨List.forall_mem_cons.mpr
      ⟨hP.apply (fun v hv => hargs v (List.mem_reverse.mpr hv)) ha, hbelow⟩, h.arena, h.frames⟩
  | apply hs hl hc =>
    rw [hs] at hstack
    obtain ⟨hlist, hcallee⟩ := List.forall_mem_cons.mp hstack
    refine hP.called h (List.forall_mem_cons.mp hcallee).1 ?_ hcallee
      (List.forall_mem_cons.mp hcallee).2 hnew hc
    rw [← Code.elements_of_list? hl]
    exact hP.elements hlist
  | display hs =>
    rw [hs] at hstack
    exact ⟨List.forall_mem_cons.mpr ⟨hP.nil, (List.forall_mem_cons.mp hstack).2⟩, h.arena,
      h.frames⟩

theorem All.effect (hP : Kept S P Q) (h : m.All S P Q) {i : Instruction} (hscope : S scope)
    (hi : ∀ v, i = .pushConst v → P v)
    (hnew : after.arena.nextId ≠ m.arena.nextId → S m.arena.nextId)
    (he : m.Effect scope i after) : after.All S P Q := by
  refine hP.toCarried.effect h hscope hi (fun params code below _ hs => ?_) hnew he
  exact hP.closure hscope (h.stack _ (hs ▸ List.mem_cons_self))

theorem mem_of_fetch {frame : Frame} {i : Instruction} (h : fetch frame = .ok i) :
    i ∈ frame.code := by
  unfold fetch at h
  generalize (if frame.ip < 0 then frame.ip + frame.code.length else frame.ip) = place at h
  simp only at h
  split at h
  · cases h
  · split at h
    · rename_i hi
      cases h
      exact List.mem_of_getElem? hi
    · cases h

/-- What computing keeps, a step keeps, if the closure that it makes has the property. -/
theorem Carried.advance (hP : Carried S P Q) (h : m.All S P Q)
    (hmake : ∀ f ∈ m.frames.head?, ∀ params code below, fetch f = .ok .makeClosure →
      m.stack = .template params code :: below → P (.closure params code f.scope))
    (hnew : after.arena.nextId ≠ m.arena.nextId → S m.arena.nextId)
    (ha : m.advance = .ok after) : after.All S P Q := by
  obtain ⟨frame, frames, i, next, hf, hi, he, rfl⟩ := advance_eq_ok.mp ha
  obtain ⟨hscope, hcode⟩ := h.frames frame (by rw [hf]; exact List.mem_cons_self)
  have hconstant : ∀ v, i = .pushConst v → P v := by
    rintro v rfl
    exact hP.constant hcode (mem_of_fetch hi)
  have hnext := hP.effect (h.jump 1) hscope hconstant (fun params code below hi' hs => by
    subst hi'
    exact hmake frame (by simp [hf]) params code below hi (by simpa using hs))
    (by simpa using hnew) he
  exact ⟨hnext.stack, hnext.arena, hnext.frames⟩

/-- **What computing keeps, a step keeps.** -/
theorem All.advance (hP : Kept S P Q) (h : m.All S P Q)
    (hnew : after.arena.nextId ≠ m.arena.nextId → S m.arena.nextId)
    (ha : m.advance = .ok after) : after.All S P Q := by
  refine hP.toCarried.advance h (fun f hf params code below _ hs => ?_) hnew ha
  exact hP.closure (h.frames f (List.mem_of_mem_head? hf)).1 (h.stack _ (hs ▸ List.mem_cons_self))

end Machine

/-! ## Compiled values -/

/-- An arena whose functions all have code that comes from the compiler. -/
def Arena.Compiled (a : Arena) : Prop :=
  ∀ id s, a.get? id = some s → ∀ v ∈ s.vars.values, v.Compiled

/-- Computing makes compiled values of compiled values. -/
theorem Value.Compiled.kept : Machine.Kept (fun _ => True) Value.Compiled Code.Compiled where
  nil := .nil
  bool := .bool
  number := .number
  text := .text
  symbol := .symbol
  pair := ⟨fun h => by cases h; constructor <;> assumption, fun h => .pair h.1 h.2⟩
  closure _ h := by
    cases h
    exact .closure ‹_›
  scope _ := trivial
  code h := by
    cases h
    assumption
  constant h hv := h.constants _ hv

namespace Machine
variable {m after : Machine}

/-- A machine that runs compiled code and all of whose values are compiled. -/
def Compiled (m : Machine) : Prop :=
  m.All (fun _ => True) Value.Compiled Code.Compiled

theorem compiled_ofProgram {code : Code} {arena : Arena} (hc : Code.Compiled code)
    (ha : arena.Compiled) (threshold : Int) : (ofProgram code arena threshold).Compiled where
  stack := fun _ hv => absurd hv List.not_mem_nil
  arena := fun id s _ hs => ⟨ha id s hs, fun _ _ => trivial⟩
  frames := by
    intro f hf
    obtain rfl := List.mem_singleton.mp hf
    exact ⟨trivial, hc⟩

theorem Compiled.advance (h : m.Compiled) (ha : m.advance = .ok after) : after.Compiled :=
  All.advance Value.Compiled.kept h (fun _ => trivial) ha

end Machine

end StackLisp
