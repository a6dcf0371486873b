import StackLisp.Proofs.Machine.Calls
import StackLisp.Proofs.Machine.Shadowing

/-!
# Lexical scoping

Scopes are known by bare ids, closures go anywhere that values go, and any frame may call them.
Still the way outwards from a scope is laid down by the text of the program.  Let a program without
closures among its forms run where there is only a global scope.  Then each scope **belongs to** a
function of the program, and the way from it to the global scope goes through the functions
around that one, from the inside outwards (`Arena.Chain`).  A closure was made where its
template stands (`Code.Nested`), and a frame runs in a scope right below the one that its
closure was made in.  So **what a free name means does not depend on the caller**
(`Machine.lexical_scoping`).

To which function a scope belongs is not stored anywhere.  It is fixed when the scope is allocated,
so the invariant (`Machine.Lexical`) carries a map from ids to functions that grows with the
arena, and a step extends it by the new id at most.
-/

namespace StackLisp

/-! ## Functions inside functions -/

namespace Code

/-- Functions around a place in a program, the innermost first. -/
abbrev Nest := List (Parameters × Code)

/-- The code at a place: that of the innermost function, or of the program itself. -/
def innermost (program : Code) : Nest → Code
  | [] => program
  | (_, body) :: _ => body

/-- **Functions that are nested in a program**: the code around each of them makes it. -/
inductive Nested (program : Code) : Nest → Prop
  | nil : Nested program []
  | cons {params : Parameters} {body : Code} {nest : Nest} (h : Nested program nest)
      (hm : Makes (innermost program nest) params body) : Nested program ((params, body) :: nest)

variable {program : Code} {bound : List String} {N : String → Prop}

/-- Nested functions keep to the names that the program keeps to. -/
theorem Nested.within {nest : Nest} (h : Nested program nest) (hp : Within bound N program) :
    Within bound N (innermost program nest) := by
  induction h with
  | nil => exact hp
  | cons _ hm ih =>
    obtain ⟨-, -, -, -, bodies⟩ := ih
    exact bodies _ _ hm

theorem Nested.balanced {params : Parameters} {body : Code} {nest : Nest}
    (h : Nested program ((params, body) :: nest)) (hp : Within bound N program) :
    Balanced body 0 := by
  cases h with
  | cons h hm =>
    obtain ⟨-, -, -, balanced, -⟩ := h.within hp
    exact balanced _ _ hm

end Code

/-! ## Closures in values -/

namespace Value

/-- **A value holds a closure** if it is one of its parts, also inside lists and quoted values. -/
inductive HoldsClosure (params : Parameters) (code : Code) (scope : ScopeId) : Value → Prop
  | here : HoldsClosure params code scope (.closure params code scope)
  | quoted {v : Value} (h : HoldsClosure params code scope v) :
      HoldsClosure params code scope (.quoted v)
  | head {head tail : Value} {loc : Option Location} (h : HoldsClosure params code scope head) :
      HoldsClosure params code scope (.pair head tail loc)
  | tail {head tail : Value} {loc : Option Location} (h : HoldsClosure params code scope tail) :
      HoldsClosure params code scope (.pair head tail loc)

theorem HoldsClosure.holds {params : Parameters} {code : Code} {scope : ScopeId} {v : Value}
    (h : v.HoldsClosure params code scope) : v.Holds scope := by
  induction h with
  | here => exact .closure params code
  | quoted _ ih => exact .quoted ih
  | head _ ih => exact .head ih
  | tail _ ih => exact .tail ih

/-- All closures in a value have a property. -/
def AllClosures (R : Parameters → Code → ScopeId → Prop) (v : Value) : Prop :=
  ∀ params code scope, v.HoldsClosure params code scope → R params code scope

theorem AllClosures.of_not_holds {R : Parameters → Code → ScopeId → Prop} {v : Value}
    (h : ∀ id, ¬ v.Holds id) : v.AllClosures R :=
  fun _ _ scope hc => absurd hc.holds (h scope)

/-- Computing keeps what all closures have, if it makes such closures. -/
theorem AllClosures.carried {R : Parameters → Code → ScopeId → Prop} {S : ScopeId → Prop}
    {Q : Code → Prop} (hscope : ∀ {params code scope}, R params code scope → S scope)
    (hcode : ∀ {params code scope}, R params code scope → Q code)
    (hconstant : ∀ {code v}, Q code → .pushConst v ∈ code → ∀ id, ¬ v.Holds id) :
    Machine.Carried S (AllClosures R) Q where
  nil := nofun
  bool _ := nofun
  number _ := nofun
  text _ := nofun
  symbol _ := nofun
  pair := by
    intro head tail loc
    constructor
    · intro h
      exact ⟨fun _ _ _ hc => h _ _ _ (.head hc), fun _ _ _ hc => h _ _ _ (.tail hc)⟩
    · rintro ⟨hh, ht⟩ _ _ _ hc
      cases hc with
      | head hc => exact hh _ _ _ hc
      | tail hc => exact ht _ _ _ hc
  scope h := hscope (h _ _ _ .here)
  code h := hcode (h _ _ _ .here)
  constant h hv := of_not_holds (hconstant h hv)

end Value

/-! ## The way outwards -/

namespace Arena

/-- **The way from a scope to the global one**, through the scopes of nested functions.  Each of
them binds only names of its function: parameters and names that the function's own code
defines. -/
inductive Chain (a : Arena) : ScopeId → Code.Nest → Prop
  | global {s : Scope} (hs : a.get? globalId = some s) (hp : s.parent = none) :
      Chain a globalId []
  | call {id parent : ScopeId} {s : Scope} {params : Parameters} {body : Code} {nest : Code.Nest}
      (hs : a.get? id = some s) (hne : id ≠ globalId) (hp : s.parent = some parent)
      (hnames : ∀ name ∈ s.vars.names, name ∈ params.names ∨ .define name ∈ body)
      (h : Chain a parent nest) : Chain a id ((params, body) :: nest)

/-- **Where a scope belongs**, by a map from ids to functions: it is the global one, or below a
scope of the functions around its own. -/
inductive Placed (program : Code) (belongs : ScopeId → Code.Nest) : ScopeId → Scope → Prop
  | global {s : Scope} (hn : belongs globalId = []) (hp : s.parent = none) :
      Placed program belongs globalId s
  | call {id parent : ScopeId} {s : Scope} {params : Parameters} {body : Code}
      (hn : belongs id = (params, body) :: belongs parent)
      (hnested : Code.Nested program (belongs id)) (hne : id ≠ globalId)
      (hp : s.parent = some parent)
      (hnames : ∀ name ∈ s.vars.names, name ∈ params.names ∨ .define name ∈ body) :
      Placed program belongs id s

variable {program : Code} {belongs belongs' : ScopeId → Code.Nest} {id : ScopeId} {s t : Scope}

theorem Placed.nested (h : Placed program belongs id s) : Code.Nested program (belongs id) := by
  cases h with
  | global hn _ => exact hn ▸ .nil
  | call _ hnested _ _ _ => exact hnested

/-- The place of a scope depends on its own functions and those of its parent. -/
theorem Placed.congr (h : Placed program belongs id s) (hid : belongs' id = belongs id)
    (hparent : ∀ parent, s.parent = some parent → belongs' parent = belongs parent) :
    Placed program belongs' id s := by
  cases h with
  | global hn hp => exact .global (hid.trans hn) hp
  | call hn hnested hne hp hnames =>
    exact .call (hid.trans (hn.trans (by rw [hparent _ hp]))) (hid ▸ hnested) hne hp hnames

/-- A scope may get names that its function defines. -/
theorem Placed.defined (h : Placed program belongs id s) (hp : t.parent = s.parent)
    (hnames : ∀ name ∈ t.vars.names,
      name ∈ s.vars.names ∨ .define name ∈ Code.innermost program (belongs id)) :
    Placed program belongs id t := by
  cases h with
  | global hn hs => exact .global hn (hp.trans hs)
  | call hn hnested hne hs hold =>
    refine .call hn hnested hne (hp.trans hs) fun name hm => ?_
    rw [hn] at hnames
    exact (hnames name hm).elim (hold name) .inr

/-- **Scopes that have their place lead outwards through their functions.** -/
theorem chain_of_placed {a : Arena} (h : ∀ id s, a.get? id = some s → Placed program belongs id s)
    (hparents : ∀ id s parent, a.get? id = some s → s.parent = some parent →
      a.contains parent = true) (hid : a.contains id = true) : a.Chain id (belongs id) := by
  generalize hn : belongs id = nest
  induction nest generalizing id with
  | nil =>
    obtain ⟨s, hs⟩ := contains_iff.mp hid
    cases h id s hs with
    | global _ hp => exact .global hs hp
    | call hcons _ _ _ _ => cases hcons.symm.trans hn
  | cons function nest ih =>
    obtain ⟨s, hs⟩ := contains_iff.mp hid
    cases h id s hs with
    | global hnil _ => cases hnil.symm.trans hn
    | call hcons _ hne hp hnames =>
      obtain ⟨rfl, hrest⟩ := List.cons.inj (hcons.symm.trans hn)
      exact .call hs hne hp hnames (ih (hparents id s _ hs hp) hrest)

/-- The parent of a scope. -/
def parent? (a : Arena) (id : ScopeId) : Option ScopeId :=
  (a.get? id).bind Scope.parent

end Arena

namespace Machine
variable {m after : Machine} {scope : ScopeId} {i : Instruction} {b : Arena}

/-! ## What an instruction does to scopes and frames -/

/-- **What an instruction does to the arena and to the frames**, before scopes are collected. -/
inductive Turn (m : Machine) (scope : ScopeId) (i : Instruction) (after : Machine) : Arena → Prop
  | stays (hf : ∀ g ∈ after.frames, ∃ f ∈ m.frames, g.code = f.code ∧ g.scope = f.scope) :
      Turn m scope i after m.arena
  | defines {name : String} {v : Value} {b : Arena} (hi : i = .define name)
      (hd : m.arena.define scope name v = .ok b) (hf : after.frames = m.frames) :
      Turn m scope i after b
  /-- A closure is entered.  It is on top of the stack, unless it was called from the bottom. -/
  | enters {params : Parameters} {code : Code} {closed id : ScopeId} {args : List Value}
      {bindings : Bindings} {b : Arena} (hm : .closure params code closed ∈ m.stack)
      (hb : params.bind args = .ok bindings) (ha : m.arena.allocate bindings closed = .ok (id, b))
      (hf : after.frames = ⟨code, 0, id⟩ :: m.frames)
      (hs : after.stack.head? = some (.closure params code closed) ∨
        ∃ argc, i = .call argc ∧ argc < 0) : Turn m scope i after b

/-- **An arena from which a machine may have dropped scopes**: those that it does not reach. -/
def Swept (after : Machine) (b : Arena) : Prop :=
  after.arena = b ∨ after.arena = b.collect (after.frames.map (·.scope)) after.rootValues

theorem swept_noteAllocation (m : Machine) : m.noteAllocation.Swept m.arena := by
  unfold noteAllocation
  simp only
  split
  · exact .inr rfl
  · exact .inl rfl

theorem Swept.get? (h : after.Swept b) {id : ScopeId} {s : Scope}
    (hs : after.arena.get? id = some s) : b.get? id = some s := by
  rcases h with h | h <;> rw [h] at hs
  · exact hs
  · exact (Arena.reached_of_get?_collect hs).1

/-- The scopes that the machine reaches are still present. -/
theorem Swept.contains (h : after.Swept b) {id : ScopeId} (hid : b.contains id = true)
    (hr : b.Reached (Arena.IsRoot (after.frames.map (·.scope)) after.rootValues) id) :
    after.arena.contains id = true := by
  rcases h with h | h <;> rw [h]
  · exact hid
  · rwa [Arena.contains_iff, Arena.get?_collect_of_reached hr, ← Arena.contains_iff]

/-- What a present scope leads to is still present too. -/
theorem Swept.contains_of_leadsTo (h : after.Swept b) {id next : ScopeId} {s : Scope}
    (hs : after.arena.get? id = some s) (hl : s.LeadsTo next) (hnext : b.contains next = true) :
    after.arena.contains next = true := by
  rcases h with h | h <;> rw [h] at hs ⊢
  · exact hnext
  · obtain ⟨hs, hr⟩ := Arena.reached_of_get?_collect hs
    rwa [Arena.contains_iff, Arena.get?_collect_of_reached (hr.step hs hl), ← Arena.contains_iff]

theorem Called.turn {args stack rest : List Value} {callee : Value}
    (h : m.Called args stack rest callee after) (hm : callee ∈ m.stack)
    (hs : stack.head? = some callee ∨ ∃ argc, i = .call argc ∧ argc < 0) :
    ∃ b, m.Turn scope i after b ∧ after.Swept b := by
  cases h with
  | closure hb ha =>
    refine ⟨_, .enters hm hb ha ?_ ?_, swept_noteAllocation _⟩
    · simp
    · simpa using hs
  | primitive hp ha => exact ⟨m.arena, .stays fun g hg => ⟨g, hg, rfl, rfl⟩, .inl rfl⟩

theorem mem_frames_of_jump {offset : Int} {g : Frame} (h : g ∈ (m.jump offset).frames) :
    ∃ f ∈ m.frames, g.code = f.code ∧ g.scope = f.scope := by
  unfold jump at h
  split at h
  · exact ⟨g, h, rfl, rfl⟩
  · rename_i frame frames hf
    rcases List.mem_cons.mp h with rfl | h
    · exact ⟨frame, hf ▸ List.mem_cons_self, rfl, rfl⟩
    · exact ⟨g, hf ▸ List.mem_cons_of_mem _ h, rfl, rfl⟩

/-- **Every instruction has its turn**, and then scopes may be dropped. -/
theorem Effect.turn (h : m.Effect scope i after) : ∃ b, m.Turn scope i after b ∧ after.Swept b := by
  have hsame : ∀ g ∈ m.frames, ∃ f ∈ m.frames, g.code = f.code ∧ g.scope = f.scope :=
    fun g hg => ⟨g, hg, rfl, rfl⟩
  cases h with
  | define hs hd => exact ⟨_, .defines rfl hd rfl, .inl rfl⟩
  | finish _ _ => exact ⟨m.arena, .stays fun g hg => absurd hg List.not_mem_nil, .inl rfl⟩
  | ret hf _ =>
    exact ⟨m.arena, .stays fun g hg => hsame g (hf ▸ List.mem_cons_of_mem _ hg), .inl rfl⟩
  | call hs _ hc => exact hc.turn (by simp [hs]) (.inl rfl)
  | callAt hn hm hc =>
    exact hc.turn (List.mem_reverse.mp (List.mem_of_getElem? hm)) (.inr ⟨_, rfl, hn⟩)
  | apply hs _ hc => exact hc.turn (by simp [hs]) (.inl rfl)
  | jumpIfTruthy _ =>
    refine ⟨m.arena, .stays fun g hg => ?_, .inl ?_⟩
    · split at hg
      · exact hsame g hg
      · exact mem_frames_of_jump hg
    · split
      · rfl
      · exact jump_arena _
  | @jumpIfFalsy _ _ rest _ =>
    refine ⟨m.arena, .stays fun g hg => ?_, .inl ?_⟩
    · split at hg
      · exact mem_frames_of_jump (m := { m with stack := rest }) hg
      · exact hsame g hg
    · split
      · exact jump_arena _
      · rfl
  | _ => exact ⟨m.arena, .stays hsame, .inl rfl⟩

theorem Turn.changed (h : m.Turn scope i after b) : m.arena.Changed scope b := by
  cases h with
  | stays _ => exact .same
  | defines _ hd _ => exact .defined hd
  | enters _ _ ha _ _ => exact .allocated ha

/-! ## The invariant -/

/-- A closure over a scope that is present, made by the function to which that scope belongs. -/
def Fits (program : Code) (belongs : ScopeId → Code.Nest) (a : Arena) (params : Parameters)
    (code : Code) (scope : ScopeId) : Prop :=
  a.contains scope = true ∧ Code.Nested program ((params, code) :: belongs scope)

/-- **A machine whose scopes belong to functions of its program**, as do its frames and closures. -/
structure Lexical (bound : List String) (program : Code) (belongs : ScopeId → Code.Nest)
    (m : Machine) : Prop where
  all : m.All (fun id => m.arena.contains id = true)
    (Value.AllClosures (Fits program belongs m.arena)) (Code.Within bound fun _ => True)
  placed : ∀ id s, m.arena.get? id = some s → Arena.Placed program belongs id s
  code : ∀ f ∈ m.frames, f.code = Code.innermost program (belongs f.scope)

variable {bound : List String} {program : Code} {belongs : ScopeId → Code.Nest}

theorem Lexical.parents (h : m.Lexical bound program belongs) {id parent : ScopeId} {s : Scope}
    (hs : m.arena.get? id = some s) (hp : s.parent = some parent) :
    m.arena.contains parent = true :=
  (h.all.arena id s (Arena.contains_iff.mpr ⟨s, hs⟩) hs).2 parent hp

/-- The global scope belongs to the program itself. -/
theorem Lexical.belongs_global (h : m.Lexical bound program belongs)
    (hglobal : m.arena.contains Arena.globalId = true) : belongs Arena.globalId = [] := by
  obtain ⟨s, hs⟩ := Arena.contains_iff.mp hglobal
  cases h.placed _ s hs with
  | global hn _ => exact hn
  | call _ _ hne _ _ => exact absurd rfl hne

/-- **The way outwards from a scope that is present.** -/
theorem Lexical.chain (h : m.Lexical bound program belongs) {id : ScopeId}
    (hid : m.arena.contains id = true) : m.arena.Chain id (belongs id) :=
  Arena.chain_of_placed h.placed (fun _ _ _ hs hp => h.parents hs hp) hid

theorem carried_fits (hp : Code.Within bound (fun _ => True) program) (a : Arena) :
    Carried (fun id => a.contains id = true) (Value.AllClosures (Fits program belongs a))
      (Code.Within bound fun _ => True) :=
  Value.AllClosures.carried And.left (fun h => h.2.within hp) fun h hv => by
    obtain ⟨each, -, -, -, -⟩ := h
    exact each _ hv

/-- The invariant lets an arena grow, and the functions of new scopes be chosen. -/
theorem All.grown {Q : Code → Prop} {belongs' : ScopeId → Code.Nest}
    (h : m.All (fun id => m.arena.contains id = true)
      (Value.AllClosures (Fits program belongs m.arena)) Q)
    (hb : ∀ id, m.arena.contains id = true → b.contains id = true)
    (hsame : ∀ id, m.arena.contains id = true → belongs' id = belongs id) :
    m.All (fun id => b.contains id = true) (Value.AllClosures (Fits program belongs' b)) Q := by
  have hvalue : ∀ v : Value, v.AllClosures (Fits program belongs m.arena) →
      v.AllClosures (Fits program belongs' b) := by
    intro v hv params code scope hc
    obtain ⟨hscope, hnested⟩ := hv params code scope hc
    exact ⟨hb scope hscope, hsame scope hscope ▸ hnested⟩
  refine ⟨fun v hv => hvalue v (h.stack v hv), fun id s _ hs => ?_, fun f hf => ?_⟩
  · obtain ⟨hvars, hparent⟩ := h.arena id s (Arena.contains_iff.mpr ⟨s, hs⟩) hs
    exact ⟨fun v hv => hvalue v (hvars v hv), fun parent hp => hb parent (hparent parent hp)⟩
  · exact ⟨hb _ (h.frames f hf).1, (h.frames f hf).2⟩

/-- **What the machine reaches is still there** after scopes have been dropped. -/
theorem All.swept {Q : Code → Prop}
    (h : after.All (fun id => b.contains id = true) (Value.AllClosures (Fits program belongs b)) Q)
    (hb : after.Swept b) :
    after.All (fun id => after.arena.contains id = true)
      (Value.AllClosures (Fits program belongs after.arena)) Q := by
  refine ⟨fun v hv params code scope hc => ?_, fun id s _ hs => ?_, fun f hf => ?_⟩
  · obtain ⟨hscope, hnested⟩ := h.stack v hv params code scope hc
    have hroot : v ∈ after.rootValues := List.mem_append_left _ hv
    exact ⟨hb.contains hscope (.root (.inr (.inr ⟨v, hroot, hc.holds⟩))), hnested⟩
  · have hid : b.contains id = true := Arena.contains_iff.mpr ⟨s, hb.get? hs⟩
    obtain ⟨hvars, hparent⟩ := h.arena id s hid hs
    refine ⟨fun v hv params code scope hc => ?_, fun parent hp => ?_⟩
    · obtain ⟨hscope, hnested⟩ := hvars v hv params code scope hc
      exact ⟨hb.contains_of_leadsTo hs (.inr ⟨v, hv, hc.holds⟩) hscope, hnested⟩
    · exact hb.contains_of_leadsTo hs (.inl hp) (hparent parent hp)
  · obtain ⟨hscope, hcode⟩ := h.frames f hf
    exact ⟨hb.contains hscope (.root (.inr (.inl (List.mem_map_of_mem hf)))), hcode⟩

/-- **A turn leaves every scope in its place**, if the new one goes to the closure's function. -/
theorem Lexical.exists_placed (h : m.Lexical bound program belongs)
    (hfresh : ∀ id, m.arena.contains id = true → id < m.arena.nextId)
    (hglobal : m.arena.contains Arena.globalId = true) {f : Frame} (hf : f ∈ m.frames)
    (hi : i ∈ f.code) (ht : m.Turn f.scope i after b) :
    ∃ belongs' : ScopeId → Code.Nest,
      (∀ id, m.arena.contains id = true → belongs' id = belongs id) ∧
      (∀ id s, b.get? id = some s → Arena.Placed program belongs' id s) ∧
      ∀ g ∈ after.frames, g.code = Code.innermost program (belongs' g.scope) := by
  cases ht with
  | stays hframes =>
    refine ⟨belongs, fun _ _ => rfl, h.placed, fun g hg => ?_⟩
    obtain ⟨f', hf', hcode, hscope⟩ := hframes g hg
    rw [hcode, hscope]
    exact h.code f' hf'
  | @defines name v b hdefine hd hframes =>
    refine ⟨belongs, fun _ _ => rfl, fun id s hs => ?_, fun g hg => h.code g (hframes ▸ hg)⟩
    rw [Arena.get?_define hd, Option.map_eq_some_iff] at hs
    obtain ⟨old, ho, rfl⟩ := hs
    have hplaced := h.placed id old ho
    split
    · rename_i hid
      subst hid
      refine hplaced.defined rfl fun other hm => ?_
      rcases Bindings.mem_names_set hm with rfl | hm
      · exact .inr (h.code f hf ▸ hdefine ▸ hi)
      · exact .inl hm
    · exact hplaced
  | @enters params code closed id args bindings b hm hb ha hframes hs =>
    obtain ⟨rfl, -, hclosed⟩ := Arena.id_of_allocate ha
    obtain ⟨-, hnested⟩ := h.all.stack _ hm params code closed .here
    have hne : ∀ id, m.arena.contains id = true → id ≠ m.arena.nextId :=
      fun id hid => Int.ne_of_lt (hfresh id hid)
    -- The new scope belongs to the function that is called.
    let belongs' : ScopeId → Code.Nest := fun id =>
      if id = m.arena.nextId then (params, code) :: belongs closed else belongs id
    have hold : ∀ id, m.arena.contains id = true → belongs' id = belongs id :=
      fun id hid => if_neg (hne id hid)
    have hnew : belongs' m.arena.nextId = (params, code) :: belongs closed := if_pos rfl
    refine ⟨belongs', hold, fun id s hs => ?_, fun g hg => ?_⟩
    · rw [Arena.get?_allocate ha] at hs
      split at hs
      · rename_i hid
        subst hid
        cases hs
        have hparent : belongs' m.arena.nextId = (params, code) :: belongs' closed := by
          rw [hnew, hold closed hclosed]
        refine .call hparent (hnew ▸ hnested) (hne _ hglobal).symm rfl ?_
        exact fun name hn => .inl (Parameters.mem_names_bind hb hn)
      · have hid : m.arena.contains id = true := Arena.contains_iff.mpr ⟨s, hs⟩
        exact (h.placed id s hs).congr (hold id hid) fun parent hp => hold parent (h.parents hs hp)
    · rw [hframes] at hg
      rcases List.mem_cons.mp hg with rfl | hg
      · rw [hnew]
        rfl
      · rw [hold _ (h.all.frames g hg).1]
        exact h.code g hg

/-- **Instructions keep the scopes in their places.** -/
theorem Lexical.effect (h : m.Lexical bound program belongs)
    (hp : Code.Within bound (fun _ => True) program)
    (hfresh : ∀ id, m.arena.contains id = true → id < m.arena.nextId)
    (hglobal : m.arena.contains Arena.globalId = true) {f : Frame} (hf : f ∈ m.frames)
    (hi : i ∈ f.code)
    (hmake : ∀ params code below, i = .makeClosure → m.stack = .template params code :: below →
      Code.Makes f.code params code)
    (he : m.Effect f.scope i after) :
    ∃ belongs', after.Lexical bound program belongs' := by
  obtain ⟨b, hturn, hswept⟩ := he.turn
  obtain ⟨belongs', hsame, hplaced, hcode⟩ := h.exists_placed hfresh hglobal hf hi hturn
  have hchanged := hturn.changed
  have hgrown := h.all.grown (fun id hid => hchanged.contains_of (.inl hid)) hsame
  obtain ⟨hscope, hwithin⟩ := h.all.frames f hf
  have hcarried : Carried (fun id => b.contains id = true)
      (Value.AllClosures (Fits program belongs' b)) (Code.Within bound fun _ => True) :=
    carried_fits hp b
  have hnew : after.arena.nextId ≠ m.arena.nextId → b.contains m.arena.nextId = true := by
    intro hne
    have hid : after.arena.nextId = b.nextId := by rcases hswept with hb | hb <;> rw [hb]; rfl
    exact hchanged.contains_of (.inr ⟨rfl, hid ▸ hne⟩)
  have hall := hcarried.effect hgrown (hchanged.contains_of (.inl hscope)) ?_ ?_ hnew he
  · exact ⟨belongs', hall.swept hswept, fun id s hs => hplaced id s (hswept.get? hs), hcode⟩
  · rintro v rfl
    exact hcarried.constant hwithin hi
  · intro params code below heq hs
    have hmakes := hmake params code below heq hs
    have hnested : Code.Nested program (belongs f.scope) := by
      obtain ⟨s, hs⟩ := Arena.contains_iff.mp hscope
      exact (h.placed _ s hs).nested
    intro params' code' scope' hc
    cases hc with
    | here =>
      refine ⟨hchanged.contains_of (.inl hscope), ?_⟩
      rw [hsame _ hscope]
      exact .cons hnested (h.code f hf ▸ hmakes)

/-! ## Frames and their closures -/

/-- **Frames below the closures that they run.**  The scope of a frame that was called is right
below the one that its closure, on the stack below the frame's values, was made in.  The first
frame is the program's, in the global scope. -/
inductive Entered (a : Arena) : Frame → List Frame → List Value → Prop
  | program {f : Frame} (hs : f.scope = Arena.globalId) : Entered a f [] []
  | call {f caller : Frame} {callers : List Frame} {params : Parameters} {closed : ScopeId}
      {segment below : List Value} (hp : a.parent? f.scope = some closed)
      (hh : Code.height caller.ahead = segment.length + 1) (h : Entered a caller callers below) :
      Entered a f (caller :: callers) (.closure params f.code closed :: (segment ++ below))

variable {a : Arena} {f g : Frame} {callers : List Frame} {below : List Value}

theorem Entered.congr (h : Entered a f callers below) (hs : g.scope = f.scope)
    (hc : callers ≠ [] → g.code = f.code)
    (hparent : ∀ k ∈ f :: callers, b.parent? k.scope = a.parent? k.scope) :
    Entered b g callers below := by
  induction h generalizing g with
  | program hglobal => exact .program (hs.trans hglobal)
  | @call f caller callers params closed segment below hp hh _ ih =>
    obtain ⟨hf, hrest⟩ := List.forall_mem_cons.mp hparent
    rw [← hc (List.cons_ne_nil _ _)]
    exact .call (by rw [hs, hf, hp]) hh (ih rfl (fun _ => rfl) hrest)

/-- What a frame runs is the code of the closure below it. -/
theorem Entered.code_eq (h : Entered a f callers below) (hw : Awaiting g.code callers below)
    (hne : callers ≠ []) : g.code = f.code := by
  cases h with
  | program _ => exact absurd rfl hne
  | @call _ _ _ params closed segment rest _ _ _ =>
    generalize hvalues : Value.closure params f.code closed :: (segment ++ rest) = values at hw
    cases hw with
    | call _ _ _ _ _ =>
      obtain ⟨hcallee, -⟩ := List.cons.inj hvalues
      exact (Value.closure.inj hcallee).2.1.symm

/-- The frames that were called, and their closures. -/
theorem Entered.exists_closure (h : Entered a f callers below) :
    (∀ k ∈ (f :: callers).getLast?, k.scope = Arena.globalId) ∧
      ∀ k ∈ (f :: callers).dropLast, ∃ params closed,
        .closure params k.code closed ∈ below ∧ a.parent? k.scope = some closed := by
  induction h with
  | program hs =>
    refine ⟨fun k hk => ?_, fun k hk => absurd hk List.not_mem_nil⟩
    obtain rfl := Option.some.inj hk
    exact hs
  | @call f caller callers params closed segment below hp _ _ ih =>
    obtain ⟨hlast, hinit⟩ := ih
    refine ⟨fun k hk => hlast k (by simpa using hk), fun k hk => ?_⟩
    rcases List.mem_cons.mp hk with rfl | hk
    · exact ⟨params, closed, List.mem_cons_self, hp⟩
    · obtain ⟨params', closed', hm, hp'⟩ := hinit k hk
      exact ⟨params', closed', List.mem_cons_of_mem _ (List.mem_append_right _ hm), hp'⟩

/-- **A scope keeps its parent** as long as it is there. -/
theorem parent?_of_advance (hr : m.Rooted) (ha : m.advance = .ok after) {id : ScopeId}
    (hid : m.arena.contains id = true) (hafter : after.arena.contains id = true) :
    after.arena.parent? id = m.arena.parent? id := by
  obtain ⟨frame, frames, i, next, -, -, he, rfl⟩ := advance_eq_ok.mp ha
  obtain ⟨b, hchanged, -, hget⟩ := he.exists_changed
  rw [jump_arena] at hchanged
  obtain ⟨t, ht⟩ := Arena.contains_iff.mp hafter
  have ht' : next.arena.get? id = some t := ht
  rcases hchanged.get? (hget id t ht') with ⟨s, hs, hp⟩ | ⟨rfl, -⟩
  · simp [Arena.parent?, hs, ht', hp]
  · exact absurd (hr.arena.fresh _ hid) (Int.lt_irrefl _)

/-- **A machine that keeps to lexical scoping.** -/
structure Scoped (bound : List String) (program : Code) (m : Machine) : Prop where
  lexical : ∃ belongs, m.Lexical bound program belongs
  rooted : m.Rooted
  order : (m.frames = [] ∧ ∃ v, m.stack = [v]) ∨ ∃ f callers segment below,
    m.Running f callers segment below ∧ Entered m.arena f callers below

theorem Scoped.settled (h : m.Scoped bound program) : m.Settled := by
  rcases h.order with h | ⟨f, callers, segment, below, hrun, -⟩
  · exact .inl h
  · exact .inr ⟨f, callers, segment, below, hrun⟩

theorem Scoped.callable (h : m.Scoped bound program)
    (hp : Code.Within bound (fun _ => True) program) : ∀ v ∈ m.stack, Callable v := by
  rintro v hv params code closed rfl
  obtain ⟨belongs, hlexical⟩ := h.lexical
  obtain ⟨-, hnested⟩ := hlexical.all.stack _ hv params code closed .here
  exact hnested.balanced hp

theorem Lexical.jump (h : m.Lexical bound program belongs) (offset : Int) :
    (m.jump offset).Lexical bound program belongs := by
  refine ⟨?_, ?_, fun g hg => ?_⟩
  · rw [jump_arena]
    exact h.all.jump offset
  · rw [jump_arena]
    exact h.placed
  · obtain ⟨f, hf, hcode, hscope⟩ := mem_frames_of_jump hg
    rw [hcode, hscope]
    exact h.code f hf

/-- **Steps keep the scopes in their places.** -/
theorem Lexical.advance (h : m.Lexical bound program belongs)
    (hp : Code.Within bound (fun _ => True) program) (hr : m.Rooted) (hs : m.Settled)
    (ha : m.advance = .ok after) : ∃ belongs', after.Lexical bound program belongs' := by
  obtain ⟨f, frames, i, next, hf, hi, he, rfl⟩ := advance_eq_ok.mp ha
  have hframe : { f with ip := f.ip + 1 } ∈ (m.jump 1).frames := by simp [Machine.jump, hf]
  have harena := jump_arena (m := m) 1
  have hnext := (h.jump 1).effect hp (harena ▸ hr.arena.fresh) (harena ▸ hr.arena.global) hframe
    (show i ∈ f.code from mem_of_fetch hi) (fun params code below heq hstack => ?_) he
  · obtain ⟨belongs', hall, hplaced, hcode⟩ := hnext
    exact ⟨belongs', ⟨hall.stack, hall.arena, hall.frames⟩, hplaced, hcode⟩
  · -- The template on the stack is the one that the code has pushed for this closure.
    subst heq
    rcases hs with ⟨hnone, -⟩ | ⟨g, callers, segment, below, hrun⟩
    · cases hnone.symm.trans hf
    · obtain ⟨rfl, -⟩ := List.cons.inj (hf.symm.trans hrun.frames)
      exact hrun.makes hi ((jump_stack 1).symm.trans hstack)

/-- Compiled code calls no function from the bottom of the stack. -/
theorem Running.call_nonneg {segment : List Value} (h : m.Running f callers segment below)
    {argc : Int} (hi : fetch f = .ok (.call argc)) : 0 ≤ argc := by
  obtain ⟨i, rest, hj, -, hr, -⟩ := h.exists_fetched
  cases hi.symm.trans hj
  cases hr with
  | balanced hb =>
    generalize segment.length = height at hb
    cases hb with
    | call hb => exact Int.natCast_nonneg _

/-- **A new frame runs right below the scope of its closure.** -/
theorem parent?_of_entered {segment operands : List Value} {params : Parameters}
    {closed : ScopeId} (hrun : m.Running f callers segment below) (hr : m.Rooted)
    (hafter : after.Rooted) (ha : m.advance = .ok after) (hs : g.scope = m.arena.nextId)
    (hg : g ∈ after.frames) (hstack : after.stack = .closure params g.code closed :: operands) :
    after.arena.parent? g.scope = some closed := by
  obtain ⟨frame, frames, i, next, hf, hi, he, rfl⟩ := advance_eq_ok.mp ha
  obtain ⟨rfl, rfl⟩ := List.cons.inj (hf.symm.trans hrun.frames)
  -- No frame from before the step runs in the new scope, so the step is a call.
  have hnew : ∀ k ∈ (m.jump 1).frames, k.scope ≠ g.scope := by
    intro k hk heq
    obtain ⟨k', hk', -, hscope⟩ := mem_frames_of_jump hk
    have hlt := hr.arena.fresh _ (hr.frames k' hk')
    rw [← hscope, heq, hs] at hlt
    exact Int.lt_irrefl _ hlt
  obtain ⟨b, hturn, hswept⟩ := he.turn
  cases hturn with
  | stays hframes =>
    obtain ⟨k, hk, -, hscope⟩ := hframes g hg
    exact absurd hscope.symm (hnew k hk)
  | defines _ _ hframes => exact absurd rfl (hnew g (hframes ▸ hg))
  | @enters params' code' closed' id args bindings b _ hb halloc hframes hhead =>
    obtain ⟨t, ht⟩ := Arena.contains_iff.mp (hafter.frames g hg)
    have ht' : next.arena.get? g.scope = some t := ht
    have hid : (m.jump 1).arena.nextId = g.scope := by rw [jump_arena, hs]
    have hget := hswept.get? ht'
    rw [Arena.get?_allocate halloc, if_pos hid] at hget
    -- A negative count takes the callee from below; compiled code has none.
    rcases hhead with hhead | ⟨argc, rfl, hneg⟩
    · have hstack' : next.stack = .closure params g.code closed :: operands := hstack
      rw [hstack'] at hhead
      obtain ⟨-, -, rfl⟩ := Value.closure.inj (Option.some.inj hhead)
      cases hget
      simp [Arena.parent?, ht']
    · have := hrun.call_nonneg hi
      omega

/-- Where a frame returns, what was below it belongs to its caller. -/
theorem Entered.returned {caller : Frame} {params : Parameters} {closed : ScopeId}
    {segment rest : List Value} (h : Entered a f (caller :: callers) below)
    (hs : below = .closure params f.code closed :: (segment ++ rest))
    (hh : Code.height caller.ahead = segment.length + 1) : Entered a caller callers rest := by
  cases h with
  | @call _ _ _ params' closed' segment' below' _ hh' h =>
    obtain ⟨-, hstack⟩ := List.cons.inj hs
    have hlen : segment'.length = segment.length := by omega
    obtain ⟨-, rfl⟩ := List.append_inj hstack hlen
    exact h

/-- **Steps keep to lexical scoping.** -/
theorem Scoped.advance (h : m.Scoped bound program)
    (hp : Code.Within bound (fun _ => True) program) (ha : m.advance = .ok after) :
    after.Scoped bound program := by
  obtain ⟨belongs, hlexical⟩ := h.lexical
  have hafter := h.rooted.advance ha
  refine ⟨hlexical.advance hp h.rooted h.settled ha, hafter, ?_⟩
  rcases h.order with ⟨hnone, -⟩ | ⟨f, callers, segment, below, hrun, hentered⟩
  · obtain ⟨_, _, _, _, hf, -⟩ := advance_eq_ok.mp ha
    cases hnone.symm.trans hf
  have hpresent : ∀ k ∈ f :: callers, m.arena.contains k.scope = true :=
    fun k hk => h.rooted.frames k (hrun.frames ▸ hk)
  -- Scopes may have been dropped, but those of the frames are kept, with their parents.
  have hparent : ∀ k ∈ f :: callers, after.arena.contains k.scope = true →
      after.arena.parent? k.scope = m.arena.parent? k.scope :=
    fun k hk => parent?_of_advance h.rooted ha (hpresent k hk)
  cases hrun.advance (h.callable hp) ha with
  | @stays g segment' hs hrun' =>
    have hframes : ∀ k ∈ g :: callers, after.arena.contains k.scope = true :=
      fun k hk => hafter.frames k (hrun'.frames ▸ hk)
    obtain ⟨hg, hcallers⟩ := List.forall_mem_cons.mp hframes
    refine .inr ⟨g, callers, segment', below, hrun', hentered.congr hs
      (hentered.code_eq hrun'.awaiting) fun k hk => hparent k hk ?_⟩
    rcases List.mem_cons.mp hk with rfl | hk
    · exact hs ▸ hg
    · exact hcallers k hk
  | @enters g operands params closed hs hb hrun' =>
    have hframes : ∀ k ∈ g :: { f with ip := f.ip + 1 } :: callers,
        after.arena.contains k.scope = true := fun k hk => hafter.frames k (hrun'.frames ▸ hk)
    obtain ⟨-, hrest⟩ := List.forall_mem_cons.mp hframes
    obtain ⟨hf, hcallers⟩ := List.forall_mem_cons.mp hrest
    have hg : g ∈ after.frames := hrun'.frames ▸ List.mem_cons_self
    have hclosed := parent?_of_entered hrun h.rooted hafter ha hs hg hrun'.stack
    refine .inr ⟨g, _, [], _, hrun', .call hclosed hb.height_eq ?_⟩
    refine hentered.congr rfl (fun _ => rfl) fun k hk => hparent k hk ?_
    rcases List.mem_cons.mp hk with rfl | hk
    · exact hf
    · exact hcallers k hk
  | @returns caller frames v params closed segment' rest hf hs hb hrun' =>
    subst hf
    have hframes : ∀ k ∈ caller :: frames, after.arena.contains k.scope = true :=
      fun k hk => hafter.frames k (hrun'.frames ▸ hk)
    have hcaller := hentered.returned hs hb.height_eq
    refine .inr ⟨caller, frames, _, rest, hrun', hcaller.congr rfl (fun _ => rfl) fun k hk => ?_⟩
    exact hparent k (List.mem_cons_of_mem _ hk) (hframes k hk)
  | finishes hf hn hs => exact .inl ⟨hn, _, hs⟩

/-! ## Programs -/

theorem Scoped.congr (h : m.Scoped bound program) (hs : after.stack = m.stack)
    (hf : after.frames = m.frames) (ha : after.arena = m.arena) : after.Scoped bound program := by
  obtain ⟨belongs, hall, hplaced, hcode⟩ := h.lexical
  refine ⟨⟨belongs, ⟨?_, ?_, ?_⟩, ha ▸ hplaced, hf ▸ hcode⟩, h.rooted.congr hf ha, ?_⟩
  · rw [hs, ha]
    exact hall.stack
  · rw [ha]
    exact hall.arena
  · rw [hf, ha]
    exact hall.frames
  · rcases h.order with ⟨hnone, v, hv⟩ | ⟨f, callers, segment, below, hrun, hentered⟩
    · exact .inl ⟨hf.trans hnone, v, hs.trans hv⟩
    · exact .inr ⟨f, callers, segment, below, hrun.congr hf hs, ha ▸ hentered⟩

/-- **All machines that a program leads to keep to lexical scoping**, those where a step has failed
included. -/
theorem scoped_of_stepTimes (hm : m.Scoped bound program)
    (hp : Code.Within bound (fun _ => True) program) (hfault : m.fault = none) (n : Nat) :
    (m.stepTimes n).1.Scoped bound program :=
  stepTimes_induction (fun _ _ h ha => h.advance hp ha) (fun _ h => h.settled)
    (fun _ _ h hs hf ha => h.congr hs hf ha) hm hfault n

/-- A program that is about to run, where there is only a global scope. -/
theorem scoped_ofProgram {arena : Arena} {vars : Bindings}
    (hp : Code.Within bound (fun _ => True) program) (hb : Code.Balanced program 0)
    (hglobal : arena.get? Arena.globalId = some ⟨vars, none⟩)
    (honly : ∀ id, arena.contains id = true → id = Arena.globalId)
    (hnext : Arena.globalId < arena.nextId) (hvars : ∀ v ∈ vars.values, ∀ id, ¬ v.Holds id)
    (threshold : Int) : (ofProgram program arena threshold).Scoped bound program := by
  have hrooted := Arena.rooted_of_only hglobal honly hnext
  have hlexical : (ofProgram program arena threshold).Lexical bound program fun _ => [] := by
    refine ⟨⟨fun _ hv => absurd hv List.not_mem_nil, fun id s _ hs => ?_, fun f hf => ?_⟩,
      fun id s hs => ?_, fun f hf => ?_⟩
    · obtain ⟨-, rfl⟩ := Arena.eq_of_only hglobal honly hs
      exact ⟨fun v hv => Value.AllClosures.of_not_holds (hvars v hv), nofun⟩
    · obtain rfl := List.mem_singleton.mp hf
      exact ⟨hrooted.global, hp⟩
    · obtain ⟨rfl, rfl⟩ := Arena.eq_of_only hglobal honly hs
      exact .global rfl rfl
    · obtain rfl := List.mem_singleton.mp hf
      rfl
  have hrunning : (ofProgram program arena threshold).Running
      ⟨program, 0, Arena.globalId⟩ [] [] [] :=
    ⟨rfl, rfl, Int.le_refl 0, .balanced hb, .nothing _⟩
  exact ⟨⟨_, hlexical⟩, rooted_ofProgram hrooted program threshold,
    .inr ⟨_, _, _, _, hrunning, .program rfl⟩⟩

/-- A name that a scope does not bind is looked up from its parent. -/
theorem find_parent (hr : m.Rooted) {id parent : ScopeId} {s : Scope}
    (hs : m.arena.get? id = some s) (hp : s.parent = some parent) {name : String}
    (hname : name ∉ s.vars.names) : m.arena.find id name = m.arena.find parent name := by
  have hdescending : m.arena.Descending fun k => m.arena.contains k = true :=
    fun k t next _ ht hn => hr.arena.parents k t next ht hn
  have hid : m.arena.contains id = true := Arena.contains_iff.mpr ⟨s, hs⟩
  have hparent := (hr.arena.parents id s parent hs hp).2
  rw [Arena.find_eq_iff hdescending hid]
  exact .outwards hs (Bindings.get?_eq_none hname) hp
    ((Arena.find_eq_iff hdescending hparent).mp rfl)

/-- **Scoping is lexical.**  Let forms without closures be compiled, and let the code run where
there is only a global scope, and no closure in it.  Then, however many steps are taken and scopes
dropped, the frame of the program runs in the global scope.  Every closure that is part of a value
on the stack or in a scope was made by the code at a place in the program, and the way outwards
from its scope goes through scopes of the functions around that place, from the inside outwards,
to the global scope.  Every other frame runs the code of a closure on the stack, in a scope whose
parent is the closure's; a name that is not bound in the frame's own scope is found as from
there. -/
theorem lexical_scoping {bound : List String} {forms : List Value} {program : Code}
    {arena : Arena} {vars : Bindings} (hforms : ∀ form ∈ forms, ∀ id, ¬ form.Holds id)
    (hprogram : Code.ofProgram bound forms = .ok program)
    (hglobal : arena.get? Arena.globalId = some ⟨vars, none⟩)
    (honly : ∀ id, arena.contains id = true → id = Arena.globalId)
    (hnext : Arena.globalId < arena.nextId) (hvars : ∀ v ∈ vars.values, ∀ id, ¬ v.Holds id)
    (threshold : Int) (n : Nat) :
    let m := ((ofProgram program arena threshold).stepTimes n).1
    (∀ f ∈ m.frames.getLast?, f.code = program ∧ f.scope = Arena.globalId) ∧
    (∀ v, (v ∈ m.stack ∨ ∃ id s, m.arena.get? id = some s ∧ v ∈ s.vars.values) →
      ∀ params code scope, v.HoldsClosure params code scope →
        ∃ nest, Code.Nested program ((params, code) :: nest) ∧ m.arena.Chain scope nest) ∧
    ∀ f ∈ m.frames.dropLast, ∃ params scope s, .closure params f.code scope ∈ m.stack ∧
      m.arena.get? f.scope = some s ∧ s.parent = some scope ∧
      ∀ name, name ∉ s.vars.names → m.arena.find f.scope name = m.arena.find scope name := by
  intro m
  obtain ⟨hbalanced, hwithin⟩ := Code.within_of_ofProgram (N := fun _ => True) trivial
    (fun _ _ => trivial) hforms hprogram
  have hm : m.Scoped (Code.programNames bound forms) program :=
    scoped_of_stepTimes (scoped_ofProgram hwithin hbalanced hglobal honly hnext hvars threshold)
      hwithin rfl n
  obtain ⟨⟨belongs, hlexical⟩, hrooted, horder⟩ := hm
  have hclosure : ∀ v : Value, v.AllClosures (Fits program belongs m.arena) →
      ∀ params code scope, v.HoldsClosure params code scope →
        ∃ nest, Code.Nested program ((params, code) :: nest) ∧ m.arena.Chain scope nest := by
    intro v hv params code scope hc
    obtain ⟨hscope, hnested⟩ := hv params code scope hc
    exact ⟨belongs scope, hnested, hlexical.chain hscope⟩
  refine ⟨fun f hf => ?_, fun v hv => hclosure v ?_, fun f hf => ?_⟩
  · rcases horder with ⟨hnone, -⟩ | ⟨g, callers, segment, below, hrun, hentered⟩
    · simp [hnone] at hf
    · have hscope := hentered.exists_closure.1 f (hrun.frames ▸ hf)
      have hcode := hlexical.code f (List.mem_of_mem_getLast? hf)
      rw [hscope, hlexical.belongs_global hrooted.arena.global] at hcode
      exact ⟨hcode, hscope⟩
  · rcases hv with hv | ⟨id, s, hs, hv⟩
    · exact hlexical.all.stack v hv
    · exact (hlexical.all.arena id s (Arena.contains_iff.mpr ⟨s, hs⟩) hs).1 v hv
  · rcases horder with ⟨hnone, -⟩ | ⟨g, callers, segment, below, hrun, hentered⟩
    · simp [hnone] at hf
    · obtain ⟨params, closed, hmem, hparent⟩ := hentered.exists_closure.2 f (hrun.frames ▸ hf)
      obtain ⟨s, hs, hp⟩ := Option.bind_eq_some_iff.mp hparent
      refine ⟨params, closed, s, ?_, hs, hp, fun name hname => find_parent hrooted hs hp hname⟩
      rw [hrun.stack]
      exact List.mem_append_right _ hmem

/-- The inner function of `(((lambda (x) (lambda () x)) true))`, in its scope below that of `x`. -/
theorem lexical_scoping_inner :
    let form : Value := .ofList [.ofList [.ofList [.symbol "lambda",
        .ofList [.symbol "x"] none .nil,
        .ofList [.symbol "lambda", .nil, .symbol "x"] none .nil] none .nil,
      .bool true] none .nil] none .nil
    let inner : Code := [.lookup "x", .ret]
    let outer : Code := [.pushConst (.template ⟨[], none⟩ inner), .makeClosure, .ret]
    let program : Code := [.pushConst (.template ⟨["x"], none⟩ outer), .makeClosure,
      .pushConst (.bool true), .call 1, .call 0, .ret]
    Code.ofProgram [] [form] = .ok program ∧
      let m := ((ofProgram program .empty 0).stepTimes 8).1
      (∃ nest, Code.Nested program ((⟨[], none⟩, inner) :: nest) ∧ m.arena.Chain 1 nest) ∧
        ∃ s, m.arena.get? 2 = some s ∧ s.parent = some 1 := by
  intro form inner outer program
  have hform : ∀ id, ¬ form.Holds id := by
    intro id
    rw [← Value.mem_scopes]
    simp [form, Value.ofList, Value.scopes]
  have hprogram : Code.ofProgram [] [form] = .ok program := rfl
  have hglobal : Arena.empty.get? Arena.globalId = some ⟨[], none⟩ := rfl
  obtain ⟨-, hclosures, hframes⟩ := lexical_scoping (by simpa using hform) hprogram hglobal
    (fun _ => Arena.only_ofGlobals) Int.zero_lt_one (by simp [Bindings.values]) 0 8
  have hstack : ((ofProgram program .empty 0).stepTimes 8).1.stack =
      [.closure ⟨[], none⟩ inner 1] := rfl
  refine ⟨hprogram, hclosures _ (.inl (hstack ▸ List.mem_cons_self)) _ _ _ .here, ?_⟩
  obtain ⟨params, scope, s, hm, hs, hp, -⟩ := hframes ⟨inner, 0, 2⟩ (.head _)
  rw [hstack] at hm
  obtain ⟨-, -, rfl⟩ := Value.closure.inj (List.mem_singleton.mp hm)
  exact ⟨s, hs, hp⟩

end Machine

end StackLisp
