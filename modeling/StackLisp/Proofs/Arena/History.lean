import StackLisp.Proofs.Machine.Safety

/-!
# Histories of arenas

A host works on arenas in place: it adds scopes, defines names, collects scopes, and takes
copies that go their own ways from then on.  What fails is given up, and the host goes on.

**Whatever the host did** (`Arena.histories_sound`), in each of its arenas all ways outwards lead
to the global scope, through ever smaller ids, and the next id is above all ids that the arena ever
had, or the arena that it was copied from (`Line.Sound`).  So ids are never given twice, though
collections free them, and a look-up always ends.  That no id is given twice is more than that the
next id is above those that are present: a closure somewhere else may still hold an id that is
free.
-/

namespace StackLisp

namespace Arena

/-! ## Work in place -/

/-- **Work on an arena in place.**  When it fails, the arena is left as it is then. -/
abbrev Work := EStateM Fault Arena

/-- What can be asked of an arena. -/
inductive Request where
  | allocate (vars : Bindings) (parent : ScopeId)
  | define (id : ScopeId) (name : String) (value : Value)
  | collect (roots : List ScopeId) (values : List Value)

theorem define_eq (a : Arena) (id : ScopeId) (name : String) (value : Value) :
    a.define id name value =
      match a.get? id with
      | some s =>
        .ok { a with scopes := a.scopes.insert id { s with vars := s.vars.set name value } }
      | none => .error (.missingScope id) := by
  cases h : a.get? id <;> simp [define, get, h, Bind.bind, Except.bind]

namespace Work

/-- Takes the next id. -/
def takeId : Work ScopeId :=
  modifyGet fun a => (a.nextId, { a with nextId := a.nextId + 1 })

/-- Adds a scope below another one. -/
def allocate (vars : Bindings) (parent : ScopeId) : Work ScopeId := do
  if (← getThe Arena).contains parent then
    let id ← takeId
    modify fun a => { a with scopes := a.scopes.insert id ⟨vars, some parent⟩ }
    return id
  else throw (.missingParent parent)

/-- Binds a name in a scope. -/
def define (id : ScopeId) (name : String) (value : Value) : Work Unit := do
  match (← getThe Arena).get? id with
  | some s =>
    modify fun a => { a with scopes := a.scopes.insert id { s with vars := s.vars.set name value } }
  | none => throw (.missingScope id)

/-- The work that is done for a request. -/
def ofRequest : Request → Work Unit
  | .allocate vars parent => do
    let _ ← allocate vars parent
  | .define id name value => define id name value
  | .collect roots values => modify (·.collect roots values)

section Run
variable {α β : Type} (a : Arena)

@[simp] theorem pure_run (v : α) : (pure v : Work α) a = .ok v a := rfl

@[simp] theorem bind_run (first : Work α) (next : α → Work β) :
    (first >>= next) a =
      match first a with
      | .ok v after => next v after
      | .error fault after => .error fault after := by
  cases h : first a <;> simp [bind, EStateM.bind, h]

@[simp] theorem get_run : (getThe Arena : Work Arena) a = .ok a a := rfl

@[simp] theorem modify_run (change : Arena → Arena) :
    (modify change : Work PUnit) a = .ok ⟨⟩ (change a) := rfl

@[simp] theorem throw_run (fault : Fault) : (throw fault : Work α) a = .error fault a := rfl

@[simp] theorem takeId_run : takeId a = .ok a.nextId { a with nextId := a.nextId + 1 } := rfl

/-- **An allocation in place fails before it takes an id.** -/
theorem allocate_run (vars : Bindings) (parent : ScopeId) :
    allocate vars parent a =
      match a.allocate vars parent with
      | .ok (id, after) => .ok id after
      | .error fault => .error fault a := by
  simp only [allocate, Arena.allocate, bind_run, get_run]
  cases a.contains parent <;> rfl

theorem define_run (id : ScopeId) (name : String) (value : Value) :
    define id name value a =
      match a.define id name value with
      | .ok after => .ok () after
      | .error fault => .error fault a := by
  simp only [define_eq, define, bind_run, get_run]
  cases a.get? id <;> rfl

end Run

end Work

/-- **The arena after a request**, whether that succeeded or not. -/
def served (a : Arena) (r : Request) : Arena :=
  match Work.ofRequest r a with
  | .ok _ after => after
  | .error _ after => after

/-- **What a request does**: it changes the arena, or collects scopes. -/
theorem served_cases (a : Arena) (r : Request) :
    (∃ scope, a.Changed scope (a.served r)) ∨
      ∃ roots values, a.served r = a.collect roots values := by
  cases r with
  | allocate vars parent =>
    refine .inl ⟨parent, ?_⟩
    simp only [served, Work.ofRequest, Work.bind_run, Work.allocate_run]
    cases h : a.allocate vars parent with
    | ok r => exact .allocated h
    | error fault => exact .same
  | define id name value =>
    refine .inl ⟨id, ?_⟩
    simp only [served, Work.ofRequest, Work.define_run]
    cases h : a.define id name value with
    | ok after => exact .defined h
    | error fault => exact .same
  | collect roots values => exact .inr ⟨roots, values, rfl⟩

/-! ## Families of arenas -/

/-- An arena with its past. -/
structure Line where
  arena : Arena
  /-- The ids of all scopes that the arena ever had, or before it was copied the one that it was
  copied from. -/
  past : List ScopeId

namespace Line

/-- The line of a new arena. -/
def start : Line := ⟨.empty, Arena.empty.ids⟩

/-- The line after a request. -/
def after (l : Line) (r : Request) : Line :=
  ⟨l.arena.served r, (l.arena.served r).ids ++ l.past⟩

end Line

/-- What a host does with its arenas, which are counted from zero. -/
inductive Action where
  /-- Asks something of an arena. -/
  | ask (place : Nat) (r : Request)
  /-- Takes a copy of an arena, which becomes the last one. -/
  | snapshot (place : Nat)

/-- The arenas after an action. -/
def act (lines : List Line) : Action → List Line
  | .ask place r => lines.modify place (·.after r)
  | .snapshot place => lines ++ lines[place]?.toList

/-- **The arenas of a host** that started with a new one, after some actions. -/
def history (actions : List Action) : List Line :=
  actions.foldl act [.start]

/-- **What is so in every arena**: the global scope is present and has no parent, all others have
a parent that is present and has a smaller id, and the next id is above all ids of the past. -/
structure Line.Sound (l : Line) : Prop where
  global : ∃ s, l.arena.get? globalId = some s ∧ s.parent = none
  inner : ∀ id s, l.arena.get? id = some s → id ≠ globalId →
    ∃ parent, s.parent = some parent ∧ parent < id ∧ l.arena.contains parent = true
  fresh : ∀ id ∈ l.past, id < l.arena.nextId
  known : ∀ id, l.arena.contains id = true → id ∈ l.past

namespace Line.Sound
variable {l : Line}

theorem rooted (h : l.Sound) : l.arena.Rooted where
  global := contains_iff.mpr (h.global.imp fun _ hs => hs.1)
  parents id s parent hs hp := by
    by_cases hid : id = globalId
    · subst hid
      obtain ⟨s', hs', hp'⟩ := h.global
      cases hs.symm.trans hs'
      cases hp.symm.trans hp'
    · obtain ⟨parent', hp', hlt, hc⟩ := h.inner id s hs hid
      cases hp.symm.trans hp'
      exact ⟨hlt, hc⟩
  fresh id hid := h.fresh id (h.known id hid)

theorem start : Line.start.Sound where
  global := ⟨emptyScope, get?_ofGlobals [] globalId, rfl⟩
  inner _ _ hs hid := absurd (eq_of_get?_ofGlobals hs).1 hid
  fresh _ hid := fresh_ofGlobals (contains_iff.mpr (mem_ids.mp hid))
  known _ hid := mem_ids.mpr (contains_iff.mp hid)

/-- What goes on from a line, if its next id is not smaller. -/
theorem goes_on (h : l.Sound) {b : Arena} (hr : b.Rooted)
    (hn : l.arena.nextId ≤ b.nextId)
    (hg : ∀ s, b.get? globalId = some s → s.parent = none)
    (hi : ∀ id s, b.get? id = some s → id ≠ globalId → s.parent ≠ none) :
    Line.Sound ⟨b, b.ids ++ l.past⟩ where
  global := (contains_iff.mp hr.global).imp fun s hs => ⟨hs, hg s hs⟩
  inner id s hs hid := by
    obtain ⟨parent, hp⟩ := Option.ne_none_iff_exists'.mp (hi id s hs hid)
    exact ⟨parent, hp, hr.parents id s parent hs hp⟩
  fresh id hid := by
    rcases List.mem_append.mp hid with hid | hid
    · exact hr.fresh id (contains_iff.mpr (mem_ids.mp hid))
    · exact Int.lt_of_lt_of_le (h.fresh id hid) hn
  known id hid := List.mem_append_left _ (mem_ids.mpr (contains_iff.mp hid))

/-- **Requests keep all this**, whether they succeed or not. -/
theorem after (h : l.Sound) (r : Request) : (l.after r).Sound := by
  have hroot := h.rooted
  obtain ⟨top, htop, hnone⟩ := h.global
  rcases l.arena.served_cases r with ⟨scope, hc⟩ | ⟨roots, values, heq⟩
  · refine h.goes_on (hroot.changed hc) ?_ (fun s hs => ?_) fun id s hs hid => ?_
    · rcases hc.nextId with hn | hn
      · exact Int.le_of_eq hn.symm
      · exact Int.le_trans (Int.le_of_lt (Int.lt_succ _)) (Int.le_of_eq hn.symm)
    · rcases hc.get? hs with ⟨old, ho, hp⟩ | ⟨hnew, -⟩
      · cases ho.symm.trans htop
        exact hp.trans hnone
      · exact absurd (hroot.fresh globalId hroot.global) (hnew ▸ Int.lt_irrefl _)
    · rcases hc.get? hs with ⟨old, ho, hp⟩ | ⟨-, parent, hp, -⟩
      · obtain ⟨parent, hp', -⟩ := h.inner id old ho hid
        simp [hp, hp']
      · simp [hp]
  · unfold Line.after
    rw [heq]
    refine h.goes_on (hroot.collect roots values) (Int.le_refl _) (fun s hs => ?_)
      fun id s hs hid => ?_
    · cases (reached_of_get?_collect hs).1.symm.trans htop
      exact hnone
    · obtain ⟨parent, hp, -⟩ := h.inner id s (reached_of_get?_collect hs).1 hid
      simp [hp]

end Line.Sound

theorem act_sound {lines : List Line} (h : ∀ l ∈ lines, l.Sound) (action : Action) :
    ∀ l ∈ act lines action, l.Sound := by
  intro l hl
  cases action with
  | ask place r =>
    obtain ⟨k, hk⟩ := List.mem_iff_getElem?.mp hl
    rw [act, List.getElem?_modify] at hk
    obtain ⟨before, hb, rfl⟩ := Option.map_eq_some_iff.mp hk
    have := h before (List.mem_of_getElem? hb)
    split
    · exact this.after r
    · exact this
  | snapshot place =>
    rcases List.mem_append.mp hl with hl | hl
    · exact h l hl
    · exact h l (List.mem_of_getElem? (Option.mem_toList.mp hl))

/-- **All arenas of a host are sound**, at any time. -/
theorem sound_of_mem_history {actions : List Action} {l : Line} (hl : l ∈ history actions) :
    l.Sound := by
  have key : ∀ (actions : List Action) (lines : List Line), (∀ l ∈ lines, l.Sound) →
      ∀ l ∈ actions.foldl act lines, l.Sound := by
    intro actions
    induction actions with
    | nil => exact fun _ h => h
    | cons action actions ih => exact fun lines h => ih _ (act_sound h action)
  exact key actions _ (fun l hl => List.mem_singleton.mp hl ▸ .start) l hl

/-! ## Ids and look-ups -/

namespace Line.Sound
variable {l : Line}

theorem descending (h : l.Sound) : l.arena.Descending (fun _ => True) :=
  fun id s parent _ hs hp => ⟨(h.rooted.parents id s parent hs hp).1, trivial⟩

/-- **A look-up fails only from a scope that is missing.** -/
theorem find_eq_error (h : l.Sound) {id : ScopeId} {name : String} {fault : Fault} :
    l.arena.find id name = .error fault ↔ l.arena.get? id = none ∧ fault = .missingScope id := by
  constructor
  · intro hf
    cases hs : l.arena.get? id with
    | none =>
      refine ⟨rfl, ?_⟩
      have hmissing : l.arena.find id name = .error (.missingScope id) :=
        (find_eq_iff h.descending trivial).mpr (.missing hs)
      cases hf.symm.trans hmissing
      rfl
    | some s =>
      have hdown : l.arena.Descending fun k => l.arena.contains k = true :=
        fun id s parent _ => h.rooted.parents id s parent
      exact absurd hf (find_ne_error hdown (fun _ hk => hk) (contains_iff.mpr ⟨s, hs⟩))
  · rintro ⟨hs, rfl⟩
    exact (find_eq_iff h.descending trivial).mpr (.missing hs)

end Line.Sound

theorem lookup_eq_error {a : Arena} {id : ScopeId} {name : String} {fault : Fault} :
    a.lookup id name = .error fault ↔
      a.find id name = .error fault ∨ a.find id name = .ok none ∧ fault = .unbound name := by
  rw [lookup, bind_eq_error]
  refine or_congr_right ⟨?_, ?_⟩
  · rintro ⟨found, hf, h⟩
    cases found with
    | none => exact ⟨hf, (Except.error.inj h).symm⟩
    | some pair => cases h
  · rintro ⟨hf, rfl⟩
    exact ⟨none, hf, rfl⟩

/-- **The arenas of a host, whatever it did**, are sound.

An allocation gives an id that the arena, and those that it was copied from, never had, and
replaces no scope.  One that fails changes nothing.  Every look-up comes to an end, and what is
missing then, if it fails so, is the scope that it started from. -/
theorem histories_sound (actions : List Action) (l : Line) (hl : l ∈ history actions) :
    l.Sound ∧
    (∀ vars parent id b, l.arena.allocate vars parent = .ok (id, b) →
      (l.after (.allocate vars parent)).arena = b ∧
      id ∉ l.past ∧ id ∈ (l.after (.allocate vars parent)).past ∧
      ∀ k s, l.arena.get? k = some s → b.get? k = some s) ∧
    (∀ vars parent fault, l.arena.allocate vars parent = .error fault →
      (l.after (.allocate vars parent)).arena = l.arena) ∧
    (∀ id name, l.arena.Finds name id (l.arena.find id name)) ∧
    (∀ id name fault, l.arena.find id name = .error fault ↔
      l.arena.get? id = none ∧ fault = .missingScope id) ∧
    (∀ id name fault, l.arena.lookup id name = .error fault ↔
      (l.arena.get? id = none ∧ fault = .missingScope id) ∨
        l.arena.find id name = .ok none ∧ fault = .unbound name) := by
  have h := sound_of_mem_history hl
  have served : ∀ vars parent, (l.after (.allocate vars parent)).arena =
      match l.arena.allocate vars parent with
      | .ok (_, b) => b
      | .error _ => l.arena := by
    intro vars parent
    simp only [Line.after, Arena.served, Work.ofRequest, Work.bind_run, Work.allocate_run]
    cases l.arena.allocate vars parent <;> rfl
  refine ⟨h, fun vars parent id b ha => ?_, fun vars parent fault ha => ?_, fun id name => ?_,
    fun id name fault => h.find_eq_error, fun id name fault => ?_⟩
  · have hb : (l.after (.allocate vars parent)).arena = b := by rw [served, ha]
    obtain ⟨rfl, -, -⟩ := id_of_allocate ha
    have hnew : l.arena.nextId ∉ l.past := fun hp => Int.lt_irrefl _ (h.fresh _ hp)
    refine ⟨hb, hnew, (h.after _).known _ ?_, fun k s hs => ?_⟩
    · rw [hb, contains_iff, get?_allocate ha, if_pos rfl]
      exact ⟨_, rfl⟩
    · rw [get?_allocate ha, if_neg, hs]
      rintro rfl
      exact hnew (h.known _ (contains_iff.mpr ⟨s, hs⟩))
  · rw [served, ha]
  · exact (find_eq_iff h.descending trivial).mp rfl
  · rw [lookup_eq_error, h.find_eq_error]

/-- The scope with id 1 is freed, and an allocation fails.  The next one does not give that id
again. -/
theorem histories_sound_freed :
    let actions := [.ask 0 (.allocate [] 0), .snapshot 0, .ask 0 (.collect [] []),
      .ask 0 (.allocate [] 1)]
    ∃ l ∈ history actions, l.arena.ids = [0] ∧
      ∃ b, l.arena.allocate [] 0 = .ok (2, b) ∧ 2 ∉ l.past ∧ l.Sound := by
  intro actions
  have hmem : (history actions).headD .start ∈ history actions := List.mem_cons_self
  obtain ⟨hsound, hnew, -⟩ := histories_sound actions _ hmem
  have ha : ∃ b, ((history actions).headD .start).arena.allocate [] 0 = .ok (2, b) := ⟨_, rfl⟩
  obtain ⟨b, ha⟩ := ha
  exact ⟨_, hmem, by decide +kernel, b, ha, (hnew _ _ _ _ ha).2.1, hsound⟩

end Arena

end StackLisp
