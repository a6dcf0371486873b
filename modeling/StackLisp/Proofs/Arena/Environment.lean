import StackLisp.Proofs.Machine.Kept

/-!
# Environments

What names mean in a scope is an **environment**: the variables of the scope, of its parent, and
so on, the innermost first.  A scope **shows** an environment (`Arena.Shows`) if these are the
variables that a look-up meets on its way outwards.

**A look-up asks the environment** (`Shows.find`), and the operations on an arena do to environments
what one expects: a new scope shows its variables before what its parent shows, a definition changes
the environment of its own scope and of no scope with a smaller id, and a collection leaves those of
the reached scopes alone.
-/

namespace StackLisp

/-- The variables of the scopes on a way outwards, the innermost first. -/
abbrev Environment := List Bindings

namespace Environment

/-- The value of a name: that of the innermost binding. -/
def get? (env : Environment) (name : String) : Option Value :=
  env.findSome? (Bindings.get? name)

@[simp] theorem get?_cons (vars : Bindings) (env : Environment) (name : String) :
    get? (vars :: env) name = (vars.get? name).or (env.get? name) := by
  cases h : vars.get? name <;> simp [get?, h]

end Environment

namespace Arena
variable {a b : Arena} {id : ScopeId} {vars : Bindings} {env : Environment}

/-- **What a scope shows**, all of whose parents are present and have smaller ids. -/
inductive Shows (a : Arena) : ScopeId → Environment → Prop
  | outermost {id : ScopeId} {vars : Bindings} (hs : a.get? id = some ⟨vars, none⟩) :
      Shows a id [vars]
  | inner {id parent : ScopeId} {vars : Bindings} {env : Environment}
      (hs : a.get? id = some ⟨vars, some parent⟩) (hlt : parent < id) (h : Shows a parent env) :
      Shows a id (vars :: env)

namespace Shows

theorem contains (h : a.Shows id env) : a.contains id = true := by
  cases h with
  | outermost hs | inner hs _ _ => exact contains_iff.mpr ⟨_, hs⟩

theorem descending (a : Arena) : a.Descending fun id => ∃ env, a.Shows id env := by
  rintro id s parent ⟨env, h⟩ hs hp
  cases h with
  | outermost hs' =>
    obtain rfl := Option.some.inj (hs'.symm.trans hs)
    cases hp
  | inner hs' hlt h =>
    obtain rfl := Option.some.inj (hs'.symm.trans hs)
    obtain rfl := Option.some.inj hp
    exact ⟨hlt, _, h⟩

/-- **A look-up asks the environment.** -/
theorem find (h : a.Shows id env) (name : String) :
    ∃ found, a.find id name = .ok found ∧ found.map (·.2) = env.get? name := by
  suffices ∃ found, a.Finds name id (.ok found) ∧ found.map (·.2) = env.get? name by
    obtain ⟨found, hf, hv⟩ := this
    exact ⟨found, (find_eq_iff (descending a) ⟨env, h⟩).mpr hf, hv⟩
  induction h with
  | @outermost id vars hs =>
    cases hv : vars.get? name with
    | some v => exact ⟨_, .here hs hv, by simp [hv]⟩
    | none => exact ⟨_, .nowhere hs hv rfl, by simp [hv, Environment.get?]⟩
  | @inner id parent vars env hs _ _ ih =>
    cases hv : vars.get? name with
    | some v => exact ⟨_, .here hs hv, by simp [hv]⟩
    | none =>
      obtain ⟨found, hf, hfound⟩ := ih
      exact ⟨found, .outwards hs hv rfl hf, by simp [hv, hfound]⟩

/-- Only the scopes with ids up to its own matter to what a scope shows. -/
theorem congr (h : a.Shows id env) (hab : ∀ k ≤ id, b.get? k = a.get? k) : b.Shows id env := by
  induction h with
  | outermost hs => exact .outermost ((hab _ (Int.le_refl _)).trans hs)
  | inner hs hlt _ ih =>
    exact .inner ((hab _ (Int.le_refl _)).trans hs) hlt <| ih fun k hk =>
      hab k (Int.le_trans hk (Int.le_of_lt hlt))

/-! ## What the operations do -/

section Allocate
variable {parent : ScopeId} (ha : a.allocate vars parent = .ok (id, b))
  (hfresh : ∀ k, a.contains k = true → k < a.nextId)
include ha hfresh

/-- An allocation changes no environment. -/
theorem allocate {k : ScopeId} (h : a.Shows k env) : b.Shows k env := by
  refine h.congr fun j hj => ?_
  rw [get?_allocate ha, if_neg (Int.ne_of_gt (Int.lt_of_le_of_lt hj (hfresh k h.contains)))]

/-- **A new scope shows its variables** before what its parent shows. -/
theorem of_allocate (h : a.Shows parent env) : b.Shows id (vars :: env) := by
  obtain ⟨rfl, -, -⟩ := id_of_allocate ha
  exact .inner ((get?_allocate ha _).trans (if_pos rfl)) (hfresh parent h.contains)
    (h.allocate ha hfresh)

end Allocate

section Define
variable {name : String} {v : Value}

/-- A definition is no matter to scopes with smaller ids. -/
theorem define_of_lt {k : ScopeId} (hd : a.define id name v = .ok b) (h : a.Shows k env)
    (hlt : k < id) : b.Shows k env := by
  refine h.congr fun j hj => ?_
  rw [get?_define hd]
  cases a.get? j with
  | none => rfl
  | some s => rw [Option.map_some, if_neg (Int.ne_of_gt (Int.lt_of_le_of_lt hj hlt))]

/-- **A definition gives its name a value** in the environment of its scope. -/
theorem define (h : a.Shows id (vars :: env)) (name : String) (v : Value) :
    ∃ b, a.define id name v = .ok b ∧ b.Shows id (vars.set name v :: env) := by
  obtain ⟨s, hs⟩ := contains_iff.mp h.contains
  obtain ⟨b, hd⟩ : ∃ b, a.define id name v = .ok b := by
    simp [Arena.define, get_eq_ok.mpr hs, Bind.bind, Except.bind]
  refine ⟨b, hd, ?_⟩
  cases h with
  | outermost hs => exact .outermost (by simp [get?_define hd, hs])
  | inner hs hlt h => exact .inner (by simp [get?_define hd, hs]) hlt (h.define_of_lt hd hlt)

end Define

/-- **A collection keeps what reached scopes show.** -/
theorem collect {roots : List ScopeId} {values : List Value} (h : a.Shows id env)
    (hr : a.Reached (IsRoot roots values) id) : (a.collect roots values).Shows id env := by
  induction h with
  | outermost hs => exact .outermost ((get?_collect_of_reached hr).trans hs)
  | inner hs hlt _ ih =>
    exact .inner ((get?_collect_of_reached hr).trans hs) hlt (ih (hr.step hs (.inl rfl)))

end Shows

end Arena

end StackLisp
