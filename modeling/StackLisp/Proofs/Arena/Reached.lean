import StackLisp.Arena.Collect

/-!
# Reached scopes

The collector works with sets of scopes and two lists of things to do.  Here is what it should
find, said without them.  A scope **leads to** its parent and to all scopes that its values
hold, and a scope is **reached** (`Arena.Reached`) if one comes to it from the roots, going only
through scopes of the arena.

**The collector keeps exactly the scopes that are reached** (`get?_collect_of_reached`,
`get?_collect_of_not_reached`).  While it works, every scope that is no longer unseen is
reached, and all scopes that such a scope leads to have been seen too, unless it is still
pending (`Marking.Sound`).  Seeing a scope moves it from the unseen to the pending ones, so
the two together never grow, and the number of scopes is enough to come to an end.
-/

namespace StackLisp

/-! ## What a value holds -/

/-- **A value holds a scope** if a closure over that scope is in it, also inside lists and
quoted values. -/
inductive Value.Holds (id : ScopeId) : Value → Prop
  | closure (params : Parameters) (code : Code) : Value.Holds id (.closure params code id)
  | quoted {v : Value} (h : Value.Holds id v) : Value.Holds id (.quoted v)
  | head {head tail : Value} {loc : Option Location} (h : Value.Holds id head) :
      Value.Holds id (.pair head tail loc)
  | tail {head tail : Value} {loc : Option Location} (h : Value.Holds id tail) :
      Value.Holds id (.pair head tail loc)

/-- The scopes kept with a value are those that it holds. -/
theorem Value.mem_scopes (id : ScopeId) : ∀ v : Value, id ∈ v.scopes ↔ v.Holds id
  | .nil | .bool _ | .number _ | .text _ | .symbol _ | .template _ _ =>
    ⟨fun h => absurd h (by simp [Value.scopes]), fun h => nomatch h⟩
  | .quoted v => by
    rw [Value.scopes, mem_scopes id v]
    exact ⟨.quoted, fun h => by cases h; assumption⟩
  | .pair head tail _ => by
    rw [Value.scopes, Std.TreeSet.mem_union_iff, mem_scopes id head, mem_scopes id tail]
    exact ⟨fun h => h.elim .head .tail, fun h => by cases h <;> simp [*]⟩
  | .closure params code scope => by
    rw [Value.scopes]
    constructor
    · intro h
      obtain rfl : scope = id := by simpa using h
      exact .closure params code
    · intro h
      cases h
      simp

/-- A scope leads to its parent and to the scopes that its values hold. -/
def Scope.LeadsTo (s : Scope) (id : ScopeId) : Prop :=
  s.parent = some id ∨ ∃ v ∈ s.vars.values, v.Holds id

namespace Arena

/-- **The scopes that are reached** from some roots. -/
inductive Reached (a : Arena) (roots : ScopeId → Prop) : ScopeId → Prop
  | root {id : ScopeId} (h : roots id) : Reached a roots id
  | step {id next : ScopeId} {s : Scope} (h : Reached a roots id) (hs : a.get? id = some s)
      (hl : s.LeadsTo next) : Reached a roots next

/-- **More roots reach no more scopes** if those that are present are reached already. -/
theorem Reached.of_roots {a : Arena} {roots roots' : ScopeId → Prop} {id : ScopeId}
    (h : a.Reached roots id) (hroots : ∀ id s, roots id → a.get? id = some s → a.Reached roots' id)
    {s : Scope} (hs : a.get? id = some s) : a.Reached roots' id := by
  induction h generalizing s with
  | root hid => exact hroots _ s hid hs
  | step _ hs' hl ih => exact .step (ih hs') hs' hl

/-- The roots of a collection: the global scope, the given scopes and those that the given
values hold. -/
def IsRoot (roots : List ScopeId) (values : List Value) (id : ScopeId) : Prop :=
  id = globalId ∨ id ∈ roots ∨ ∃ v ∈ values, v.Holds id

namespace Marking
variable {a : Arena} {R : ScopeId → Prop} {m : Marking}

/-- A scope that is not among the unseen ones, either since it was seen or since there is no
such scope. -/
def Seen (m : Marking) (id : ScopeId) : Prop :=
  m.unseen[id]? = none

/-- The scopes that still have to be dealt with. -/
def load (m : Marking) : Nat :=
  m.pending.length + m.unseen.size

/-- **What a marking has found out**, where `R` are the scopes that are reached: unseen scopes
are as they were, seen and pending ones are reached, and whatever a seen scope leads to has
been seen, unless the scope is pending or `exempt`. -/
structure Sound (a : Arena) (R : ScopeId → Prop) (exempt : List Scope) (m : Marking) :
    Prop where
  unseen : ∀ id s, m.unseen[id]? = some s → a.get? id = some s
  live : ∀ id s, a.get? id = some s → m.Seen id → R id
  pending : ∀ s ∈ m.pending, ∃ id, a.get? id = some s ∧ R id
  closed : ∀ id s, a.get? id = some s → m.Seen id →
    s ∈ m.pending ∨ s ∈ exempt ∨ ∀ next, s.LeadsTo next → m.Seen next

/-- A marking that has come further: more scopes are seen, and the load is the same. -/
structure Extends (m after : Marking) : Prop where
  seen : ∀ id, m.Seen id → after.Seen id
  load : after.load = m.load

theorem Extends.refl (m : Marking) : m.Extends m := ⟨fun _ h => h, rfl⟩

theorem Extends.trans {m₁ m₂ m₃ : Marking} (h : m₁.Extends m₂) (h' : m₂.Extends m₃) :
    m₁.Extends m₃ :=
  ⟨fun id hs => h'.seen id (h.seen id hs), h'.load.trans h.load⟩

/-! ## Reaching scopes -/

theorem seen_reach (m : Marking) (id : ScopeId) : (m.reach id).Seen id := by
  unfold reach
  split
  · simp [Seen]
  · assumption

theorem extends_reach (m : Marking) (id : ScopeId) : m.Extends (m.reach id) := by
  unfold reach
  split
  · rename_i scope hs
    refine ⟨fun k hk => ?_, ?_⟩
    · simp only [Seen, Std.TreeMap.getElem?_erase] at hk ⊢
      split
      · rfl
      · exact hk
    · have hm : id ∈ m.unseen := by
        rw [Std.TreeMap.mem_iff_isSome_getElem?, hs]
        rfl
      have hc : m.unseen.contains id = true := hm
      have hpos : m.unseen.size ≠ 0 := by
        intro hz
        have := Std.TreeMap.isEmpty_eq_false_of_contains hc
        simp [Std.TreeMap.isEmpty_eq_size_eq_zero, hz] at this
      simp only [load, Std.TreeMap.size_erase, hc, if_true, List.length_cons]
      omega
  · exact .refl m

theorem Sound.reach {exempt : List Scope} (h : m.Sound a R exempt) {id : ScopeId} (hid : R id) :
    (m.reach id).Sound a R exempt := by
  have hseen := (m.extends_reach id).seen
  unfold Marking.reach at hseen ⊢
  split at hseen
  · rename_i scope hs
    have hat := h.unseen id scope hs
    have back : ∀ k, (⟨m.unseen.erase id, scope :: m.pending⟩ : Marking).Seen k →
        k = id ∨ m.Seen k := by
      intro k hk
      simp only [Seen, Std.TreeMap.getElem?_erase] at hk
      split at hk
      · rename_i hc
        exact .inl (Std.compare_eq_iff_eq.mp hc).symm
      · exact .inr hk
    refine ⟨fun k s hk => ?_, fun k s hk hu => ?_, fun s hs' => ?_, fun k s hk hu => ?_⟩
    · simp only [Std.TreeMap.getElem?_erase] at hk
      split at hk
      · cases hk
      · exact h.unseen k s hk
    · rcases back k hu with rfl | hu
      · exact hid
      · exact h.live k s hk hu
    · rcases List.mem_cons.mp hs' with rfl | hs'
      · exact ⟨id, hat, hid⟩
      · exact h.pending s hs'
    · rcases back k hu with rfl | hu
      · obtain rfl : s = scope := Option.some.inj (hk.symm.trans hat)
        exact .inl List.mem_cons_self
      · rcases h.closed k s hk hu with hp | he | hl
        · exact .inl (List.mem_cons_of_mem _ hp)
        · exact .inr (.inl he)
        · exact .inr (.inr fun next hn => hseen next (hl next hn))
  · exact h

/-- Reaching all scopes of a list. -/
theorem Sound.foldl_reach {exempt : List Scope} (h : m.Sound a R exempt) (ids : List ScopeId)
    (hids : ∀ id ∈ ids, R id) :
    (ids.foldl Marking.reach m).Sound a R exempt ∧ m.Extends (ids.foldl Marking.reach m) ∧
      ∀ id ∈ ids, (ids.foldl Marking.reach m).Seen id := by
  induction ids generalizing m with
  | nil => exact ⟨h, .refl m, fun _ hm => absurd hm List.not_mem_nil⟩
  | cons id ids ih =>
    obtain ⟨hs, he, hall⟩ := ih (h.reach (hids id List.mem_cons_self))
      (fun k hk => hids k (List.mem_cons_of_mem _ hk))
    refine ⟨hs, (m.extends_reach id).trans he, fun k hk => ?_⟩
    rcases List.mem_cons.mp hk with rfl | hk
    · exact he.seen k (m.seen_reach k)
    · exact hall k hk

/-- The candidates are scopes of the set, and those of the set that are unseen are among
them. -/
theorem mem_candidates (m : Marking) (ids : ScopeSet) (id : ScopeId) :
    (id ∈ m.candidates ids → id ∈ ids) ∧ (id ∈ ids → id ∈ m.candidates ids ∨ m.Seen id) := by
  unfold candidates
  split
  · exact ⟨fun h => Std.TreeSet.mem_toList.mp h, fun h => .inl (Std.TreeSet.mem_toList.mpr h)⟩
  · refine ⟨fun h => ?_, fun h => ?_⟩
    · exact (List.mem_filter.mp h).2
    · by_cases hu : id ∈ m.unseen
      · exact .inl (List.mem_filter.mpr ⟨Std.TreeMap.mem_keys.mpr hu, h⟩)
      · exact .inr (Std.TreeMap.getElem?_eq_none hu)

theorem Sound.reachAll {exempt : List Scope} (h : m.Sound a R exempt) {ids : ScopeSet}
    (hids : ∀ id ∈ ids, R id) :
    (m.reachAll ids).Sound a R exempt ∧ m.Extends (m.reachAll ids) ∧
      ∀ id ∈ ids, (m.reachAll ids).Seen id := by
  obtain ⟨hs, he, hall⟩ := h.foldl_reach (m.candidates ids)
    (fun id hm => hids id ((m.mem_candidates ids id).1 hm))
  refine ⟨hs, he, fun id hm => ?_⟩
  rcases (m.mem_candidates ids id).2 hm with hc | hu
  · exact hall id hc
  · exact he.seen id hu

theorem Sound.reachHeld {exempt : List Scope} (h : m.Sound a R exempt) (values : List Value)
    (hv : ∀ v ∈ values, ∀ id, v.Holds id → R id) :
    (m.reachHeld values).Sound a R exempt ∧ m.Extends (m.reachHeld values) ∧
      ∀ v ∈ values, ∀ id, v.Holds id → (m.reachHeld values).Seen id := by
  induction values generalizing m with
  | nil => exact ⟨h, .refl m, fun _ hm => absurd hm List.not_mem_nil⟩
  | cons v values ih =>
    obtain ⟨hs, he, hall⟩ := h.reachAll
      (fun id hm => hv v List.mem_cons_self id ((Value.mem_scopes id v).mp hm))
    obtain ⟨hs', he', hall'⟩ := ih hs (fun w hw => hv w (List.mem_cons_of_mem _ hw))
    refine ⟨hs', he.trans he', fun w hw id hid => ?_⟩
    rcases List.mem_cons.mp hw with rfl | hw
    · exact he'.seen id (hall id ((Value.mem_scopes id w).mpr hid))
    · exact hall' w hw id hid

/-- After a scope has been scanned, it need no longer be exempt. -/
theorem Sound.scan {s : Scope} (h : m.Sound a R [s]) (hs : ∀ id, s.LeadsTo id → R id) :
    (m.scan s).Sound a R [] ∧ m.Extends (m.scan s) := by
  obtain ⟨h₁, e₁, all₁⟩ := h.foldl_reach s.parent.toList
    (fun id hm => hs id (.inl (by simpa using hm)))
  obtain ⟨h₂, e₂, all₂⟩ := h₁.reachHeld s.vars.values
    (fun v hv id hid => hs id (.inr ⟨v, hv, hid⟩))
  refine ⟨⟨h₂.unseen, h₂.live, h₂.pending, fun id s' hid hu => ?_⟩, e₁.trans e₂⟩
  rcases h₂.closed id s' hid hu with hp | he | hl
  · exact .inl hp
  · obtain rfl : s' = s := by simpa using he
    refine .inr (.inr fun next hn => ?_)
    rcases hn with hn | ⟨v, hv, hn⟩
    · exact e₂.seen next (all₁ next (by simp [hn]))
    · exact all₂ v hv next hn
  · exact .inr (.inr hl)

/-! ## The end of a marking -/

/-- **With enough fuel no scope is left pending.** -/
theorem Sound.finish (hR : ∀ id s next, R id → a.get? id = some s → s.LeadsTo next → R next)
    (fuel : Nat) (h : m.Sound a R []) (hf : m.load ≤ fuel) :
    ∃ last : Marking, finish fuel m = last.unseen ∧ last.pending = [] ∧ last.Sound a R [] ∧
      ∀ id, m.Seen id → last.Seen id := by
  induction fuel generalizing m with
  | zero =>
    have hp : m.pending = [] := by
      cases hm : m.pending with
      | nil => rfl
      | cons s rest =>
        simp only [load, hm, List.length_cons] at hf
        omega
    exact ⟨m, rfl, hp, h, fun _ hs => hs⟩
  | succ fuel ih =>
    obtain ⟨unseen, pending⟩ := m
    cases pending with
    | nil => exact ⟨⟨unseen, []⟩, rfl, rfl, h, fun _ hs => hs⟩
    | cons s pending =>
      have hrest : Sound a R [s] ⟨unseen, pending⟩ := by
        refine ⟨h.unseen, h.live, fun s' hs' => h.pending s' (List.mem_cons_of_mem _ hs'),
          fun id s' hid hu => ?_⟩
        rcases h.closed id s' hid hu with hp | he | hl
        · rcases List.mem_cons.mp hp with rfl | hp
          · exact .inr (.inl List.mem_cons_self)
          · exact .inl hp
        · exact absurd he List.not_mem_nil
        · exact .inr (.inr hl)
      obtain ⟨id, hid, hlive⟩ := h.pending s List.mem_cons_self
      obtain ⟨hs, he⟩ := hrest.scan (fun next hn => hR id s next hlive hid hn)
      have hload : (Marking.scan ⟨unseen, pending⟩ s).load ≤ fuel := by
        rw [he.load]
        simp only [load, List.length_cons] at hf ⊢
        omega
      obtain ⟨last, hl, hp, hsound, hseen⟩ := ih hs hload
      exact ⟨last, hl, hp, hsound, fun k hk => hseen k (he.seen k hk)⟩

end Marking

/-! ## What a collection keeps -/

section Collect
variable (a : Arena) (roots : List ScopeId) (values : List Value)

/-- A marking that has seen nothing yet. -/
theorem Marking.sound_start (R : ScopeId → Prop) : Marking.Sound a R [] ⟨a.scopes, []⟩ where
  unseen _ _ h := h
  live id s h hu := by
    rw [Arena.get?] at h
    exact absurd (h.symm.trans hu) (by simp)
  pending _ h := absurd h List.not_mem_nil
  closed id s h hu := by
    rw [Arena.get?] at h
    exact absurd (h.symm.trans hu) (by simp)

/-- **Garbage is what is not reached.** -/
theorem getElem?_garbage (id : ScopeId) :
    (a.Reached (IsRoot roots values) id → (a.garbage roots values)[id]? = none) ∧
    (¬ a.Reached (IsRoot roots values) id → (a.garbage roots values)[id]? = a.get? id) := by
  let R := a.Reached (IsRoot roots values)
  have hstart := Marking.sound_start a R
  -- the roots are reached in the reverse of their order
  have hfold : (globalId :: roots).foldr (fun id m => m.reach id) (⟨a.scopes, []⟩ : Marking)
      = (globalId :: roots).reverse.foldl Marking.reach ⟨a.scopes, []⟩ := by
    rw [List.foldl_reverse]
  obtain ⟨h₁, e₁, all₁⟩ := hstart.foldl_reach (globalId :: roots).reverse
    (fun k hk => .root (by
      rcases List.mem_cons.mp (List.mem_reverse.mp hk) with rfl | hk
      · exact .inl rfl
      · exact .inr (.inl hk)))
  obtain ⟨h₂, e₂, all₂⟩ := h₁.reachHeld values
    (fun v hv k hk => .root (.inr (.inr ⟨v, hv, hk⟩)))
  obtain ⟨last, hlast, hnil, hsound, hseen⟩ := h₂.finish
    (fun k s next hk hs hl => .step hk hs hl) a.size (by
      rw [e₂.load, e₁.load]
      simp [Marking.load, Arena.size])
  have hg : a.garbage roots values = last.unseen := by
    rw [← hlast, ← hfold]
    rfl
  rw [hg]
  refine ⟨fun hr => ?_, fun hr => ?_⟩
  · induction hr with
    | root h =>
      refine hseen _ ?_
      rcases h with rfl | h | ⟨v, hv, h⟩
      · exact e₂.seen _ (all₁ _ (by simp))
      · exact e₂.seen _ (all₁ _ (by simp [h]))
      · exact all₂ v hv _ h
    | step _ hs hl ih =>
      rcases hsound.closed _ _ hs ih with hp | he | hall
      · rw [hnil] at hp
        exact absurd hp List.not_mem_nil
      · exact absurd he List.not_mem_nil
      · exact hall _ hl
  · cases hu : last.unseen[id]? with
    | some s => exact (hsound.unseen id s hu).symm
    | none =>
      cases hs : a.get? id with
      | none => rfl
      | some s => exact absurd (hsound.live id s hs hu) hr

theorem getElem?_foldl_erase (keys : List ScopeId) (scopes : Scopes) (id : ScopeId) :
    (keys.foldl (·.erase ·) scopes)[id]? = if id ∈ keys then none else scopes[id]? := by
  induction keys generalizing scopes with
  | nil => simp
  | cons key keys ih =>
    rw [List.foldl_cons, ih]
    by_cases hk : id ∈ keys
    · simp [hk]
    · by_cases he : key = id
      · simp [he]
      · simp [hk, he, Ne.symm he, Std.TreeMap.getElem?_erase]

/-- A collection drops what is garbage. -/
theorem get?_collect (id : ScopeId) :
    (a.collect roots values).get? id =
      if (a.garbage roots values)[id]? = none then a.get? id else none := by
  rw [collect, get?, getElem?_foldl_erase]
  by_cases h : id ∈ a.garbage roots values
  · rw [if_pos (Std.TreeMap.mem_keys.mpr h), if_neg]
    rw [Std.TreeMap.mem_iff_isSome_getElem?] at h
    intro hn
    simp [hn] at h
  · rw [if_neg (fun hk => h (Std.TreeMap.mem_keys.mp hk)), if_pos (Std.TreeMap.getElem?_eq_none h)]
    rfl

variable {a roots values} {id : ScopeId}

/-- **A scope that is reached stays as it is.** -/
theorem get?_collect_of_reached (h : a.Reached (IsRoot roots values) id) :
    (a.collect roots values).get? id = a.get? id := by
  rw [get?_collect, if_pos ((a.getElem?_garbage roots values id).1 h)]

/-- **A scope that is not reached is dropped.** -/
theorem get?_collect_of_not_reached (h : ¬ a.Reached (IsRoot roots values) id) :
    (a.collect roots values).get? id = none := by
  rw [get?_collect, (a.getElem?_garbage roots values id).2 h]
  split
  · assumption
  · rfl

/-- What is there after a collection was there before, and is reached. -/
theorem reached_of_get?_collect {s : Scope} (h : (a.collect roots values).get? id = some s) :
    a.get? id = some s ∧ a.Reached (IsRoot roots values) id := by
  by_cases hr : a.Reached (IsRoot roots values) id
  · exact ⟨(get?_collect_of_reached hr).symm.trans h, hr⟩
  · rw [get?_collect_of_not_reached hr] at h
    cases h

end Collect

end Arena

end StackLisp
