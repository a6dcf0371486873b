import Mathlib.Logic.Relation
import StackLisp.Proofs.Arena.Find

/-!
# Walking over the scopes

What a collection keeps can also be found without sets of scopes, by a **walk** with two lists of
what is waiting: ids, and values.  Values go first, and are looked into part by part.  A scope
that is found puts its parent and its values on the lists.  A value that was looked into before
may be passed over, but need not be, as equal values need not be known to be one.

**Every walk ends** (`Walk.wellFounded`), since each step either finds a scope that was not found
before or leaves less to be looked at.  **At its end it has found exactly the scopes that are
reached** (`Walk.mem_found_iff`), since at all times these are covered: found, absent from the
arena, or waiting (`Walk.Sound`).  Where they wait in a value that will be passed over, they also
wait in a smaller one, so covering is measured by size (`Walk.Covers`).

So **a collection keeps exactly the scopes that are reached**, as walks do, and counts what it
drops (`collect_exact`).
-/

namespace StackLisp

/-! ## Looking into values -/

namespace Value
variable {v : Value} {id : ScopeId}

/-- The parts of a value, the one to be looked at first in front. -/
def parts : Value → List Value
  | .quoted v => [v]
  | .pair head tail _ => [tail, head]
  | _ => []

/-- The scope of a closure.  No other value has a scope of its own. -/
def ownScopes : Value → List ScopeId
  | .closure _ _ scope => [scope]
  | _ => []

/-- A value holds its own scope and those that its parts hold. -/
theorem holds_iff : v.Holds id ↔ id ∈ v.ownScopes ∨ ∃ part ∈ v.parts, part.Holds id := by
  constructor
  · intro h
    cases h with
    | closure params code => exact .inl (List.mem_singleton_self id)
    | quoted h => exact .inr ⟨_, List.mem_singleton_self _, h⟩
    | head h => exact .inr ⟨_, List.mem_cons_of_mem _ (List.mem_singleton_self _), h⟩
    | tail h => exact .inr ⟨_, List.mem_cons_self, h⟩
  · rintro (h | ⟨part, hpart, h⟩)
    · cases v with
      | closure params code scope =>
        obtain rfl : id = scope := List.mem_singleton.mp h
        exact .closure params code
      | _ => exact absurd h List.not_mem_nil
    · cases v with
      | quoted v =>
        obtain rfl : part = v := List.mem_singleton.mp hpart
        exact .quoted h
      | pair head tail loc =>
        rcases List.mem_cons.mp hpart with rfl | hpart
        · exact .tail h
        · obtain rfl : part = head := List.mem_singleton.mp hpart
          exact .head h
      | _ => exact absurd hpart List.not_mem_nil

/-- The number of parts of a value, counted through all levels. -/
def size : Value → Nat
  | .quoted v => v.size + 1
  | .pair head tail _ => head.size + tail.size + 1
  | _ => 1

theorem size_lt_of_mem_parts {part : Value} (h : part ∈ v.parts) : part.size < v.size := by
  cases v with
  | quoted v =>
    obtain rfl : part = v := List.mem_singleton.mp h
    exact Nat.lt_succ_self _
  | pair head tail loc =>
    have : part = tail ∨ part = head := by simpa [parts] using h
    simp only [size]
    rcases this with rfl | rfl <;> omega
  | _ => exact absurd h List.not_mem_nil

/-- The sizes of some values together. -/
def sizes : List Value → Nat
  | [] => 0
  | v :: vs => v.size + sizes vs

theorem sizes_append (vs ws : List Value) : sizes (vs ++ ws) = sizes vs + sizes ws := by
  induction vs with
  | nil => simp [sizes]
  | cons v vs ih =>
    rw [List.cons_append, sizes, ih, sizes]
    omega

/-- **Looking into a value leaves less to be looked at.** -/
theorem sizes_parts_lt (v : Value) : 2 * sizes v.parts + v.ownScopes.length < 2 * v.size := by
  cases v with
  | pair head tail loc =>
    simp only [parts, ownScopes, sizes, size, List.length_nil]
    omega
  | _ => simp [parts, ownScopes, sizes, size]

end Value

namespace Arena

/-! ## Walks -/

/-- How far a walk has got. -/
structure Walk where
  /-- The scopes that have been found. -/
  found : List ScopeId
  /-- The ids that are waiting, the next one in front. -/
  ids : List ScopeId
  /-- The values that are waiting, the next one in front. -/
  values : List Value
  /-- The values that have been looked into. -/
  seen : List Value

namespace Walk

/-- A walk begins at the global scope, at the given scopes and at the given values, and looks at
the last ones first. -/
def start (roots : List ScopeId) (values : List Value) : Walk :=
  ⟨[], (globalId :: roots).reverse, values.reverse, []⟩

/-- **One step of a walk.** -/
inductive Step (a : Arena) : Walk → Walk → Prop
  /-- A value is looked into: its scope and its parts have to wait. -/
  | look {found ids : List ScopeId} {values seen : List Value} (v : Value) :
      Step a ⟨found, ids, v :: values, seen⟩
        ⟨found, v.ownScopes ++ ids, v.parts ++ values, v :: seen⟩
  /-- A value that was looked into before is passed over. -/
  | skip {found ids : List ScopeId} {v : Value} {values seen : List Value} (h : v ∈ seen) :
      Step a ⟨found, ids, v :: values, seen⟩ ⟨found, ids, values, seen⟩
  /-- There is nothing new behind an id. -/
  | leave {found : List ScopeId} {id : ScopeId} {ids : List ScopeId} {seen : List Value}
      (h : id ∈ found ∨ a.get? id = none) :
      Step a ⟨found, id :: ids, [], seen⟩ ⟨found, ids, [], seen⟩
  /-- A scope is found: its parent and its values have to wait. -/
  | enter {found : List ScopeId} {id : ScopeId} {ids : List ScopeId} {seen : List Value}
      {s : Scope} (h : id ∉ found) (hs : a.get? id = some s) :
      Step a ⟨found, id :: ids, [], seen⟩
        ⟨id :: found, s.parent.toList ++ ids, s.vars.values.reverse, seen⟩

/-- Nothing is waiting. -/
def Finished (w : Walk) : Prop :=
  w.ids = [] ∧ w.values = []

variable {a : Arena} {w after : Walk} {id : ScopeId}

/-- **A walk goes on until nothing is waiting.** -/
theorem finished_iff : w.Finished ↔ ∀ after, ¬ Step a w after := by
  obtain ⟨found, ids, values, seen⟩ := w
  constructor
  · rintro ⟨rfl, rfl⟩ after h
    cases h
  · intro h
    cases values with
    | cons v values => exact absurd (.look v) (h _)
    | nil =>
      cases ids with
      | nil => exact ⟨rfl, rfl⟩
      | cons id ids =>
        by_cases hid : id ∈ found
        · exact absurd (.leave (.inl hid)) (h _)
        · cases hs : a.get? id with
          | none => exact absurd (.leave (.inr hs)) (h _)
          | some s => exact absurd (.enter hid hs) (h _)

/-! ## The end of a walk -/

/-- The number of scopes that are still to be found. -/
def missing (a : Arena) (w : Walk) : Nat :=
  (a.ids.filter (· ∉ w.found)).length

/-- How much is waiting. -/
def work (w : Walk) : Nat :=
  2 * Value.sizes w.values + w.ids.length

/-- Finding a scope leaves fewer to be found. -/
theorem missing_lt {s : Scope} (h : id ∉ w.found) (hs : a.get? id = some s)
    (hafter : after.found = id :: w.found) : missing a after < missing a w := by
  have hfilter : a.ids.filter (· ∉ after.found) =
      (a.ids.filter (· ∉ w.found)).filter (· ≠ id) := by
    rw [hafter, List.filter_filter]
    exact List.filter_congr fun k _ => by simp
  rw [missing, hfilter]
  exact List.length_filter_lt_length_iff_exists.mpr
    ⟨id, List.mem_filter.mpr ⟨mem_ids.mpr ⟨s, hs⟩, decide_eq_true h⟩, by simp⟩

/-- **A step finds a scope or leaves less to be looked at.** -/
theorem Step.decreases (h : Step a w after) :
    Prod.Lex (· < ·) (· < ·) (missing a after, after.work) (missing a w, w.work) := by
  cases h with
  | @look found ids values seen v =>
    have := v.sizes_parts_lt
    refine .right _ ?_
    simp only [work, Value.sizes_append, Value.sizes, List.length_append]
    omega
  | @skip found ids v values seen h =>
    have := v.sizes_parts_lt
    refine .right _ ?_
    simp only [work, Value.sizes]
    omega
  | leave => exact .right _ (by simp [work])
  | enter h hs => exact .left _ _ (missing_lt h hs rfl)

/-- **Every walk ends**, whatever the scopes lead to. -/
theorem wellFounded (a : Arena) : WellFounded fun after w => Step a w after :=
  Subrelation.wf Step.decreases
    (InvImage.wf (fun w => (missing a w, w.work)) (Prod.lex Nat.lt_wfRel Nat.lt_wfRel).wf)

/-! ## What a walk has found -/

/-- **A scope is covered** if it has been found, does not exist, or is waiting, perhaps in a
value below the given size. -/
def Covers (a : Arena) (w : Walk) (size : Nat) (id : ScopeId) : Prop :=
  id ∈ w.found ∨ a.get? id = none ∨ id ∈ w.ids ∨
    ∃ v ∈ w.values, v.size < size ∧ v.Holds id

/-- **What a walk has found out**, where `roots` are the scopes to begin with: what is found or
waiting is reached, and what the roots and the found scopes lead to is covered.  What a value
holds that was looked into is covered by smaller values. -/
structure Sound (a : Arena) (roots : ScopeId → Prop) (w : Walk) : Prop where
  found : ∀ id ∈ w.found, a.contains id = true ∧ a.Reached roots id
  ids : ∀ id ∈ w.ids, a.Reached roots id
  values : ∀ v ∈ w.values, ∀ id, v.Holds id → a.Reached roots id
  seen : ∀ v ∈ w.seen, ∀ id, v.Holds id → w.Covers a v.size id
  roots : ∀ id, roots id → ∃ size, w.Covers a size id
  closed : ∀ id ∈ w.found, ∀ s next, a.get? id = some s → s.LeadsTo next →
    ∃ size, w.Covers a size next

section Covers
variable {found ids : List ScopeId} {v : Value} {values seen : List Value} {size : Nat}

/-- What a waiting value covers, and what the rest covers. -/
theorem covers_cons_value : Covers a ⟨found, ids, v :: values, seen⟩ size id ↔
    (v.size < size ∧ v.Holds id) ∨ Covers a ⟨found, ids, values, seen⟩ size id := by
  simp only [Covers, List.mem_cons, exists_eq_or_imp]
  grind

/-- What a waiting id covers, and what the rest covers. -/
theorem covers_cons_id {k : ScopeId} : Covers a ⟨found, k :: ids, values, seen⟩ size id ↔
    id = k ∨ Covers a ⟨found, ids, values, seen⟩ size id := by
  simp only [Covers, List.mem_cons]
  grind

/-- After a look into a value, what it holds is covered by its parts. -/
theorem covers_of_holds (h : v.Holds id) :
    Covers a ⟨found, v.ownScopes ++ ids, v.parts ++ values, seen⟩ v.size id := by
  rcases Value.holds_iff.mp h with h | ⟨part, hpart, h⟩
  · exact .inr (.inr (.inl (List.mem_append_left _ h)))
  · exact .inr (.inr (.inr
      ⟨part, List.mem_append_left _ hpart, Value.size_lt_of_mem_parts hpart, h⟩))

theorem Covers.mono {size' : Nat} (h : w.Covers a size id) (hsize : size ≤ size')
    (hfound : w.found ⊆ after.found) (hids : w.ids ⊆ after.ids)
    (hvalues : w.values ⊆ after.values) : after.Covers a size' id := by
  rcases h with h | h | h | ⟨v, hv, hlt, h⟩
  · exact .inl (hfound h)
  · exact .inr (.inl h)
  · exact .inr (.inr (.inl (hids h)))
  · exact .inr (.inr (.inr ⟨v, hvalues hv, Nat.lt_of_lt_of_le hlt hsize, h⟩))

/-- **What is covered stays covered.**  A value that is passed over was looked into before, so
smaller ones cover what it holds. -/
theorem Covers.step (h : w.Covers a size id)
    (hseen : ∀ v ∈ w.seen, ∀ id, v.Holds id → w.Covers a v.size id) (hs : Step a w after) :
    after.Covers a size id := by
  cases hs with
  | look v =>
    rcases covers_cons_value.mp h with ⟨hlt, h⟩ | h
    · exact (covers_of_holds h).mono (Nat.le_of_lt hlt) (List.Subset.refl _)
        (List.Subset.refl _) (List.Subset.refl _)
    · exact h.mono (Nat.le_refl _) (List.Subset.refl _) (List.subset_append_right _ _)
        (List.subset_append_right _ _)
  | @skip found ids v values seen hv =>
    rcases covers_cons_value.mp h with ⟨hlt, h⟩ | h
    · -- what covers the scopes of `v` is below its size, and so is not `v` again
      rcases covers_cons_value.mp (hseen v hv id h) with ⟨hself, -⟩ | h
      · exact absurd hself (Nat.lt_irrefl _)
      · exact h.mono (Nat.le_of_lt hlt) (List.Subset.refl _) (List.Subset.refl _)
          (List.Subset.refl _)
    · exact h
  | leave hnew =>
    rcases covers_cons_id.mp h with rfl | h
    · exact hnew.elim .inl fun hnone => .inr (.inl hnone)
    · exact h
  | enter hnew hs =>
    rcases covers_cons_id.mp h with rfl | h
    · exact .inl List.mem_cons_self
    · exact h.mono (Nat.le_refl _) (List.subset_cons_self _ _) (List.subset_append_right _ _)
        (List.nil_subset _)

end Covers

variable {roots : ScopeId → Prop}

/-- **A step keeps what a walk has found out.** -/
theorem Sound.step (h : w.Sound a roots) (hs : Step a w after) : after.Sound a roots := by
  -- what was covered is covered still; the cases are about what the step adds
  have kept : ∀ {size id}, w.Covers a size id → after.Covers a size id := fun hc =>
    hc.step h.seen hs
  have hroots : ∀ id, roots id → ∃ size, after.Covers a size id := fun id hid =>
    (h.roots id hid).imp fun _ => kept
  have hseen : ∀ v ∈ w.seen, ∀ id, v.Holds id → after.Covers a v.size id :=
    fun v hv id hid => kept (h.seen v hv id hid)
  have hclosed : ∀ id ∈ w.found, ∀ s next, a.get? id = some s → s.LeadsTo next →
      ∃ size, after.Covers a size next := fun id hid s next hs hl =>
    (h.closed id hid s next hs hl).imp fun _ => kept
  cases hs with
  | @look found ids values seen v =>
    have hv := h.values v List.mem_cons_self
    refine ⟨h.found, fun id hid => ?_, fun u hu id hid => ?_, fun u hu id hid => ?_, hroots,
      hclosed⟩
    · rcases List.mem_append.mp hid with hid | hid
      · exact hv id (Value.holds_iff.mpr (.inl hid))
      · exact h.ids id hid
    · rcases List.mem_append.mp hu with hu | hu
      · exact hv id (Value.holds_iff.mpr (.inr ⟨u, hu, hid⟩))
      · exact h.values u (List.mem_cons_of_mem _ hu) id hid
    · rcases List.mem_cons.mp hu with rfl | hu
      · exact covers_of_holds hid
      · exact hseen u hu id hid
  | skip hv =>
    exact ⟨h.found, h.ids, fun u hu => h.values u (List.mem_cons_of_mem _ hu), hseen, hroots,
      hclosed⟩
  | leave hnew =>
    exact ⟨h.found, fun id hid => h.ids id (List.mem_cons_of_mem _ hid), h.values, hseen, hroots,
      hclosed⟩
  | @enter found id ids seen s hnew hs =>
    have hid : a.Reached roots id := h.ids id List.mem_cons_self
    refine ⟨fun k hk => ?_, fun k hk => ?_, fun v hv k hk => ?_, hseen, hroots,
      fun k hk s' next hs' hl => ?_⟩
    · rcases List.mem_cons.mp hk with rfl | hk
      · exact ⟨contains_iff.mpr ⟨s, hs⟩, hid⟩
      · exact h.found k hk
    · rcases List.mem_append.mp hk with hk | hk
      · exact hid.step hs (.inl (Option.mem_toList.mp hk))
      · exact h.ids k (List.mem_cons_of_mem _ hk)
    · exact hid.step hs (.inr ⟨v, List.mem_reverse.mp hv, hk⟩)
    · rcases List.mem_cons.mp hk with rfl | hk
      · obtain rfl : s = s' := Option.some.inj (hs.symm.trans hs')
        rcases hl with hl | ⟨v, hv, hl⟩
        · exact ⟨0, .inr (.inr (.inl (List.mem_append_left _ (Option.mem_toList.mpr hl))))⟩
        · exact ⟨v.size + 1, .inr (.inr (.inr
            ⟨v, List.mem_reverse.mpr hv, Nat.lt_succ_self _, hl⟩))⟩
      · exact hclosed k hk s' next hs' hl

theorem sound_start (a : Arena) (roots : List ScopeId) (values : List Value) :
    (start roots values).Sound a (IsRoot roots values) where
  found _ h := absurd h List.not_mem_nil
  ids id h := .root (by
    rcases List.mem_cons.mp (List.mem_reverse.mp h) with rfl | h
    · exact .inl rfl
    · exact .inr (.inl h))
  values v hv id hid := .root (.inr (.inr ⟨v, List.mem_reverse.mp hv, hid⟩))
  seen _ h := absurd h List.not_mem_nil
  roots id h := by
    have wait : ∀ k ∈ globalId :: roots, k ∈ (start roots values).ids := fun k hk =>
      List.mem_reverse.mpr hk
    rcases h with rfl | h | ⟨v, hv, h⟩
    · exact ⟨0, .inr (.inr (.inl (wait _ List.mem_cons_self)))⟩
    · exact ⟨0, .inr (.inr (.inl (wait _ (List.mem_cons_of_mem _ h))))⟩
    · exact ⟨v.size + 1, .inr (.inr (.inr
        ⟨v, List.mem_reverse.mpr hv, Nat.lt_succ_self _, h⟩))⟩
  closed _ h := absurd h List.not_mem_nil

/-- When nothing is waiting, the scopes that are reached are found. -/
theorem Sound.mem_found (h : w.Sound a roots) (hend : w.Finished) :
    id ∈ w.found ↔ a.contains id = true ∧ a.Reached roots id := by
  have found_of_covers : ∀ {size id}, w.Covers a size id → a.contains id = true →
      id ∈ w.found := by
    rintro size id (hc | hc | hc | ⟨v, hv, -⟩) hid
    · exact hc
    · obtain ⟨s, hs⟩ := contains_iff.mp hid
      cases hc.symm.trans hs
    · exact absurd (hend.1 ▸ hc) List.not_mem_nil
    · exact absurd (hend.2 ▸ hv) List.not_mem_nil
  refine ⟨h.found id, ?_⟩
  rintro ⟨hid, hr⟩
  induction hr with
  | root hroot =>
    obtain ⟨size, hc⟩ := h.roots _ hroot
    exact found_of_covers hc hid
  | step _ hs hl ih =>
    obtain ⟨size, hc⟩ := h.closed _ (ih (contains_iff.mpr ⟨_, hs⟩)) _ _ hs hl
    exact found_of_covers hc hid

/-- **A walk that has ended has found the scopes that are reached**, and no others. -/
theorem mem_found_iff {roots : List ScopeId} {values : List Value}
    (h : Relation.ReflTransGen (Step a) (start roots values) w) (hend : w.Finished) :
    id ∈ w.found ↔ a.contains id = true ∧ a.Reached (IsRoot roots values) id := by
  have hw : w.Sound a (IsRoot roots values) := by
    clear hend
    induction h with
    | refl => exact sound_start a roots values
    | tail _ hs ih => exact ih.step hs
  exact hw.mem_found hend

end Walk

/-! ## Collections -/

section Collect
variable (a : Arena) (roots : List ScopeId) (values : List Value)

/-- A collection keeps what is reached. -/
theorem contains_collect (id : ScopeId) :
    (a.collect roots values).contains id = true ↔
      a.contains id = true ∧ a.Reached (IsRoot roots values) id := by
  simp only [contains_iff]
  constructor
  · rintro ⟨s, hs⟩
    obtain ⟨hs, hr⟩ := reached_of_get?_collect hs
    exact ⟨⟨s, hs⟩, hr⟩
  · rintro ⟨⟨s, hs⟩, hr⟩
    exact ⟨s, (get?_collect_of_reached hr).trans hs⟩

/-- **What is garbage is what a collection drops.** -/
theorem mem_garbage (id : ScopeId) :
    id ∈ (a.garbage roots values).keys ↔
      id ∈ a.ids.filter fun id => !(a.collect roots values).contains id := by
  have hdropped : (a.collect roots values).contains id = false ↔
      ¬ (a.contains id = true ∧ a.Reached (IsRoot roots values) id) := by
    rw [← contains_collect, Bool.not_eq_true]
  rw [Std.TreeMap.mem_keys, Std.TreeMap.mem_iff_isSome_getElem?, List.mem_filter, Bool.not_eq_true',
    hdropped, mem_ids, ← contains_iff]
  by_cases hr : a.Reached (IsRoot roots values) id
  · simp [(a.getElem?_garbage roots values id).1 hr, hr]
  · rw [(a.getElem?_garbage roots values id).2 hr, Option.isSome_iff_exists, ← contains_iff]
    simp [hr]

/-- The number of scopes that are garbage is the number of those that a collection drops. -/
theorem size_garbage : (a.garbage roots values).size =
    (a.ids.filter fun id => !(a.collect roots values).contains id).length := by
  rw [← Std.TreeMap.length_keys]
  have hids : a.ids.Nodup := Std.TreeMap.nodup_keys
  exact ((List.perm_ext_iff_of_nodup Std.TreeMap.nodup_keys (hids.filter _)).mpr
    (a.mem_garbage roots values)).length_eq

/-- **A collection is exact.**  Whatever the scopes lead to, and whatever the roots are, it keeps
the scopes that are reached and no others, with their variables and parents.  The next id stays
the same, and as many scopes are garbage as are dropped.  Walks over the scopes end, and all of
them find what the collection keeps. -/
theorem collect_exact :
    (∀ id, (a.collect roots values).contains id = true ↔
      a.contains id = true ∧ a.Reached (IsRoot roots values) id) ∧
    (∀ id s, (a.collect roots values).get? id = some s → a.get? id = some s) ∧
    (a.collect roots values).nextId = a.nextId ∧
    (a.garbage roots values).size =
      (a.ids.filter fun id => !(a.collect roots values).contains id).length ∧
    (WellFounded fun after w => Walk.Step a w after) ∧
    ∀ w, Relation.ReflTransGen (Walk.Step a) (.start roots values) w →
      (∀ after, ¬ Walk.Step a w after) →
      ∀ id, id ∈ w.found ↔ (a.collect roots values).contains id = true :=
  ⟨a.contains_collect roots values, fun _ _ hs => (reached_of_get?_collect hs).1, rfl,
    a.size_garbage roots values, Walk.wellFounded a, fun _ hw hend id =>
      (Walk.mem_found_iff hw (Walk.finished_iff.mpr hend)).trans
        (a.contains_collect roots values id).symm⟩

end Collect

end Arena

end StackLisp
