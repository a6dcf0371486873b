import StackLisp.Proofs.Arena.Reached
import StackLisp.Proofs.Code.Emits

/-!
# Looking names up

A name is looked up from a scope outwards.  Among scopes whose parents have smaller ids
(`Arena.Descending`), the number of scopes is enough fuel for the way outwards.  So **a look-up
finds the nearest binding**, or the scope that is missing on the way to it (`find_eq_iff`), as
the relation `Arena.Finds` describes it.  Arenas that agree on these scopes have the same
look-ups (`find_congr`).
-/

namespace StackLisp

namespace Arena
variable {a : Arena} {id : ScopeId} {name : String}

theorem get_eq_ok {s : Scope} : a.get id = .ok s ↔ a.get? id = some s := by
  unfold get
  split <;> simp_all

theorem get_eq_error {fault : Fault} :
    a.get id = .error fault ↔ a.get? id = none ∧ fault = .missingScope id := by
  cases h : a.get? id with
  | none => simp [get, h, @eq_comm _ fault]
  | some s => simp [get, h]

theorem contains_iff : a.contains id = true ↔ ∃ s, a.get? id = some s := by
  rw [contains, get?, Std.TreeMap.contains_eq_isSome_getElem?, Option.isSome_iff_exists]

/-- A look-up fails only where a scope is missing. -/
theorem missingScope_of_find {fault : Fault} (h : a.find id name = .error fault) :
    ∃ k, fault = .missingScope k := by
  have key : ∀ (fuel : Nat) (id : ScopeId), a.findWithin name fuel id = .error fault →
      ∃ k, fault = .missingScope k := by
    intro fuel
    induction fuel with
    | zero =>
      intro id h
      simp only [findWithin, bind_eq_error] at h
      rcases h with h | ⟨_, -, h⟩
      · exact ⟨id, (get_eq_error.mp h).2⟩
      · cases h
    | succ fuel ih =>
      intro id h
      simp only [findWithin, bind_eq_error] at h
      rcases h with h | ⟨_, -, h⟩
      · exact ⟨id, (get_eq_error.mp h).2⟩
      · split at h
        · cases h
        · cases h
        · exact ih _ h
  exact key a.size id h

/-! ## The nearest binding -/

/-- **What is found for a name** on the way from a scope outwards. -/
inductive Finds (a : Arena) (name : String) :
    ScopeId → Except Fault (Option (ScopeId × Value)) → Prop
  | missing {id : ScopeId} (hs : a.get? id = none) : Finds a name id (.error (.missingScope id))
  | here {id : ScopeId} {s : Scope} {v : Value} (hs : a.get? id = some s)
      (hv : s.vars.get? name = some v) : Finds a name id (.ok (some (id, v)))
  | nowhere {id : ScopeId} {s : Scope} (hs : a.get? id = some s)
      (hv : s.vars.get? name = none) (hp : s.parent = none) : Finds a name id (.ok none)
  | outwards {id parent : ScopeId} {s : Scope} {found : Except Fault (Option (ScopeId × Value))}
      (hs : a.get? id = some s) (hv : s.vars.get? name = none) (hp : s.parent = some parent)
      (h : Finds a name parent found) : Finds a name id found

/-- **Ways outwards**: the parents of scopes with the property `S` have smaller ids, and the
property too. -/
def Descending (S : ScopeId → Prop) (a : Arena) : Prop :=
  ∀ id s parent, S id → a.get? id = some s → s.parent = some parent → parent < id ∧ S parent

/-- The number of scopes up to an id, which bounds the way outwards from there. -/
def depth (a : Arena) (id : ScopeId) : Nat :=
  a.ids.countP (· ≤ id)

theorem mem_ids : id ∈ a.ids ↔ ∃ s, a.get? id = some s := by
  rw [ids, Std.TreeMap.mem_keys, ← Std.TreeMap.contains_iff_mem]
  exact contains_iff

theorem depth_le_size (a : Arena) (id : ScopeId) : a.depth id ≤ a.size := by
  rw [depth, size, ← Std.TreeMap.length_keys]
  exact List.countP_le_length

/-- The way outwards gets shorter. -/
theorem depth_lt {parent : ScopeId} (hid : id ∈ a.ids) (hlt : parent < id) :
    a.depth parent < a.depth id := by
  unfold depth
  generalize a.ids = ids at hid
  have hle : ∀ ids : List ScopeId, ids.countP (· ≤ parent) ≤ ids.countP (· ≤ id) := fun ids =>
    List.countP_mono_left fun k _ hk =>
      decide_eq_true (Int.le_trans (of_decide_eq_true hk) (Int.le_of_lt hlt))
  induction ids with
  | nil => exact absurd hid List.not_mem_nil
  | cons k ids ih =>
    rw [List.countP_cons, List.countP_cons]
    rcases List.mem_cons.mp hid with rfl | hid
    · have := hle ids
      simp only [decide_eq_true_eq, Int.le_refl, if_true, if_neg (Int.not_le.mpr hlt)]
      omega
    · have := ih hid
      by_cases hk : k ≤ parent
      · simpa [hk, Int.le_trans hk (Int.le_of_lt hlt)] using this
      · simp only [hk, decide_false, Bool.false_eq_true, if_false]
        omega

section Descending
variable {S : ScopeId → Prop} {found : Except Fault (Option (ScopeId × Value))}

theorem exists_finds (h : a.Descending S) (name : String) {id : ScopeId} (hid : S id) :
    ∃ found, a.Finds name id found := by
  cases hs : a.get? id with
  | none => exact ⟨_, .missing hs⟩
  | some s =>
    cases hv : s.vars.get? name with
    | some v => exact ⟨_, .here hs hv⟩
    | none =>
      cases hp : s.parent with
      | none => exact ⟨_, .nowhere hs hv hp⟩
      | some parent =>
        obtain ⟨hlt, hS⟩ := h id s parent hid hs hp
        have := depth_lt (mem_ids.mpr ⟨s, hs⟩) hlt
        obtain ⟨found, hfound⟩ := exists_finds h name hS
        exact ⟨found, .outwards hs hv hp hfound⟩
termination_by a.depth id

theorem findWithin_of_finds (h : a.Descending S) (hid : S id) (hf : a.Finds name id found)
    {fuel : Nat} (hfuel : a.depth id ≤ fuel) : a.findWithin name fuel id = found := by
  induction hf generalizing fuel with
  | missing hs =>
    cases fuel <;> simp [findWithin, get_eq_error.mpr ⟨hs, rfl⟩, Bind.bind, Except.bind]
  | here hs hv =>
    cases fuel <;> simp [findWithin, get_eq_ok.mpr hs, hv, Bind.bind, Except.bind]
  | nowhere hs hv hp =>
    cases fuel <;> simp [findWithin, get_eq_ok.mpr hs, hv, hp, Bind.bind, Except.bind]
  | @outwards id parent s found hs hv hp hf ih =>
    obtain ⟨hlt, hS⟩ := h id s parent hid hs hp
    have hdepth := depth_lt (mem_ids.mpr ⟨s, hs⟩) hlt
    cases fuel with
    | zero => omega
    | succ fuel =>
      simp only [findWithin, get_eq_ok.mpr hs, hv, hp, Bind.bind, Except.bind]
      exact ih hS (by omega)

/-- **A look-up finds the nearest binding**, or what is missing. -/
theorem find_eq_iff (h : a.Descending S) (hid : S id) :
    a.find id name = found ↔ a.Finds name id found := by
  have hfind : ∀ {found}, a.Finds name id found → a.find id name = found :=
    fun hf => findWithin_of_finds h hid hf (a.depth_le_size id)
  constructor
  · rintro rfl
    obtain ⟨found, hf⟩ := exists_finds h name hid
    rwa [hfind hf]
  · exact hfind

/-- Where no scope is missing, a look-up does not fail. -/
theorem find_ne_error (h : a.Descending S) (hpresent : ∀ k, S k → a.contains k = true)
    (hid : S id) {fault : Fault} : a.find id name ≠ .error fault := by
  intro hf
  have hfinds := (find_eq_iff h hid).mp hf
  clear hf
  generalize hfound : Except.error fault = found at hfinds
  induction hfinds with
  | missing hs =>
    obtain ⟨s, hs'⟩ := contains_iff.mp (hpresent _ hid)
    cases hs.symm.trans hs'
  | here | nowhere => cases hfound
  | outwards hs hv hp _ ih => exact ih (h _ _ _ hid hs hp).2 hfound

/-- **Look-ups depend only on the scopes on the way outwards.** -/
theorem find_congr {b : Arena} (h : a.Descending S) (hid : S id)
    (hab : ∀ k, S k → b.get? k = a.get? k) : b.find id name = a.find id name := by
  have hb : b.Descending S := fun k s parent hk hs => h k s parent hk ((hab k hk).symm.trans hs)
  obtain ⟨found, hf⟩ := exists_finds h name hid
  rw [(find_eq_iff h hid).mpr hf, find_eq_iff hb hid]
  induction hf with
  | missing hs => exact .missing ((hab _ hid).trans hs)
  | here hs hv => exact .here ((hab _ hid).trans hs) hv
  | nowhere hs hv hp => exact .nowhere ((hab _ hid).trans hs) hv hp
  | outwards hs hv hp hf ih =>
    exact .outwards ((hab _ hid).trans hs) hv hp (ih (h _ _ _ hid hs hp).2)

end Descending

end Arena

end StackLisp
