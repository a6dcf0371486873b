import StackLisp.Proofs.Machine.Steps
import StackLisp.Proofs.Machine.WellFormed

/-!
# What a machine refers to

A machine **refers to** the global scope, the scopes of its frames, and all scopes that the values
on its stack hold, or the constants of the code that its frames run (`Machine.RefersTo`).  A
scope is **in use** if it is reached from these (`Machine.InUse`), since running may still come to
it.

A collection begins at less: of the constants it looks only at those that are closures, and not
at the closures in lists and quoted values.  So **a collection keeps all scopes in use exactly if
it would also come to what such constants hold in another way** (`collection_extent`).  That is
so throughout a run if there is no closure in a constant at its start.  Else a scope may be lost
that the code still holds (`not_keepsInUse_listed`).
-/

namespace StackLisp.Machine

/-- A constant holds the scope, of the code that a frame runs. -/
def InConstant (m : Machine) (id : ScopeId) : Prop :=
  ∃ f ∈ m.frames, ∃ v, .pushConst v ∈ f.code ∧ v.Holds id

/-- **The scopes that a machine refers to.** -/
def RefersTo (m : Machine) (id : ScopeId) : Prop :=
  id = Arena.globalId ∨ (∃ f ∈ m.frames, f.scope = id) ∨ (∃ v ∈ m.stack, v.Holds id) ∨
    m.InConstant id

/-- **The scopes in use**: those that are reached from what the machine refers to. -/
def InUse (m : Machine) : ScopeId → Prop :=
  m.arena.Reached m.RefersTo

/-- A collection would leave all scopes in use as they are. -/
def KeepsInUse (m : Machine) : Prop :=
  ∀ id s, m.InUse id → m.arena.get? id = some s → m.collectGarbage.arena.get? id = some s

variable {m after : Machine}

/-- Apart from constants, a collection begins at all that the machine refers to. -/
theorem RefersTo.reached {id : ScopeId} (h : m.RefersTo id) : m.Reached id ∨ m.InConstant id := by
  rcases h with rfl | ⟨f, hf, rfl⟩ | ⟨v, hv, hid⟩ | h
  · exact .inl m.reached_global
  · exact .inl (reached_frame hf)
  · exact .inl (reached_stack hv hid)
  · exact .inr h

/-- What a collection keeps. -/
theorem get?_collectGarbage {id : ScopeId} {s : Scope} :
    m.collectGarbage.arena.get? id = some s ↔ m.arena.get? id = some s ∧ m.Reached id := by
  refine ⟨Arena.reached_of_get?_collect, ?_⟩
  rintro ⟨hs, hid⟩
  exact (Arena.get?_collect_of_reached hid).trans hs

/-- Only constants can make a collection lose scopes in use. -/
theorem keepsInUse_iff : m.KeepsInUse ↔
    ∀ id, m.InConstant id → m.arena.contains id = true → m.Reached id := by
  constructor
  · intro h id hid hc
    obtain ⟨s, hs⟩ := Arena.contains_iff.mp hc
    exact (get?_collectGarbage.mp (h id s (.root (.inr (.inr (.inr hid)))) hs)).2
  · intro h id s hid hs
    refine get?_collectGarbage.mpr ⟨hs, hid.of_roots (fun k s hk hs => ?_) hs⟩
    rcases hk.reached with hk | hk
    · exact hk
    · exact h k hk (Arena.contains_iff.mpr ⟨s, hs⟩)

/-- A machine without closures in its constants: those of its frames, and of the functions on its
stack and in its arena. -/
def ConstantsPlain (m : Machine) : Prop :=
  m.All (fun _ => True) Value.Sealed Code.Plain

theorem ConstantsPlain.advance (h : m.ConstantsPlain) (ha : m.advance = .ok after) :
    after.ConstantsPlain := by
  have hkept : Kept (fun _ => True) Value.Sealed Code.Plain := by
    simpa using Value.Sealed.kept fun _ => True
  exact All.advance hkept h (fun _ => trivial) ha

/-- Plain constants hold no scope that could be lost. -/
theorem ConstantsPlain.keepsInUse (h : m.ConstantsPlain) : m.KeepsInUse := by
  refine keepsInUse_iff.mpr ?_
  rintro id ⟨f, hf, v, hv, hid⟩
  exact absurd hid (((h.frames f hf).2 v hv).not_holds id)

/-- **What collections keep.**  A collection keeps the scopes that are reached from the global
scope, the frames, the values on the stack and the constants that are closures, and no others.
It keeps all scopes in use exactly if those held by constants are among these.  If there is no
closure in a constant, then after any number of steps a collection keeps what is in use. -/
theorem collection_extent (m : Machine) :
    (∀ id s, m.collectGarbage.arena.get? id = some s ↔ m.arena.get? id = some s ∧ m.Reached id) ∧
    (m.KeepsInUse ↔ ∀ id, m.InConstant id → m.arena.contains id = true → m.Reached id) ∧
    (m.ConstantsPlain → ∀ n after, Steps n m after → after.KeepsInUse) :=
  ⟨fun _ _ => get?_collectGarbage, keepsInUse_iff, fun h _ _ hs =>
    (hs.induction (fun _ _ hq ha => hq.advance ha) h).keepsInUse⟩

/-- A machine that is about to run a program which takes a closure out of a list and calls it.  The
list is a constant, and the closure is over the scope of a call that has returned. -/
def listedClosure : Machine :=
  let closure := Value.closure ⟨[], none⟩ [.lookup "y", .ret] 1
  let scope : Scope := ⟨[("y", .number 1)], some Arena.globalId⟩
  ofProgram [.pushConst (.pair closure .nil none), .callPrimitive "car" 1, .call 0, .ret]
    ⟨Arena.empty.scopes.insert 1 scope, 2⟩ 0

/-- **A closure in a list that is a constant is overlooked**, and its scope is lost. -/
theorem not_keepsInUse_listed : ¬ listedClosure.KeepsInUse := by
  intro h
  have hconstant : listedClosure.InConstant 1 :=
    ⟨_, List.mem_singleton_self _, _, List.mem_cons_self, .head (.closure _ _)⟩
  have hin : listedClosure.arena.contains 1 = true := by decide +kernel
  have hout : listedClosure.collectGarbage.arena.contains 1 = false := by decide +kernel
  obtain ⟨s, hs⟩ := Arena.contains_iff.mp hin
  have hkept := h 1 s (.root (.inr (.inr (.inr hconstant)))) hs
  rw [Arena.contains_iff.mpr ⟨s, hkept⟩] at hout
  cases hout

end StackLisp.Machine
