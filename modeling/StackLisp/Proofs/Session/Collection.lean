import StackLisp.Proofs.Machine.Collection
import StackLisp.Proofs.Macro.Expansion
import StackLisp.Session

/-!
# Collecting is not observed in sessions

The settings choose when scopes are collected, in programs and in the bodies of macros.  If no
closure is among the constants of the code that a session compiles, **the answers do not depend
on it** (`collection_unobservable`).

Two sessions with different thresholds go on in images whose arenas have the same scopes
(`Image.Same`), since all that is not reached has been dropped at the end of a program.
-/

namespace StackLisp

/-! ## Sealed images -/

theorem Value.Sealed.composed : Value.Composed Value.Sealed where
  pair := ⟨fun h => by cases h; constructor <;> assumption, fun h => .pair h.1 h.2⟩
  quoted := ⟨fun h => by cases h; assumption, .quoted⟩

/-- **An image without closures among its constants**, neither of its macros nor of the functions
in its scopes.  Parents have smaller ids, and the next id is above all ids. -/
structure Image.Sealed (image : Image) : Prop where
  macros : ∀ m ∈ image.macros.macros, Code.Plain m.code
  values : ∀ id s, image.arena.get? id = some s → ∀ v ∈ s.vars.values, v.Sealed
  parents : ∀ id s parent, image.arena.get? id = some s → s.parent = some parent → parent < id
  fresh : ∀ id, image.arena.contains id = true → id < image.arena.nextId

/-- Images with the same macros and the same scopes. -/
structure Image.Same (i j : Image) : Prop where
  macros : j.macros = i.macros
  nextId : j.arena.nextId = i.arena.nextId
  get? : ∀ id, j.arena.get? id = i.arena.get? id

theorem Image.Same.sealed {i j : Image} (h : i.Same j) (hi : i.Sealed) : j.Sealed := by
  refine ⟨h.macros ▸ hi.macros, ?_, ?_, fun id hid => ?_⟩
  · simpa only [h.get?] using hi.values
  · simpa only [h.get?] using hi.parents
  · rw [h.nextId]
    exact hi.fresh id (by rwa [Arena.contains_iff, ← h.get?, ← Arena.contains_iff])

theorem Image.Same.of_left {i j k : Image} (h : i.Same j) (h' : i.Same k) : j.Same k :=
  ⟨h'.macros.trans h.macros.symm, h'.nextId.trans h.nextId.symm,
    fun id => (h'.get? id).trans (h.get? id).symm⟩

namespace Machine

/-- A program with plain code, in a sealed arena, is the reference of the same program in an arena
with the same scopes, whatever the threshold. -/
theorem reference_ofProgram {code : Code} {a b : Arena} (hc : Code.Plain code)
    (hv : ∀ id s, a.get? id = some s → ∀ v ∈ s.vars.values, v.Sealed)
    (hp : ∀ id s parent, a.get? id = some s → s.parent = some parent → parent < id)
    (hfresh : ∀ id, a.contains id = true → id < a.nextId) (hnext : b.nextId = a.nextId)
    (hget : ∀ id, b.get? id = a.get? id) (threshold : Int) :
    (ofProgram code a 0).Reference (ofProgram code b threshold) where
  agrees := ⟨b, threshold, 0, rfl, hnext, fun id _ => hget id⟩
  whole :=
    { descending := fun id s parent hid hs hparent =>
        ⟨hp id s parent hs hparent, hid.step hs (.inl hparent)⟩
      sealed :=
        { stack := fun _ h => absurd h List.not_mem_nil
          frames := fun _ hf => List.mem_singleton.mp hf ▸ hc
          scopes := fun id s _ hs => hv id s hs }
      fresh := hfresh }
  zero := rfl

/-- What a machine leaves that agrees with a reference. -/
theorem Reference.sealed_ofMachine {m other : Machine} (h : m.Reference other)
    {macros : MacroTable} (hm : ∀ k ∈ macros.macros, Code.Plain k.code) :
    (Image.ofMachine m macros).Sealed ∧
      (Image.ofMachine m macros).Same (Image.ofMachine other macros) := by
  refine ⟨⟨hm, fun id s hs => ?_, fun id s parent hs hp => ?_, fun id hid => ?_⟩, rfl, ?_, ?_⟩
  · obtain ⟨hs, hr⟩ := Arena.reached_of_get?_collect hs
    exact h.whole.sealed.scopes id s hr hs
  · obtain ⟨hs, hr⟩ := Arena.reached_of_get?_collect hs
    exact (h.whole.descending id s parent hr hs hp).1
  · obtain ⟨s, hs⟩ := Arena.contains_iff.mp hid
    exact h.whole.fresh id (Arena.contains_iff.mpr ⟨s, (Arena.reached_of_get?_collect hs).1⟩)
  · obtain ⟨⟨a, threshold, count, rfl, hsame⟩, -, -⟩ := h
    exact hsame.nextId
  · exact h.agrees.get?_collectGarbage

end Machine

/-! ## Settings that differ in the threshold -/

/-- **Settings that differ in the threshold only**, both with a valid one. -/
structure Settings.Alike (settings settings' : Settings) : Prop where
  same : settings' = { settings with thresholdText := settings'.thresholdText }
  threshold : ∃ k, settings.gcThreshold = .ok k
  threshold' : ∃ k, settings'.gcThreshold = .ok k

section Alike
variable {settings settings' : Settings} {fuel : Nat}

open MacroTable (Same)

/-- The body of a macro, as the reference of itself with any threshold. -/
theorem Macro.reference {m : Macro} (hc : Code.Plain m.code) {args : List Value}
    {bindings : Bindings} (ha : ∀ a ∈ args, a.Sealed) (hb : m.params.bind args = .ok bindings)
    (threshold : Int) :
    (Machine.ofProgram m.code (.ofGlobals bindings) 0).Reference
      (Machine.ofProgram m.code (.ofGlobals bindings) threshold) := by
  have hvars : ∀ v ∈ bindings.values, v.Sealed ∧ ∀ id, v.Holds id → True :=
    (Value.Sealed.kept fun _ => True).bind (fun v hv => ⟨ha v hv, fun _ _ => trivial⟩) hb
  refine Machine.reference_ofProgram hc (fun id s hs v hv => ?_) (fun id s parent hs hp => ?_)
    (fun id hid => Arena.fresh_ofGlobals hid) rfl (fun _ => rfl) threshold
  · obtain ⟨rfl, rfl⟩ := Arena.eq_of_get?_ofGlobals hs
    exact (hvars v hv).1
  · obtain ⟨rfl, rfl⟩ := Arena.eq_of_get?_ofGlobals hs
    cases hp

/-- **A macro leaves the same** whatever the threshold. -/
theorem Macro.expand_same (hs : settings.Alike settings') {m : Macro} (hc : Code.Plain m.code)
    (args : List Value) (loc : Option Location) (ha : ∀ a ∈ args, a.Sealed) :
    Same Value.Sealed (fun _ => True) (m.expand fuel settings args loc)
      (m.expand fuel settings' args loc) := by
  obtain ⟨hsame, ⟨k, hk⟩, ⟨k', hk'⟩⟩ := hs
  have hlimit : settings'.stepLimit = settings.stepLimit := by
    rw [hsame]
    rfl
  unfold Macro.expand
  simp only [hk, hk', hlimit]
  cases hb : m.params.bind args with
  | error fault => exact .error trivial
  | ok bindings =>
    cases hl : settings.stepLimit with
    | error e => exact .error trivial
    | ok limit =>
      simp only [mapError_ok, Bind.bind, Except.bind]
      rcases hr : (Machine.ofProgram m.code (.ofGlobals bindings) 0).run fuel limit
        with ⟨after, out⟩
      obtain ⟨_, _, _, h₁, href⟩ := (Macro.reference hc ha hb k).run hr
      obtain ⟨_, _, _, h₂, -⟩ := (Macro.reference hc ha hb k').run hr
      rw [h₁, h₂]
      cases out with
      | running => exact .error trivial
      | fault f =>
        simp only
        split <;> exact .error trivial
      | value v =>
        simp only [Machine.withArena]
        split
        · rename_i form hform
          exact .ok (href.whole.sealed.stack form (by simp [hform]))
        · exact .error trivial

end Alike

/-! ## Programs and sessions -/

/-- **The code that is compiled** for a source in an image: that of the macros it defines, and its
own. -/
inductive Image.Compiles (image : Image) (fuel : Nat) (settings : Settings) (source : Source) :
    Code → Prop
  | definition {forms : List Value} {m : Macro} (hp : source.parse = .ok forms)
      (hm : image.macros.Defines settings fuel forms m) :
      Image.Compiles image fuel settings source m.code
  | program {forms expansions : List Value} {macros : MacroTable} {code : Code}
      (hp : source.parse = .ok forms)
      (he : image.macros.expandProgram settings fuel forms = .ok (expansions, macros))
      (hc : Code.ofProgram image.arena.globalNames expansions = .ok code) :
      Image.Compiles image fuel settings source code

section Sessions
variable {i j : Image} {settings settings' : Settings} {fuel : Nat}

theorem Image.Same.globalNames (h : i.Same j) : j.arena.globalNames = i.arena.globalNames := by
  simp only [Arena.globalNames, h.get?]

/-- **A source is prepared in the same way** whatever the threshold. -/
theorem Image.Same.prepare (h : i.Same j) (hi : i.Sealed) (hs : settings.Alike settings')
    {source : Source} (hc : ∀ code, i.Compiles fuel settings source code → Code.Plain code) :
    (∃ e, i.prepare fuel settings source = .error e ∧ j.prepare fuel settings' source = .error e) ∨
    ∃ code macros listing k k', Code.Plain code ∧ (∀ m ∈ macros.macros, Code.Plain m.code) ∧
      i.prepare fuel settings source = .ok ⟨.ofProgram code i.arena k, macros, listing⟩ ∧
      j.prepare fuel settings' source = .ok ⟨.ofProgram code j.arena k', macros, listing⟩ := by
  obtain ⟨k, hk⟩ := hs.threshold
  obtain ⟨k', hk'⟩ := hs.threshold'
  have hlisting : settings'.wantsListing = settings.wantsListing := by
    rw [hs.same]
    rfl
  unfold Image.prepare
  simp only [h.macros, h.globalNames, hk, hk', hlisting]
  cases hp : source.parse with
  | error e => exact .inl ⟨_, rfl, rfl⟩
  | ok forms =>
    have hforms : ∀ f ∈ forms, f.Sealed := fun f hf =>
      (Source.forall_of_parse Value.Plain.ofData hp f hf).sealed
    have hsame := MacroTable.expandProgram_same (T := fun m => Code.Plain m.code)
      (E := fun _ => True) Value.Sealed.composed (fun _ => trivial) trivial
      (fun m hm args loc ha => Macro.expand_same hs hm args loc ha) hforms hi.macros
      (fun _ _ hv => hv) (fun m hm _ => hc m.code (.definition hp hm))
    simp only [mapError_ok, Bind.bind, Except.bind]
    generalize he : MacroTable.expandProgram settings fuel i.macros forms = r at hsame
    generalize MacroTable.expandProgram settings' fuel i.macros forms = r' at hsame
    cases hsame with
    | error => exact .inl ⟨_, rfl, rfl⟩
    | @ok r hr =>
      obtain ⟨expansions, macros⟩ := r
      simp only
      cases hcode : Code.ofProgram i.arena.globalNames expansions with
      | error e => exact .inl ⟨_, rfl, rfl⟩
      | ok code =>
        exact .inr ⟨code, macros, _, k, k', hc code (.program hp he hcode), hr.2, rfl, rfl⟩

/-- **A program has the same answer** whatever the threshold. -/
theorem Image.Same.eval {s s' : Session} (h : s.image.Same s'.image) (hi : s.image.Sealed)
    (hlimit : s'.stepLimit = s.stepLimit) (hs : settings.Alike settings') {text : String}
    (hc : ∀ code, s.image.Compiles fuel settings (.ofString text none) code → Code.Plain code) :
    (∃ e, s.eval fuel settings text = .error e ∧ s'.eval fuel settings' text = .error e) ∨
    ∃ a a', s.eval fuel settings text = .ok a ∧ s'.eval fuel settings' text = .ok a' ∧
      a'.value = a.value ∧ a'.machine.output = a.machine.output ∧ a.session.image.Sealed ∧
      a.session.image.Same a'.session.image ∧ a'.session.stepLimit = a.session.stepLimit := by
  unfold Session.eval
  rcases h.prepare hi hs hc with ⟨e, he, he'⟩ | ⟨code, macros, listing, k, k', hcode, hm, he, he'⟩
  · rw [he, he']
    exact .inl ⟨e, rfl, rfl⟩
  · rw [he, he', hlimit]
    simp only [Bind.bind, Except.bind]
    have href := Machine.reference_ofProgram hcode hi.values hi.parents hi.fresh rfl
      (fun _ => rfl) k
    have href' := Machine.reference_ofProgram hcode hi.values hi.parents hi.fresh h.nextId h.get? k'
    rcases hr : (Machine.ofProgram code s.image.arena 0).run fuel s.stepLimit with ⟨after, out⟩
    obtain ⟨_, _, _, h₁, href₁⟩ := href.run hr
    obtain ⟨_, _, _, h₂, href₂⟩ := href'.run hr
    rw [h₁, h₂]
    cases out with
    | running => exact .inl ⟨_, rfl, rfl⟩
    | fault f => exact .inl ⟨_, rfl, rfl⟩
    | value v =>
      obtain ⟨hsealed, hsame₁⟩ := href₁.sealed_ofMachine hm
      obtain ⟨-, hsame₂⟩ := href₂.sealed_ofMachine hm
      exact .inr ⟨_, _, rfl, rfl, rfl, rfl, hsame₁.sealed hsealed, hsame₁.of_left hsame₂, rfl⟩

end Sessions

namespace Session

/-- The session after a program, which may have failed. -/
def next (s : Session) (fuel : Nat) (settings : Settings) (text : String) : Session :=
  match s.eval fuel settings text with
  | .ok answer => answer.session
  | .error _ => s

/-- **What a session shows**: for each program its value and what it puts out, or its error. -/
def answers (fuel : Nat) :
    Session → List (Settings × String) → List (Except Error (Value × List String))
  | _, [] => []
  | s, (settings, text) :: rest =>
    (s.eval fuel settings text).map (fun answer => (answer.value, answer.machine.output)) ::
      answers fuel (s.next fuel settings text) rest

/-- The session after all programs. -/
def last (fuel : Nat) : Session → List (Settings × String) → Session
  | s, [] => s
  | s, (settings, text) :: rest => last fuel (s.next fuel settings text) rest

/-- The code that is compiled in a session. -/
inductive Compiles (fuel : Nat) : Session → List (Settings × String) → Code → Prop
  | now {s : Session} {settings : Settings} {text : String} {rest : List (Settings × String)}
      {code : Code} (h : s.image.Compiles fuel settings (.ofString text none) code) :
      Compiles fuel s ((settings, text) :: rest) code
  | later {s : Session} {settings : Settings} {text : String} {rest : List (Settings × String)}
      {code : Code} (h : Compiles fuel (s.next fuel settings text) rest code) :
      Compiles fuel s ((settings, text) :: rest) code

theorem Compiles.ne_nil {fuel : Nat} {s : Session} {programs : List (Settings × String)}
    {code : Code} (h : Compiles fuel s programs code) : programs ≠ [] := by
  cases h <;> exact List.cons_ne_nil _ _

/-- **The answers of a session do not depend on the thresholds**, nor does what it leaves. -/
theorem answers_same {fuel : Nat} {programs : List (Settings × Settings × String)}
    (hp : ∀ p ∈ programs, p.1.Alike p.2.1) {s s' : Session} (h : s.image.Same s'.image)
    (hi : s.image.Sealed) (hlimit : s'.stepLimit = s.stepLimit)
    (hc : ∀ code, Compiles fuel s (programs.map fun p => (p.1, p.2.2)) code → Code.Plain code) :
    s'.answers fuel (programs.map fun p => (p.2.1, p.2.2)) =
      s.answers fuel (programs.map fun p => (p.1, p.2.2)) ∧
    (s.last fuel (programs.map fun p => (p.1, p.2.2))).image.Same
      (s'.last fuel (programs.map fun p => (p.2.1, p.2.2))).image := by
  induction programs generalizing s s' with
  | nil => exact ⟨rfl, h⟩
  | cons p programs ih =>
    obtain ⟨settings, settings', text⟩ := p
    obtain ⟨halike, hp⟩ := List.forall_mem_cons.mp hp
    have hlater := fun code hcode => hc code (.later hcode)
    simp only [List.map_cons, answers, last] at hlater ⊢
    unfold next at hlater ⊢
    rcases h.eval hi hlimit halike fun code hcode => hc code (.now hcode) with
      ⟨e, he, he'⟩ | ⟨a, a', he, he', hv, ho, hsealed, hsame, hlimit'⟩
    · rw [he] at hlater ⊢
      rw [he']
      obtain ⟨hanswers, hlast⟩ := ih hp h hi hlimit hlater
      exact ⟨congrArg _ hanswers, hlast⟩
    · rw [he] at hlater ⊢
      rw [he']
      obtain ⟨hanswers, hlast⟩ := ih hp hsame hsealed hlimit' hlater
      simp only [Except.map, hv, ho]
      exact ⟨congrArg _ hanswers, hlast⟩

end Session

/-- **Collecting is not observed.**  From a well-formed machine without closures among its
constants, any two schedules of collections lead through machines that cannot be told apart, with
the same faults, and no step fails since a scope is missing that has not done so before.  A session
that compiles no code with closures among its constants gives the same answers and leaves the same
image, whatever the thresholds. -/
theorem collection_unobservable :
    (∀ m : Machine, m.WellFormed → m.Sealed → ∀ (s t : Machine.Schedule) (n : Nat),
      (s.state m n).Alike (t.state m n) ∧
      (s.step n (s.state m n)).2 = (t.step n (t.state m n)).2 ∧
      ∀ fault ∈ (s.step n (s.state m n)).2, fault.isMissing = true → m.fault = some fault) ∧
    ∀ (s : Session) (fuel : Nat) (programs : List (Settings × Settings × String)),
      s.image.Sealed → (∀ p ∈ programs, p.1.Alike p.2.1) →
      (∀ code, s.Compiles fuel (programs.map fun p => (p.1, p.2.2)) code → Code.Plain code) →
      s.answers fuel (programs.map fun p => (p.2.1, p.2.2)) =
        s.answers fuel (programs.map fun p => (p.1, p.2.2)) ∧
      (s.last fuel (programs.map fun p => (p.1, p.2.2))).image.Same
        (s.last fuel (programs.map fun p => (p.2.1, p.2.2))).image := by
  constructor
  · intro m hm hs s t n
    have hwhole := hm.whole hs
    obtain ⟨halike, hstep⟩ := Machine.schedules_agree hwhole s t n
    exact ⟨halike, hstep, fun fault hf hmissing =>
      Machine.schedule_not_missing hwhole (hm.present hs) s n hf hmissing⟩
  · intro s fuel programs hi hp hc
    exact Session.answers_same hp ⟨rfl, rfl, fun _ => rfl⟩ hi rfl hc

/-- Collecting in every call, or never, in `((lambda (x) x) 'y)`: as the code of a machine and as
a program of a session. -/
theorem collection_unobservable_call :
    let source := Source.ofString "((lambda (x) x) 'y)" none
    let form : Value := .ofList [.ofList [.symbol "lambda",
      .ofList [.symbol "x"] (some (source.locate 9)) .nil, .symbol "x"]
        (some (source.locate 1)) .nil,
      .quoted (.symbol "y")] (some (source.locate 0)) .nil
    let collecting : Settings := { Settings.unset with thresholdText := some "1" }
    let session : Session := ⟨.empty, none⟩
    (∃ code, Code.ofProgram [] [form] = .ok code ∧ ∀ n,
      (Machine.Schedule.state ⟨fun _ => 1, fun _ => 1⟩ (.ofProgram code .empty 1) n).Alike
        (Machine.Schedule.state ⟨fun _ => 0, fun _ => 0⟩ (.ofProgram code .empty 1) n)) ∧
    session.answers 9 [(.unset, "((lambda (x) x) 'y)")] =
      session.answers 9 [(collecting, "((lambda (x) x) 'y)")] := by
  intro source form collecting session
  have hparse : source.parse = .ok [form] := rfl
  have hdef : MacroTable.isDefinition form = false := rfl
  obtain ⟨code, hcode⟩ : ∃ code, Code.ofProgram [] [form] = .ok code := ⟨_, rfl⟩
  clear_value form
  have hforms := Source.forall_of_parse Value.Plain.ofData hparse
  have hplain : Code.Plain code := Code.plain_of_ofProgram hforms hcode
  have hempty : Arena.empty.WellFormed :=
    Arena.wellFormed_ofGlobals fun _ hv => absurd hv List.not_mem_nil
  have hget : ∀ id s, Arena.empty.get? id = some s → ∀ v ∈ s.vars.values, v.Sealed := by
    intro id s hs v hv
    obtain ⟨rfl, rfl⟩ := Arena.eq_of_get?_ofGlobals hs
    exact absurd hv List.not_mem_nil
  -- no macro is defined, so none is used, and what is compiled is as plain as what was read
  have hdefines : ∀ m, ¬ MacroTable.empty.Defines collecting 9 [form] m := by
    rintro m ⟨t', tail, loc, rest, hcourse, -⟩
    cases hcourse with
    | start | definition => cases hdef
    | form _ _ h => cases h
  have hexpand : MacroTable.Same (fun r => (∀ f ∈ r.1, f.Plain) ∧ ∀ m ∈ r.2.macros, False)
      (fun _ => True) (MacroTable.expandProgram collecting 9 .empty [form])
      (MacroTable.expandProgram collecting 9 .empty [form]) :=
    MacroTable.expandProgram_same (Q := Value.Plain) Value.Plain.ofData.toComposed
      (fun _ => trivial) trivial (fun _ h => h.elim) hforms
      (fun _ hm => absurd hm List.not_mem_nil)
      (fun _ _ h => h) (fun m hm => (hdefines m hm).elim)
  have hcompiles : ∀ c, session.Compiles 9 [(collecting, "((lambda (x) x) 'y)")] c →
      Code.Plain c := by
    intro c hc
    cases hc with
    | later h => exact absurd rfl h.ne_nil
    | now h =>
      cases h with
      | definition hp hm =>
        cases hparse.symm.trans hp
        exact (hdefines _ hm).elim
      | program hp he hc =>
        cases hparse.symm.trans hp
        exact Code.plain_of_ofProgram (hexpand.of_ok he).1 hc
  have hthreshold : collecting.gcThreshold = .ok 1 := by
    have hstrip : Text.strip "1" ≠ "" := by decide +kernel
    have hread : Text.readInt? "1" = some 1 := by decide +kernel
    simp [collecting, Settings.gcThreshold, Settings.natural?, hstrip, hread]
  have hsettings : collecting.Alike .unset :=
    ⟨rfl, ⟨1, hthreshold⟩, ⟨4096, rfl⟩⟩
  refine ⟨⟨code, hcode, fun n => ?_⟩, ?_⟩
  · exact (collection_unobservable.1 (.ofProgram code .empty 1)
      (Machine.wellFormed_ofProgram hempty code 1)
      ⟨fun _ hv => absurd hv List.not_mem_nil, fun _ hf => List.mem_singleton.mp hf ▸ hplain,
        fun id s _ hs => hget id s hs⟩ _ _ n).1
  · have hanswers := collection_unobservable.2 session 9
      [(collecting, .unset, "((lambda (x) x) 'y)")]
      ⟨fun _ hm => absurd hm List.not_mem_nil, hget, hempty.parents, hempty.fresh⟩
      (fun p hp => List.mem_singleton.mp hp ▸ hsettings)
    simp only [List.map_cons, List.map_nil] at hanswers
    exact (hanswers hcompiles).1

end StackLisp
