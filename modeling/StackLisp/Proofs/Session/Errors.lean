import StackLisp.Proofs.Machine.Safety
import StackLisp.Proofs.Macro.Expansion
import StackLisp.Session

/-!
# The discipline of errors

Whatever is read, expanded, compiled and run fails in a way that is about the source
(`Error.OfSource`) or about what the program does (`Fault.OfProgram`), with one exception: what a
macro leaves becomes part of a program that runs in another arena, so **a closure that a macro
leaves holds the id of a scope that is not there**, and a call of it finds the scope missing.
If no macro leaves a closure, the machine never breaks (`error_discipline`).

Both halves have the same proof.  It takes properties of forms, of what macros leave, of code and
of arenas that fit together (`Guard`), and there are two choices of these: compiled values, and
those that hold no scope on top of it.
-/

namespace StackLisp

/-- The errors about a source, and the one of a lack of fuel. -/
def Error.OfSource : Error → Prop
  | .read _ _ | .compile _ | .outOfFuel => True
  | _ => False

/-- The settings that are read while programs run are valid. -/
def Settings.Valid (settings : Settings) : Prop :=
  (∃ k, settings.gcThreshold = .ok k) ∧ ∃ limit, settings.stepLimit = .ok limit

/-- The errors that valid settings allow for: those about a source, and faults with `B`. -/
def Error.Excused (settings : Settings) (B : Fault → Prop) (e : Error) : Prop :=
  settings.Valid → e.OfSource ∨ ∃ fault, e = .fault fault ∧ B fault

theorem Error.Excused.compile {settings : Settings} {B : Fault → Prop} (e : CompileError) :
    Error.Excused settings B (.compile e) :=
  fun _ => .inl trivial

theorem Error.Excused.outOfFuel {settings : Settings} {B : Fault → Prop} :
    Error.Excused settings B .outOfFuel :=
  fun _ => .inl trivial

/-- **The images that are reached** from the empty one or the prelude by programs that succeed, each
of which meets a condition. -/
inductive Image.Reached (C : Image → Nat → Settings → Source → Prop) : Image → Prop
  | empty : Image.Reached C .empty
  | prelude {fuel : Nat} {settings : Settings} {image : Image} {listing : Option String}
      (hc : C .empty fuel settings Prelude.source)
      (h : Prelude.load fuel settings Prelude.source = .ok (image, listing)) : Image.Reached C image
  | eval {s : Session} {fuel : Nat} {settings : Settings} {text : String} {answer : Session.Answer}
      (hr : Image.Reached C s.image) (hc : C s.image fuel settings (.ofString text none))
      (h : s.eval fuel settings text = .ok answer) : Image.Reached C answer.session.image

/-- **How a source fares** in an image: if it cannot be made ready, there is something wrong with
it, and otherwise each step and each run fails by what the program does.  Faults with `B` are
excepted. -/
structure Image.Fares (B : Fault → Prop) (image : Image) (fuel : Nat) (settings : Settings)
    (source : Source) : Prop where
  unready : ∀ e, image.prepare fuel settings source = .error e →
    e.OfSource ∨ ∃ fault, e = .fault fault ∧ B fault
  step : ∀ program, image.prepare fuel settings source = .ok program →
    ∀ n, (program.machine.stepTimes n).1.halted = false →
      ∀ fault ∈ (program.machine.stepTimes n).1.step.2, fault.OfProgram ∨ B fault
  run : ∀ program, image.prepare fuel settings source = .ok program →
    ∀ steps limit after fault, program.machine.run steps limit = (after, .fault fault) →
      fault.OfProgram ∨ B fault

/-- **Properties that fit together**: `P` of forms, `Q` of what macros leave, `T` of code, `A` of
arenas.  Code with `T` in an arena with `A` fails by what the program does, or by a fault with
`B`. -/
structure Guard (P Q : Value → Prop) (T : Code → Prop) (A : Arena → Prop) (B : Fault → Prop) :
    Prop where
  data : Value.OfData P
  code : ∀ {bound forms code}, (∀ f ∈ forms, P f) → Code.ofProgram bound forms = .ok code → T code
  compiled : ∀ {code}, T code → Code.Compiled code
  arena : ∀ {arena}, A arena → arena.Compiled
  globals : ∀ {params : Parameters} {args bindings}, (∀ a ∈ args, P a) →
    params.bind args = .ok bindings → A (.ofGlobals bindings)
  fault : ∀ {code arena threshold n m fault}, T code → A arena →
    Machine.Steps n (.ofProgram code arena threshold) m → m.halted = false →
    m.advance = .error fault → fault.OfProgram ∨ B fault
  value : ∀ {code arena threshold n m}, T code → A arena →
    Machine.Steps n (.ofProgram code arena threshold) m →
    (∀ v ∈ m.stack, Q v) ∧ A m.collectGarbage.arena

namespace Guard
variable {P Q : Value → Prop} {T : Code → Prop} {A : Arena → Prop} {B : Fault → Prop}
  {code : Code} {arena : Arena} {threshold : Int} {fuel : Nat} {limit : Option Int}
  {after : Machine}

/-! ## Runs -/

/-- A run is a sequence of steps, at whose end the machine has finished, or a step fails, or the
steps are used up. -/
theorem cases_of_run {m : Machine} (hm : m.fault = none) {out : Outcome}
    (h : m.run fuel limit = (after, out)) :
    ∃ n last, Machine.Steps n m last ∧
      (last.halted = true ∧ after = last ∧ out = last.outcome ∨
        (∃ f, last.halted = false ∧ last.advance = .error f ∧ out = .fault f) ∨
        out = .running ∨ ∃ k, out = .fault (.stepLimit k)) := by
  cases limit with
  | none =>
    obtain ⟨n, last, -, hs, -, hrun⟩ := Machine.runFor_cases fuel hm
    refine ⟨n, last, hs, ?_⟩
    rw [Machine.run] at h
    rcases hrun with ⟨hh, hr⟩ | ⟨f, hh, ha, hr⟩ | ⟨-, -, hr⟩ <;> cases hr.symm.trans h
    · exact .inl ⟨hh, rfl, rfl⟩
    · exact .inr (.inl ⟨f, hh, ha, rfl⟩)
    · exact .inr (.inr (.inl rfl))
  | some limit =>
    obtain ⟨n, last, -, hs, -, hrun⟩ := Machine.runFor_cases limit.toNat hm
    refine ⟨n, last, hs, ?_⟩
    rcases hrun with ⟨hh, hr⟩ | ⟨f, hh, ha, hr⟩ | ⟨-, -, hr⟩ <;> simp only [Machine.run, hr] at h
    · have hne := last.outcome_ne_running
      split at h
      · rename_i heq
        exact absurd (Prod.mk.inj heq).2 hne
      · cases h
        exact .inl ⟨hh, rfl, rfl⟩
    · cases h
      exact .inr (.inl ⟨f, hh, ha, rfl⟩)
    · cases h
      exact .inr (.inr (.inr ⟨limit, rfl⟩))

/-- **A run fails by what the program does**, or by a fault with `B`. -/
theorem run_fault (g : Guard P Q T A B) (hc : T code) (ha : A arena) {fault : Fault}
    (h : (Machine.ofProgram code arena threshold).run fuel limit = (after, .fault fault)) :
    fault.OfProgram ∨ B fault := by
  obtain ⟨n, last, hs, hout⟩ := cases_of_run rfl h
  rcases hout with ⟨hh, -, hout⟩ | ⟨f, hh, hf, hout⟩ | hout | ⟨k, hout⟩
  · -- a machine that has finished has a result
    have hnone : last.frames = [] := by simpa [Machine.halted] using hh
    rcases Machine.settled_of_steps (g.compiled hc) (g.arena ha) hs with
      ⟨-, v, hv⟩ | ⟨f, callers, segment, below, hrun⟩
    · simp [Machine.outcome, Machine.result, hnone, hv] at hout
    · cases hnone.symm.trans hrun.frames
  · cases hout
    exact g.fault hc ha hs hh hf
  · cases hout
  · cases hout
    exact .inl (by simp [Fault.OfProgram, Fault.kind])

/-- **A step fails by what the program does**, or by a fault with `B`. -/
theorem step (g : Guard P Q T A B) (hc : T code) (ha : A arena) {n : Nat} {fault : Fault}
    (hh : ((Machine.ofProgram code arena threshold).stepTimes n).1.halted = false)
    (hf : fault ∈ ((Machine.ofProgram code arena threshold).stepTimes n).1.step.2) :
    fault.OfProgram ∨ B fault := by
  obtain ⟨j, last, hsteps, hnone, hn | ⟨f, hadv, hn⟩⟩ :=
    Machine.stepTimes_cases (m := .ofProgram code arena threshold) n rfl
  · rw [hn] at hh hf
    cases hadv : last.advance with
    | ok next => simp [Machine.step_of_ok hnone hadv] at hf
    | error f =>
      rw [Machine.step_of_error hnone hadv] at hf
      cases hf
      exact g.fault hc ha hsteps hh hadv
  · -- the step has failed before, and fails again in the same way
    have hbroken :=
      ((Machine.settled_of_steps (g.compiled hc) (g.arena ha) hsteps).not_broken hadv).1
    rw [hn, Machine.step_failed hnone hadv hbroken] at hf
    cases hf
    have hframes := (Machine.failed_of_not_broken hbroken (m := last)).1
    rw [hn, Machine.halted, hframes] at hh
    exact g.fault hc ha hsteps hh hadv

/-- **A run leaves a value with `Q`** and an arena with `A`. -/
theorem run_value (g : Guard P Q T A B) (hc : T code) (ha : A arena) {v : Value}
    (h : (Machine.ofProgram code arena threshold).run fuel limit = (after, .value v)) :
    after.stack = [v] ∧ Q v ∧ A after.collectGarbage.arena := by
  have hstack := Machine.stack_of_run (g.compiled hc) (g.arena ha) h
  obtain ⟨n, last, hs, hout⟩ := cases_of_run rfl h
  rcases hout with ⟨-, rfl, -⟩ | ⟨f, -, -, hout⟩ | hout | ⟨k, hout⟩
  · obtain ⟨hvalues, harena⟩ := g.value hc ha hs
    exact ⟨hstack, hvalues v (by simp [hstack]), harena⟩
  · cases hout
  · cases hout
  · cases hout

/-! ## Macros and programs -/

/-- **A macro leaves a value with `Q`**, or its use cannot be compiled, or it fails with `B`. -/
theorem expand (g : Guard P Q T A B) {settings : Settings} {m : Macro} (hc : T m.code)
    (args : List Value) (loc : Option Location) (ha : ∀ a ∈ args, P a) :
    MacroTable.Same Q (Error.Excused settings B) (m.expand fuel settings args loc)
      (m.expand fuel settings args loc) := by
  unfold Macro.expand
  simp only
  split
  · exact .error (.compile _)
  · rename_i bindings hb
    have harena := g.globals ha hb
    cases hk : settings.gcThreshold with
    | error e => exact .error fun ⟨⟨k, hk'⟩, _⟩ => by cases hk.symm.trans hk'
    | ok threshold =>
      cases hl : settings.stepLimit with
      | error e => exact .error fun ⟨_, ⟨l, hl'⟩⟩ => by cases hl.symm.trans hl'
      | ok limit =>
        simp only [mapError_ok, Bind.bind, Except.bind]
        split
        · exact .error .outOfFuel
        · rename_i fault hrun
          split
          · rename_i hkind
            refine .error fun _ => .inr ⟨fault, rfl, ?_⟩
            exact (g.run_fault hc harena hrun).resolve_left fun h => hkind.elim h.1 h.2
          · exact .error (.compile _)
        · rename_i v hrun
          obtain ⟨hstack, hv, -⟩ := g.run_value hc harena hrun
          rw [hstack]
          exact .ok hv

/-- **A source is made ready**, with code and macros that have `T`, or there is something wrong with
it, or a macro fails with `B`. -/
theorem prepare (g : Guard P Q T A B) {image : Image} {settings : Settings} {source : Source}
    (hm : ∀ m ∈ image.macros.macros, T m.code)
    (hl : ∀ forms, source.parse = .ok forms →
      ∀ v, image.macros.ProgramLeaves settings fuel forms v → Q v → P v) :
    (∃ e, image.prepare fuel settings source = .error e ∧ e.Excused settings B) ∨
    ∃ code k macros listing, T code ∧ (∀ m ∈ macros.macros, T m.code) ∧
      image.prepare fuel settings source =
        .ok ⟨.ofProgram code image.arena k, macros, listing⟩ := by
  unfold Image.prepare
  cases hp : source.parse with
  | error e => exact .inl ⟨_, rfl, fun _ => .inl trivial⟩
  | ok forms =>
    have hsame := MacroTable.expandProgram_same (T := fun m => T m.code)
      g.data.toComposed .compile .outOfFuel (fun m hc args loc ha => g.expand hc args loc ha)
      (Source.forall_of_parse g.data hp) hm (hl forms hp)
      (fun m _ ⟨bound, body, hb, hc⟩ => g.code hb hc)
    simp only [mapError_ok, Bind.bind, Except.bind]
    generalize MacroTable.expandProgram settings fuel image.macros forms = r at hsame
    cases hsame with
    | error he => exact .inl ⟨_, rfl, he⟩
    | @ok r hr =>
      obtain ⟨expansions, macros⟩ := r
      simp only
      cases hcode : Code.ofProgram image.arena.globalNames expansions with
      | error e => exact .inl ⟨_, rfl, .compile e⟩
      | ok code =>
        cases hk : settings.gcThreshold with
        | error e => exact .inl ⟨_, rfl, fun ⟨⟨k, hk'⟩, _⟩ => by cases hk.symm.trans hk'⟩
        | ok k => exact .inr ⟨code, k, macros, _, g.code hr.1 hcode, hr.2, rfl⟩

/-- What a program that succeeds leaves. -/
theorem ofMachine (g : Guard P Q T A B) {image : Image} {settings : Settings} {source : Source}
    (hi : A image.arena ∧ ∀ m ∈ image.macros.macros, T m.code)
    (hl : ∀ forms, source.parse = .ok forms →
      ∀ v, image.macros.ProgramLeaves settings fuel forms v → Q v → P v)
    {program : Program} (hp : image.prepare fuel settings source = .ok program) {steps : Nat}
    {v : Value} (hr : program.machine.run steps limit = (after, .value v)) :
    A (Image.ofMachine after program.macros).arena ∧ ∀ m ∈ program.macros.macros, T m.code := by
  rcases g.prepare hi.2 hl with ⟨e, he, -⟩ | ⟨code, k, macros, listing, hc, hm, he⟩
  · cases he.symm.trans hp
  · cases he.symm.trans hp
    exact ⟨(g.run_value hc hi.1 hr).2.2, hm⟩

/-- **All images that are reached** have code and arenas as they should be. -/
theorem reached (g : Guard P Q T A B) {C : Image → Nat → Settings → Source → Prop}
    (hC : ∀ image fuel settings source, C image fuel settings source →
      ∀ forms, source.parse = .ok forms →
        ∀ v, image.macros.ProgramLeaves settings fuel forms v → Q v → P v)
    {image : Image} (h : image.Reached C) :
    A image.arena ∧ ∀ m ∈ image.macros.macros, T m.code := by
  have hbind : (Parameters.mk [] none).bind [] = .ok [] := rfl
  have hempty : A Image.empty.arena ∧ ∀ m ∈ Image.empty.macros.macros, T m.code :=
    ⟨g.globals (fun _ hm => absurd hm List.not_mem_nil) hbind,
      fun _ hm => absurd hm List.not_mem_nil⟩
  induction h with
  | empty => exact hempty
  | @prelude fuel settings image listing hc h =>
    unfold Prelude.load at h
    obtain ⟨program, hp, h⟩ := bind_eq_ok.mp h
    split at h
    · cases h
    · cases h
    · rename_i after v hr
      split at h <;> cases h
      exact g.ofMachine hempty (hC _ _ _ _ hc) hp hr
  | @eval s fuel settings text answer _ hc h ih =>
    unfold Session.eval at h
    obtain ⟨program, hp, h⟩ := bind_eq_ok.mp h
    split at h
    · cases h
    · cases h
    · rename_i after v hr
      cases h
      exact g.ofMachine ih (hC _ _ _ _ hc) hp hr

/-- **How a source fares** in an image whose code and arena are as they should be. -/
theorem fares (g : Guard P Q T A B) {image : Image} {settings : Settings} {source : Source}
    (hi : A image.arena ∧ ∀ m ∈ image.macros.macros, T m.code)
    (hl : ∀ forms, source.parse = .ok forms →
      ∀ v, image.macros.ProgramLeaves settings fuel forms v → Q v → P v) (hs : settings.Valid) :
    image.Fares B fuel settings source := by
  rcases g.prepare hi.2 hl with ⟨e, he, hexcused⟩ | ⟨code, k, macros, listing, hc, hm, he⟩
  · refine ⟨fun e' he' => ?_, fun _ hp => ?_, fun _ hp => ?_⟩
    · cases he.symm.trans he'
      exact hexcused hs
    · cases he.symm.trans hp
    · cases he.symm.trans hp
  · refine ⟨fun e' he' => ?_, fun _ hp n hh fault hf => ?_,
      fun _ hp steps limit after fault hr => ?_⟩
    · cases he.symm.trans he'
    · cases he.symm.trans hp
      exact g.step hc hi.1 hh hf
    · cases he.symm.trans hp
      exact g.run_fault hc hi.1 hr

end Guard

/-! ## Two guards -/

/-- All code is compiled, and the ways outwards in all arenas are whole. -/
theorem compiledGuard : Guard Value.Compiled Value.Compiled Code.Compiled
    (fun arena => arena.Compiled ∧ arena.Rooted)
    (fun fault => ∃ id, fault = .missingParent id) where
  data := Value.Compiled.ofData
  code := Code.compiled_of_ofProgram
  compiled := id
  arena := And.left
  globals ha hb := ⟨Arena.compiled_ofGlobals ha hb, Arena.rooted_ofGlobals _⟩
  fault hc ha hs hh hf := Machine.fault_of_compiled hc ha.1 ha.2 hs hh hf
  value hc ha hs := by
    have hm := hs.induction (fun _ _ hq hadv => Machine.Compiled.advance hq hadv)
      (Machine.compiled_ofProgram hc ha.1 _)
    exact ⟨hm.stack, fun id s hget => (hm.collectGarbage.arena id s trivial hget).1,
      (Machine.rooted_of_steps ha.2 hs).arena.collect _ _⟩

/-- A sealed value that holds no scope is plain. -/
theorem Value.Sealed.plain {v : Value} (h : v.Sealed) (hv : ∀ id, ¬ v.Holds id) : v.Plain := by
  induction h with
  | nil => exact .nil
  | bool b => exact .bool b
  | number x => exact .number x
  | text s => exact .text s
  | symbol name => exact .symbol name
  | quoted _ ih => exact .quoted (ih fun id hid => hv id (.quoted hid))
  | pair _ _ ihh iht =>
    exact .pair (ihh fun id hid => hv id (.head hid)) (iht fun id hid => hv id (.tail hid))
  | template h => exact .template h
  | closure h => exact absurd (.closure _ _) (hv _)

/-- The bindings of plain arguments are plain. -/
theorem Value.Plain.bind {params : Parameters} {args : List Value} {bindings : Bindings}
    (ha : ∀ a ∈ args, a.Plain) (hb : params.bind args = .ok bindings) :
    ∀ v ∈ bindings.values, v.Plain := by
  intro v hv
  rcases params.mem_values_bind hb hv with hm | ⟨k, rfl⟩
  · exact ha v hm
  · exact Value.Plain.ofData.ofList fun w hw => ha w (List.mem_of_mem_drop hw)

/-- No constant is a closure, and in all arenas no scope is missing. -/
theorem plainGuard : Guard (fun v => v.Compiled ∧ v.Plain) (fun v => v.Compiled ∧ v.Sealed)
    (fun code => Code.Compiled code ∧ Code.Plain code)
    (fun arena => arena.Compiled ∧ arena.WellFormed ∧
      ∀ id s, arena.get? id = some s → ∀ v ∈ s.vars.values, v.Sealed) (fun _ => False) where
  data := Value.Compiled.ofData.and Value.Plain.ofData
  code hf hc := ⟨Code.compiled_of_ofProgram (fun f hm => (hf f hm).1) hc,
    Code.plain_of_ofProgram (fun f hm => (hf f hm).2) hc⟩
  compiled := And.left
  arena := And.left
  globals ha hb := by
    have hplain := Value.Plain.bind (fun a hm => (ha a hm).2) hb
    refine ⟨Arena.compiled_ofGlobals (fun a hm => (ha a hm).1) hb,
      Arena.wellFormed_ofGlobals hplain, fun id s hs v hv => ?_⟩
    obtain ⟨rfl, rfl⟩ := Arena.eq_of_get?_ofGlobals hs
    exact (hplain v hv).sealed
  fault hc ha hs hh hf :=
    .inl (Machine.fault_of_plain hc.1 hc.2 ha.1 ha.2.1 ha.2.2 hs hh hf)
  value hc ha hs := by
    obtain ⟨hstack, harena, -⟩ := compiledGuard.value hc.1 ⟨ha.1, ha.2.1.rooted⟩ hs
    obtain ⟨ref, href, hp⟩ := Machine.reference_of_steps ha.2.1 hc.2 ha.2.2 hs
    obtain ⟨hsealed, hwf, hvalues⟩ := href.wellFormed_collectGarbage hp
    exact ⟨fun v hv => ⟨hstack v hv, hsealed v hv⟩, harena, hwf, hvalues⟩

/-- **No macro leaves a closure** while a source is made ready. -/
def Image.LeavesNoClosure (image : Image) (fuel : Nat) (settings : Settings) (source : Source) :
    Prop :=
  ∀ forms, source.parse = .ok forms →
    ∀ v, image.macros.ProgramLeaves settings fuel forms v → ∀ id, ¬ v.Holds id

/-- **The discipline of errors.**  In an image that programs have led to, a source fails for a
reason that is its own, or by the call of a closure whose scope is missing.  The latter does not
happen if neither the source nor the programs before it had macros that left closures. -/
theorem error_discipline (image : Image) (fuel : Nat) (settings : Settings) (source : Source)
    (hs : settings.Valid) :
    (image.Reached (fun _ _ _ _ => True) →
      image.Fares (fun fault => ∃ id, fault = .missingParent id) fuel settings source) ∧
    (image.Reached Image.LeavesNoClosure → image.LeavesNoClosure fuel settings source →
      image.Fares (fun _ => False) fuel settings source) := by
  have hleft : ∀ image fuel settings source, Image.LeavesNoClosure image fuel settings source →
      ∀ forms, source.parse = .ok forms → ∀ v, image.macros.ProgramLeaves settings fuel forms v →
        v.Compiled ∧ v.Sealed → v.Compiled ∧ v.Plain :=
    fun _ _ _ _ h forms hp v hv hq => ⟨hq.1, hq.2.plain (h forms hp v hv)⟩
  constructor
  · intro hr
    exact compiledGuard.fares (compiledGuard.reached (fun _ _ _ _ _ _ _ _ _ h => h) hr)
      (fun _ _ _ _ h => h) hs
  · intro hr hl
    exact plainGuard.fares (plainGuard.reached hleft hr) (hleft _ _ _ _ hl) hs

/-! ## With and without closures -/

/-- In a list of one name only that name can be used. -/
theorem MacroTable.Uses.of_single {t : MacroTable} {use : MacroTable.Use} {m : Macro}
    {args : List Value} {name : String} {loc loc' : Option Location}
    (hn : name ∉ MacroTable.specialNames)
    (h : t.Uses use m args loc (.pair (.symbol name) .nil loc')) :
    t.named? (.symbol name) = some m ∧ args = [] := by
  have hne : ∀ special ∈ MacroTable.specialNames, ¬ (Value.symbol name).symbol? = some special := by
    rintro special hs heq
    cases heq
    exact hn hs
  cases h with
  | shown hh _ _ => exact absurd hh (hne _ (by decide))
  | lambdaUse hh _ _ _ => exact absurd hh (hne _ (by decide))
  | defineEach hh _ _ => exact absurd hh (hne _ (by decide))
  | defineUse hh _ _ _ _ => exact absurd hh (hne _ (by decide))
  | head _ h => cases h
  | each _ _ h => cases h
  | use _ he ht hm ha =>
    simp only [MacroTable.expandForm, MacroTable.expandEach, Except.ok.injEq] at he ht
    subst he ht
    exact ⟨hm, (Option.some.inj ha).symm⟩

/-- A macro whose body is a quoted symbol leaves that symbol. -/
theorem leavesNoClosure_symbol {source : Source} {l₁ l₂ l₃ l₄ l₅ : Option Location}
    (hparse : source.parse = .ok [.pair (.symbol "defmacro") (.pair (.pair (.symbol "m") .nil l₁)
      (.pair (.quoted (.symbol "x")) .nil l₂) l₃) l₄, .pair (.symbol "m") .nil l₅]) :
    Image.empty.LeavesNoClosure 9 .unset source := by
  have hmacro : MacroTable.empty.macroOf .unset 9 (.pair (.symbol "defmacro")
      (.pair (.pair (.symbol "m") .nil l₁) (.pair (.quoted (.symbol "x")) .nil l₂) l₃) l₄)
      (.pair (.pair (.symbol "m") .nil l₁) (.pair (.quoted (.symbol "x")) .nil l₂) l₃) l₄ =
      .ok ⟨"m", ⟨[], none⟩, [.pushConst (.symbol "x"), .ret], l₄⟩ := by
    simp only [MacroTable.macroOf, Value.list?, MacroTable.expandAll]
    rfl
  have hexpand : ∀ loc, Macro.expand ⟨"m", ⟨[], none⟩, [.pushConst (.symbol "x"), .ret], l₄⟩ 9
      .unset [] loc = .ok (.symbol "x") := fun _ => rfl
  have hatom : ∀ {t : MacroTable} {fuel atom v}, MacroTable.isPair atom = false →
      ¬ t.Leaves .unset 9 fuel atom v := by
    intro t fuel atom v ha h
    cases h with
    | left hu _ => cases hu <;> cases ha
    | again hu _ _ => cases hu <;> cases ha
  generalize hform : Value.pair (.symbol "m") .nil l₅ = form at hparse
  have hd : MacroTable.isDefinition form = false := hform ▸ rfl
  rintro forms hp v ⟨t, first, rest, expanded, hcourse, hexpanded, hleaves⟩ id hid
  cases hparse.symm.trans hp
  cases hcourse with
  | form hd => cases hd
  | start =>
    cases hexpanded with
    | form hd => cases hd
    | body ht _ =>
      cases ht
      cases hleaves with
      | head h => exact hatom rfl h
      | tail _ h => cases h
  | definition hm hcourse =>
    cases hmacro.symm.trans hm
    cases hcourse with
    | definition _ h => cases hd
    | form _ _ h => cases h
    | start =>
      cases hexpanded with
      | body _ _ => cases hd
      | form _ =>
        cases hleaves with
        | tail _ h => cases h
        | head h =>
          subst hform
          cases h with
          | left hu hv =>
            obtain ⟨hm, rfl⟩ := hu.of_single (by decide)
            cases hm
            cases (hexpand _).symm.trans hv
            cases hid
          | again hu he h =>
            obtain ⟨hm, rfl⟩ := hu.of_single (by decide)
            cases hm
            cases (hexpand _).symm.trans he
            exact hatom rfl h

/-- A macro that leaves a symbol, and one that leaves a closure. -/
theorem fares_symbol_macro :
    Image.empty.Fares (fun _ => False) 9 .unset (.ofString "(defmacro (m) 'x) (m)" none) ∧
    Image.empty.Fares (fun fault => ∃ id, fault = .missingParent id) 50 .unset (.ofString
      "(defmacro (m) ((lambda (y) (cons 'quote (cons (lambda () y) '()))) 1)) ((m))" none) := by
  have hs : Settings.unset.Valid := ⟨⟨4096, rfl⟩, none, rfl⟩
  constructor
  · exact (error_discipline .empty 9 .unset _ hs).2 .empty (leavesNoClosure_symbol rfl)
  · exact (error_discipline .empty 50 .unset _ hs).1 .empty

/-- Does a run of a source end with a fault of a broken machine? -/
def Image.breaks (image : Image) (fuel : Nat) (settings : Settings) (source : Source) : Bool :=
  match image.prepare fuel settings source with
  | .error _ => false
  | .ok program =>
    match program.machine.run fuel none with
    | (_, .fault fault) => fault.kind = .internal
    | _ => false

theorem Image.not_fares_of_breaks {image : Image} {fuel : Nat} {settings : Settings}
    {source : Source} (h : image.breaks fuel settings source = true) :
    ¬ image.Fares (fun _ => False) fuel settings source := by
  intro hf
  unfold Image.breaks at h
  split at h
  · cases h
  · rename_i program hp
    split at h
    · rename_i after fault hr
      have hprogram := (hf.run program hp fuel none after fault hr).resolve_right id
      exact hprogram.1 (of_decide_eq_true h)
    · cases h

/-- **A closure that a macro leaves breaks the machine**: the scope of `y` is one of the arena in
which the macro ran. -/
theorem not_fares_closure_macro :
    ¬ Image.empty.Fares (fun _ => False) 50 .unset (.ofString
      "(defmacro (m) ((lambda (y) (cons 'quote (cons (lambda () y) '()))) 1)) ((m))" none) :=
  Image.not_fares_of_breaks (by decide +kernel)

end StackLisp
