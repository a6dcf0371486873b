import StackLisp.Proofs.Macro.Fuel
import StackLisp.Proofs.Prelude.Code
import StackLisp.Proofs.Value.Equality

/-!
# Loading the prelude

**The prelude loads**, whatever the threshold, if there is no step limit (`exists_load`), and the
image that it leaves has the macros and the list functions of `StackLisp.Prelude.IsPrelude`.

Whether a source leaves all that is decided by running it, without collections and with a given fuel
(`leavesPrelude`).  It does the same with more fuel and with any threshold
(`load_of_leavesPrelude`): more fuel changes nothing where fuel was enough, and collections are not
observed.
-/

namespace StackLisp.Prelude

set_option maxRecDepth 100000 in
/-- The characters of the prelude. -/
def chars : { cs : List Char // text = String.ofList cs } :=
  ⟨_, rfl⟩

/-- Is it a value that equals a given one? -/
def isCopy (expected : Value) : Option Value → Bool
  | some v => expected.equal v
  | none => false

/-- Is it the macro of the given name with the given parameters and code? -/
def isMacro (t : MacroTable) (name : String) (params : Parameters) (code : Code) : Bool :=
  match t.find? name with
  | some m => m.params == params && codeEqual code m.code
  | none => false

/-- Do the global variables of an arena include the list functions, and no primitives? -/
def hasFunctions (a : Arena) : Bool :=
  match a.get? Arena.globalId with
  | some ⟨vars, none⟩ =>
    functions.all (fun f => isCopy f.global (vars.get? f.name)) &&
      Primitive.all.all fun p => (vars.get? p.name).isNone
  | _ => false

/-- Does the source leave what the prelude should leave? -/
def leavesPrelude (source : Source) (fuel : Nat) : Bool :=
  match source.parse with
  | .error _ => false
  | .ok forms =>
    match MacroTable.expandPlain .unset fuel .empty forms with
    | none => false
    | some (forms, macros) =>
      match Code.ofProgram Arena.empty.globalNames forms with
      | .error _ => false
      | .ok code =>
        let (after, outcome) := (Machine.ofProgram code .empty 0).runFor fuel
        Code.isPlain code && after.output.isEmpty && hasFunctions after.arena &&
          isMacro macros "cond" ⟨[], some "clauses"⟩ condCode &&
          isMacro macros "let" ⟨["bindings"], some "body"⟩ letCode &&
          macros.macros.all (fun m => macroNames.contains m.name) &&
          match outcome with
          | .value _ => true
          | _ => false

/-! ## What the tests show -/

theorem eq_of_isCopy {expected : Value} {found : Option Value} (hr : expected.isRigid = true)
    (h : isCopy expected found = true) : found = some expected := by
  cases found with
  | some v => rw [Value.eq_of_equal hr h]
  | none => cases h

theorem find?_of_isMacro {t : MacroTable} {name : String} {params : Parameters} {code : Code}
    (hr : codeIsRigid code = true) (h : isMacro t name params code = true) :
    ∃ loc, t.find? name = some ⟨name, params, code, loc⟩ := by
  unfold isMacro at h
  split at h
  · rename_i m hm
    rw [Bool.and_eq_true, beq_iff_eq] at h
    have hname : m.name = name := by simpa using List.find?_some hm
    refine ⟨m.loc, ?_⟩
    rw [hm, ← hname, ← h.1, code_eq_of_equal hr h.2]
  · cases h

theorem isLibrary_of_hasFunctions {a : Arena} (h : hasFunctions a = true) :
    ∃ vars, a.get? Arena.globalId = some ⟨vars, none⟩ ∧ IsLibrary vars := by
  unfold hasFunctions at h
  split at h
  · rename_i vars hs
    rw [Bool.and_eq_true, List.all_eq_true, List.all_eq_true] at h
    have hrigid : ∀ f ∈ functions, f.global.isRigid = true := by decide
    exact ⟨vars, hs, fun f hf => eq_of_isCopy (hrigid f hf) (h.1 f hf),
      fun p hp => Option.isNone_iff_eq_none.mp (h.2 p hp)⟩
  · cases h

/-! ## Loading -/

set_option maxRecDepth 100000 in
theorem leavesPrelude_chars :
    leavesPrelude ⟨Source.unifyNewlines chars.1, some Settings.preludeFile⟩ 500 = true := by
  decide +kernel

/-- A program of plain code without collections, as the reference of itself with a threshold. -/
theorem reference_ofEmpty {code : Code} (hc : Code.Plain code) (threshold : Int) :
    (Machine.ofProgram code .empty 0).Reference (Machine.ofProgram code .empty threshold) := by
  have hempty : Arena.empty.WellFormed :=
    Arena.wellFormed_ofGlobals fun _ hv => absurd hv List.not_mem_nil
  refine Machine.reference_ofProgram hc (fun id s hs v hv => ?_) hempty.parents hempty.fresh rfl
    (fun _ => rfl) threshold
  obtain ⟨rfl, rfl⟩ := Arena.eq_of_get?_ofGlobals hs
  exact absurd hv List.not_mem_nil

/-- **A source that leaves what the prelude should leave** does so when it is loaded with more fuel,
without a step limit and with any threshold. -/
theorem load_of_leavesPrelude {source : Source} {fuel fuel' : Nat} {settings : Settings}
    (h : leavesPrelude source fuel = true) (hs : settings.Unlimited) (hle : fuel ≤ fuel') :
    ∃ image listing, load fuel' settings source = .ok (image, listing) ∧ IsPrelude image := by
  unfold leavesPrelude at h
  split at h
  · cases h
  rename_i forms hparse
  split at h
  · cases h
  rename_i expansions macros hexpand
  split at h
  · cases h
  rename_i code hcode
  rcases hrun : (Machine.ofProgram code .empty 0).runFor fuel with ⟨after, outcome⟩
  simp only [hrun, Bool.and_eq_true] at h
  obtain ⟨⟨⟨⟨⟨⟨hcodePlain, houtput⟩, hfunctions⟩, hcond⟩, hlet⟩, hnames⟩, hvalue⟩ := h
  obtain ⟨v, rfl⟩ : ∃ v, outcome = .value v := by
    cases outcome with
    | value v => exact ⟨v, rfl⟩
    | fault | running => cases hvalue
  have hforms : ∀ f ∈ forms, f.Sealed := fun f hf =>
    (Source.forall_of_parse Value.Plain.ofData hparse f hf).sealed
  obtain ⟨hexpand', hmacros⟩ := MacroTable.expandProgram_of_expandPlain Settings.unlimited_unset hs
    hle hforms (fun _ hm => absurd hm List.not_mem_nil) hexpand
  obtain ⟨k, hk⟩ := hs.gcThreshold
  -- the run without collections, with more fuel, and then the one with the threshold
  have hmore := (Machine.runFor_of_le hle (by rw [hrun]; nofun)).trans hrun
  have href := reference_ofEmpty (Code.plain_of_isPlain hcodePlain) k
  have hrun' : (Machine.ofProgram code .empty 0).run fuel' none = (after, .value v) := hmore
  obtain ⟨a, threshold, count, hrunk, hafter⟩ := href.run hrun'
  obtain ⟨hsealed, hsame⟩ := hafter.sealed_ofMachine hmacros
  have hrunk' : (Machine.ofProgram code Image.empty.arena k).run fuel' none =
    (after.withArena a threshold count, .value v) := hrunk
  refine ⟨.ofMachine (after.withArena a threshold count) macros,
    if settings.wantsListing then some (Image.listingTitle source ++ code.listing "") else none,
    ?_, ⟨⟨?_, ?_, ?_⟩, ?_, (hsame.sealed hsealed).fresh⟩⟩
  · have houtput' : (after.withArena a threshold count).output.isEmpty = true := houtput
    have hcode' : Code.ofProgram Image.empty.arena.globalNames expansions = .ok code := hcode
    have hexpand'' : Image.empty.macros.expandProgram settings fuel' forms =
      .ok (expansions, macros) := hexpand'
    simp only [load, Image.prepare, hparse, hexpand'', hcode', hk, mapError_ok, Bind.bind,
      Except.bind, pure_eq_ok, hrunk', houtput', if_true]
  · exact find?_of_isMacro (by decide) hcond
  · exact find?_of_isMacro (by decide) hlet
  · exact fun m hm => List.contains_iff_mem.mp (List.all_eq_true.mp hnames m hm)
  · obtain ⟨vars, hvars, hlibrary⟩ := isLibrary_of_hasFunctions hfunctions
    refine ⟨vars, (hsame.get? Arena.globalId).trans ?_, hlibrary⟩
    exact (Arena.get?_collect_of_reached (Machine.reached_global after)).trans hvars

/-- **The prelude loads**, without a step limit and with any threshold. -/
theorem exists_load {fuel : Nat} {settings : Settings} (hfuel : 500 ≤ fuel)
    (hs : settings.Unlimited) :
    ∃ image listing, load fuel settings source = .ok (image, listing) ∧ IsPrelude image := by
  have htext : text.toList = chars.1 :=
    (congrArg String.toList chars.2).trans String.toList_ofList
  have hleaves := leavesPrelude_chars
  rw [← htext] at hleaves
  exact load_of_leavesPrelude hleaves hs hfuel

end StackLisp.Prelude
