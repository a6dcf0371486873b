import StackLisp.Proofs.Machine.Sequel
import StackLisp.Proofs.Macro.Relocation
import StackLisp.Proofs.Session.Collection
import StackLisp.Proofs.Session.Errors
import StackLisp.Proofs.Source

/-!
# Sessions and concatenated programs

Two programs of a session, one after the other, are one program: **what they do is what the two
texts do, one below the other** (`Session.eval_append`).  The joined text is read as the forms of
both, its forms are expanded with the macros that come before them, and its code is the code of
both with a pop in between.

Between two programs of a session the arena is collected, and within one program it is not.  So the
joined program is compared with machines that never collect, and these with the two programs
(`Machine.Reference`).  Locations differ, since the second text begins further below; all that
is compared is the same up to locations.

A primitive that is called directly is called so in the joined program too, as long as no name
of a primitive is bound: what the first program binds, the second finds among the global names,
and the joined program among its own.
-/

namespace StackLisp

/-! ## Images -/

/-- **The images that programs lead to** from the empty one.  A program may come from any source, a
prelude or a text of a session, and it has to succeed. -/
inductive Image.Led : Image → Prop
  | empty : Image.Led .empty
  | program {image : Image} {fuel steps : Nat} {settings : Settings} {source : Source}
      {limit : Option Int} {program : Program} {after : Machine} {v : Value} (h : Image.Led image)
      (hp : image.prepare fuel settings source = .ok program)
      (hr : program.machine.run steps limit = (after, .value v)) :
      Image.Led (.ofMachine after program.macros)

/-- **Images with the same scopes under the same ids, and the same macros**, up to locations.  The
names of a scope are compared in the order in which they were bound, and the macros in that in
which they were defined, so this says more than that each name means the same. -/
structure Image.Like (i j : Image) : Prop where
  arena : i.arena.Like j.arena
  macros : i.macros.Like j.macros

/-- The forms of a source that are left after expansion, and the macros after it. -/
def Image.expand (image : Image) (fuel : Nat) (settings : Settings) (source : Source) :
    Except Error (List Value × MacroTable) := do
  let forms ← source.parse.mapError (.read source)
  image.macros.expandProgram settings fuel forms

section Images
variable {image : Image} {fuel : Nat} {settings : Settings} {source : Source}

/-- **What all images have that programs lead to.** -/
theorem Image.Led.compiled (h : image.Led) :
    (image.arena.Compiled ∧ image.arena.Rooted) ∧
      ∀ m ∈ image.macros.macros, Code.Compiled m.code := by
  induction h with
  | empty =>
    exact ⟨⟨Arena.compiled_empty, Arena.rooted_ofGlobals []⟩,
      fun _ hm => absurd hm List.not_mem_nil⟩
  | program _ hp hr ih => exact compiledGuard.ofMachine ih (fun _ _ _ _ hv => hv) hp hr

/-- The images that sessions reach are among them. -/
theorem Image.Reached.led {C : Image → Nat → Settings → Source → Prop} (h : image.Reached C) :
    image.Led := by
  induction h with
  | empty => exact .empty
  | prelude _ h =>
    obtain ⟨program, hp, h⟩ := bind_eq_ok.mp h
    split at h
    · cases h
    · cases h
    · rename_i after v hr
      split at h <;> cases h
      exact .program .empty hp hr
  | eval _ _ h ih =>
    obtain ⟨program, hp, h⟩ := bind_eq_ok.mp h
    split at h
    · cases h
    · cases h
    · rename_i after v hr
      cases h
      exact .program ih hp hr

theorem Image.expand_eq_ok {forms : List Value} {macros : MacroTable} :
    image.expand fuel settings source = .ok (forms, macros) ↔
      ∃ parsed, source.parse = .ok parsed ∧
        image.macros.expandProgram settings fuel parsed = .ok (forms, macros) := by
  unfold Image.expand
  cases source.parse <;> simp [Bind.bind, Except.bind]

/-- The forms that are left are compiled values. -/
theorem Image.Led.compiled_of_expand (h : image.Led) {forms : List Value} {macros : MacroTable}
    (he : image.expand fuel settings source = .ok (forms, macros)) :
    ∀ form ∈ forms, form.Compiled := by
  obtain ⟨parsed, hp, he⟩ := Image.expand_eq_ok.mp he
  have hsame : MacroTable.Same
      (fun r => (∀ form ∈ r.1, form.Compiled) ∧ ∀ m ∈ r.2.macros, Code.Compiled m.code)
      (Error.Excused settings fun fault => ∃ id, fault = .missingParent id)
      (image.macros.expandProgram settings fuel parsed)
      (image.macros.expandProgram settings fuel parsed) :=
    MacroTable.expandProgram_same Value.Compiled.ofData.toComposed .compile .outOfFuel
      (fun m hc args loc ha => compiledGuard.expand hc args loc ha)
      (Source.forall_of_parse Value.Compiled.ofData hp) h.compiled.2 (fun _ _ hv => hv)
      (fun m _ ⟨bound, body, hb, hc⟩ => Code.compiled_of_ofProgram hb hc)
  exact (hsame.of_ok he).1

/-- **The expansion of a text and, on the next line, a second one.** -/
theorem Image.exists_expand_append {image' : Image} {p q : String} {fuel fuel' k : Nat}
    {forms rest : List Value} {macros macros' : MacroTable}
    (he : image.expand fuel settings (.ofString p none) = .ok (forms, macros))
    (he' : image'.expand fuel' settings (.ofString q none) = .ok (rest, macros'))
    (hm : image'.macros = macros) (hk : fuel ≤ k) (hk' : fuel' ≤ k) :
    ∃ forms' rest' table,
      image.expand k settings (.ofString (p ++ "\n" ++ q) none) = .ok (forms' ++ rest', table) ∧
      forms'.map Value.bare = forms.map Value.bare ∧
      rest'.map Value.bare = rest.map Value.bare ∧ macros'.Like table := by
  obtain ⟨parsed, hp, he⟩ := Image.expand_eq_ok.mp he
  obtain ⟨parsed', hp', he'⟩ := Image.expand_eq_ok.mp he'
  obtain ⟨first, second, hjoined, hfirst, hsecond⟩ := Source.exists_parse_append hp hp'
  obtain ⟨forms', table, hforms, hbare, htable⟩ :=
    MacroTable.exists_expandProgram (rfl : image.macros.Like image.macros) hk hfirst he
  obtain ⟨rest', table', hrest, hbare', htable'⟩ :=
    MacroTable.exists_expandProgram (hm ▸ htable) hk' hsecond he'
  refine ⟨forms', rest', table', Image.expand_eq_ok.mpr ⟨first ++ second, ?_, ?_⟩, hbare, hbare',
    htable'⟩
  · have htext : (p ++ "\n" ++ q).toList = p.toList ++ '\n' :: q.toList := by simp
    rw [Source.ofString, htext]
    exact hjoined
  · exact MacroTable.expandProgram_append hforms hrest

end Images

/-! ## Programs of a session -/

theorem mapError_eq_ok {ε ε' α : Type} {f : ε → ε'} {r : Except ε α} {a : α} :
    r.mapError f = .ok a ↔ r = .ok a := by
  cases r <;> simp

/-- **A program of a session succeeds** if its text can be expanded and compiled and its run ends
with a value. -/
theorem Session.eval_eq_ok {s : Session} {fuel : Nat} {settings : Settings} {text : String}
    {answer : Session.Answer} :
    s.eval fuel settings text = .ok answer ↔ ∃ forms macros code threshold after v,
      s.image.expand fuel settings (.ofString text none) = .ok (forms, macros) ∧
      Code.ofProgram s.image.arena.globalNames forms = .ok code ∧
      settings.gcThreshold = .ok threshold ∧
      (Machine.ofProgram code s.image.arena threshold).run fuel s.stepLimit = (after, .value v) ∧
      answer = ⟨v, after.collectGarbage, { s with image := .ofMachine after macros }⟩ := by
  constructor
  · intro h
    obtain ⟨program, hp, h⟩ := bind_eq_ok.mp h
    obtain ⟨parsed, hparsed, hp⟩ := bind_eq_ok.mp hp
    obtain ⟨⟨forms, macros⟩, hforms, hp⟩ := bind_eq_ok.mp hp
    obtain ⟨code, hcode, hp⟩ := bind_eq_ok.mp hp
    obtain ⟨threshold, hthreshold, hp⟩ := bind_eq_ok.mp hp
    cases hp
    rw [mapError_eq_ok] at hparsed hcode hthreshold
    split at h
    · cases h
    · cases h
    · rename_i after v hr
      cases h
      exact ⟨forms, macros, code, threshold, after, v,
        Image.expand_eq_ok.mpr ⟨parsed, hparsed, hforms⟩, hcode, hthreshold, hr, rfl⟩
  · rintro ⟨forms, macros, code, threshold, after, v, he, hcode, hthreshold, hr, rfl⟩
    obtain ⟨parsed, hparsed, hforms⟩ := Image.expand_eq_ok.mp he
    simp [Session.eval, Image.prepare, hparsed, hforms, hcode, hthreshold, hr, Bind.bind,
      Except.bind]

namespace Machine
variable {m other after : Machine}

/-- **A run that collects or not ends where its reference ends.** -/
theorem Reference.exists_steps (h : m.Reference other) (hm : m.fault = none) {fuel : Nat}
    {v : Value} (hr : other.runFor fuel = (after, .value v)) :
    ∃ n last, n ≤ fuel ∧ Steps n m last ∧ last.halted = true ∧ last.outcome = .value v ∧
      last.Reference after := by
  obtain ⟨href, hout⟩ := h.runFor fuel
  rw [hr] at href hout
  obtain ⟨n, last, hn, hs, -, hcases⟩ := runFor_cases fuel hm
  rcases hcases with ⟨hh, hend⟩ | ⟨f, -, -, hend⟩ | ⟨-, -, hend⟩ <;> rw [hend] at href hout
  · exact ⟨n, last, hn, hs, hh, hout.symm, href⟩
  · cases hout
  · cases hout

theorem Reference.like_collectGarbage (h : m.Reference other) :
    m.collectGarbage.arena.Like other.collectGarbage.arena := by
  refine ⟨?_, fun id => congrArg _ (h.agrees.get?_collectGarbage id)⟩
  obtain ⟨⟨a, threshold, count, rfl, hsame⟩, -, -⟩ := h
  exact hsame.nextId

theorem Reference.output_eq (h : m.Reference other) : other.output = m.output := by
  obtain ⟨⟨a, threshold, count, rfl, hsame⟩, -, -⟩ := h
  rfl

/-- **A program after another**: the arena that a machine leaves, collected or not. -/
theorem Reference.ofProgram (h : m.Reference other) {code : Code} (hc : Code.Plain code)
    (threshold : Int) :
    (Machine.ofProgram code m.arena 0).Reference
      (Machine.ofProgram code other.collectGarbage.arena threshold) := by
  have hreached : ∀ id, (Machine.ofProgram code m.arena 0).Reached id → m.Reached id := by
    intro id hid
    induction hid with
    | root hr =>
      rcases hr with rfl | hr | ⟨v, hv, hid⟩
      · exact m.reached_global
      · obtain rfl := List.mem_singleton.mp hr
        exact m.reached_global
      · obtain ⟨f, hf, hv⟩ := List.mem_flatMap.mp hv
        obtain rfl := List.mem_singleton.mp hf
        exact absurd hid ((hc v (mem_of_closureConstants hv)).not_holds _)
    | step _ hs hl ih => exact ih.step hs hl
  refine ⟨⟨other.collectGarbage.arena, threshold, 0, rfl, ?_, fun id hid => ?_⟩, ⟨?_, ⟨?_, ?_, ?_⟩,
    h.whole.fresh⟩, rfl⟩
  · exact h.like_collectGarbage.nextId
  · rw [h.agrees.get?_collectGarbage id]
    exact Arena.get?_collect_of_reached (hreached id hid)
  · intro id s parent hid hs hparent
    exact ⟨(h.whole.descending id s parent (hreached id hid) hs hparent).1,
      hid.step hs (.inl hparent)⟩
  · exact fun _ hv => absurd hv List.not_mem_nil
  · intro f hf
    obtain rfl := List.mem_singleton.mp hf
    exact hc
  · exact fun id s hid hs => h.whole.sealed.scopes id s (hreached id hid) hs

/-- **The joined code ends as the two programs do**, one after the other, whenever scopes are
collected. -/
theorem exists_run_joined {arena : Arena} {first second joined : Code} {threshold : Int}
    {fuel fuel' k : Nat} {after' : Machine} {v v' : Value} (hj : Code.Joined second first joined)
    (hc : Code.Compiled first) (hc' : Code.Compiled second) (hp : Code.Plain first)
    (hp' : Code.Plain second) (ha : arena.Compiled) (hroot : arena.Rooted)
    (hsealed : ∀ id s, arena.get? id = some s → ∀ v ∈ s.vars.values, v.Sealed)
    (hr : (Machine.ofProgram first arena threshold).runFor fuel = (after, .value v))
    (hr' : (Machine.ofProgram second after.collectGarbage.arena threshold).runFor fuel' =
      (after', .value v')) (hk : fuel + fuel' ≤ k) :
    ∃ final, (Machine.ofProgram joined arena threshold).runFor k = (final, .value v') ∧
      final.output = after.output ++ after'.output ∧
      after'.collectGarbage.arena.Like final.collectGarbage.arena := by
  have reference : ∀ {code : Code}, Code.Plain code →
      (Machine.ofProgram code arena 0).Reference (Machine.ofProgram code arena threshold) :=
    fun hcode => reference_ofProgram hcode hsealed
      (fun id s parent hs hparent => (hroot.parents id s parent hs hparent).1) hroot.fresh rfl
      (fun _ => rfl) threshold
  -- neither program collects in its reference, and so the joined code does what both do there
  obtain ⟨n, last, hn, hs, hh, -, hlast⟩ := (reference hp).exists_steps rfl hr
  obtain ⟨n', last', hn', hs', hh', hout, hlast'⟩ :=
    (hlast.ofProgram hp' threshold).exists_steps rfl hr'
  obtain ⟨steps, final, hsteps, hrun, hhalted, hstack, harena, houtput⟩ :=
    exists_steps_joined hj hc hc' ha hroot hs hh hs' hh'
  have hnone : final.frames = [] := by simpa [halted] using hhalted
  have hnone' : last'.frames = [] := by simpa [halted] using hh'
  have hend : (Machine.ofProgram joined arena 0).run k none = (final, .value v') := by
    have hrun := hrun.runFor_eq rfl (k - steps)
    rw [Nat.add_sub_cancel' (by omega), runFor_of_halted hhalted] at hrun
    refine hrun.trans ?_
    rw [← hout]
    simp only [outcome, result, hnone, hnone', hstack]
  obtain ⟨a, _, count, hjoined, hfinal⟩ := (reference (hj.plain hp hp')).run hend
  refine ⟨_, hjoined, ?_, ?_⟩
  · rw [hfinal.output_eq, houtput, hlast.output_eq, hlast'.output_eq]
  · have hsame : last'.collectGarbage.arena = final.collectGarbage.arena := by
      simp only [Machine.collectGarbage, rootValues, hnone, hnone', hstack, harena]
    exact hlast'.like_collectGarbage.symm.trans (hsame ▸ hfinal.like_collectGarbage)

end Machine

/-! ## Joined programs -/

theorem Primitive.name_ne_dot (p : Primitive) : p.name ≠ Parameters.dot := by
  cases p <;> decide +kernel

/-- Forms that are the same up to locations are plain together. -/
theorem Value.forall_plain_of_map {forms forms' : List Value}
    (h : forms'.map Value.bare = forms.map Value.bare) (hf : ∀ form ∈ forms, form.Plain) :
    ∀ form ∈ forms', form.Plain := by
  intro form' hm
  have hmem : form'.bare ∈ forms.map Value.bare := h ▸ List.mem_map_of_mem hm
  obtain ⟨form, hm, hbare⟩ := List.mem_map.mp hmem
  exact Value.plain_of_bare (hbare ▸ (hf form hm).bare)

theorem Value.flatMap_boundNames_of_map {forms forms' : List Value}
    (h : forms'.map Value.bare = forms.map Value.bare) :
    forms'.flatMap Value.boundNames = forms.flatMap Value.boundNames := by
  rw [← Value.flatMap_boundNames_bare, h, Value.flatMap_boundNames_bare]

/-- **A program that binds no primitive's name leaves none bound** globally. -/
theorem Machine.unbound_of_runFor {bound : List String} {forms : List Value} {code : Code}
    {arena : Arena} {threshold : Int} {fuel : Nat} {after : Machine} {v : Value}
    (hforms : ∀ form ∈ forms, form.Compiled) (hplain : ∀ form ∈ forms, form.Plain)
    (hnames : Code.Unbound (forms.flatMap Value.boundNames))
    (hcode : Code.ofProgram bound forms = .ok code) (harena : arena.Compiled)
    (hroot : arena.Rooted) (hglobals : Code.Unbound arena.globalNames)
    (hr : (ofProgram code arena threshold).runFor fuel = (after, .value v)) :
    Code.Unbound after.collectGarbage.arena.globalNames := by
  intro p hp
  obtain ⟨s, hs, hname⟩ := mem_globalNames.mp hp
  have hafter := mem_globalNames.mpr ⟨s, (Arena.reached_of_get?_collect hs).1, hname⟩
  have hunder := underway_ofProgram (Code.compiled_of_ofProgram hforms hcode) harena hroot threshold
  obtain ⟨n, last, -, hsteps, -, hcases⟩ :=
    runFor_cases (m := ofProgram code arena threshold) fuel rfl
  -- a name that is global at the end was so at the start, or the code defines it
  rcases hcases with ⟨-, hend⟩ | ⟨f, -, -, hend⟩ | ⟨-, -, hend⟩
  · obtain ⟨rfl, -⟩ := Prod.mk.inj (hend.symm.trans hr)
    rcases hunder.globalNames hsteps hafter with hbefore | hdefine
    · exact hglobals p hbefore
    · obtain ⟨-, ⟨heach, -, -, -, -⟩⟩ := Code.within_of_ofProgram
        (N := fun name => name ∈ forms.flatMap Value.boundNames ∨ name = Parameters.dot)
        (.inr rfl) (fun name hn => .inl hn) (fun form hm => (hplain form hm).not_holds) hcode
      rcases heach _ hdefine with hbound | hdot
      · exact hnames p hbound
      · exact p.name_ne_dot hdot
  · cases hend.symm.trans hr
  · cases hend.symm.trans hr

/-- **Sessions compose like the concatenation of programs.**  If two programs of a session succeed,
one after the other, then so does the text of the first with that of the second below it, with the
value of the second, the output of both and the image that the second leaves.

No name of a primitive is bound, by the session or by a form of the two programs; neither a form
nor the code of a function of the session has a closure among its constants; the second program
has a form left after expansion, and the session has no limit of steps. -/
theorem Session.eval_append {s : Session} {settings : Settings} {p q : String} {fuel fuel' : Nat}
    {first second : Session.Answer} {forms rest : List Value} {macros macros' : MacroTable}
    (hs : s.image.Led) (hlimit : s.stepLimit = none)
    (hsealed : ∀ id scope, s.image.arena.get? id = some scope → ∀ v ∈ scope.vars.values, v.Sealed)
    (hglobals : Code.Unbound s.image.arena.globalNames)
    (h : s.eval fuel settings p = .ok first)
    (h' : first.session.eval fuel' settings q = .ok second)
    (he : s.image.expand fuel settings (.ofString p none) = .ok (forms, macros))
    (he' : first.session.image.expand fuel' settings (.ofString q none) = .ok (rest, macros'))
    (hplain : ∀ form ∈ forms ++ rest, form.Plain)
    (hnames : Code.Unbound ((forms ++ rest).flatMap Value.boundNames)) (hrest : rest ≠ [])
    {k : Nat} (hk : fuel + fuel' ≤ k) :
    ∃ joined, s.eval k settings (p ++ "\n" ++ q) = .ok joined ∧
      joined.value.bare = second.value.bare ∧
      joined.machine.output = first.machine.output ++ second.machine.output ∧
      second.session.image.Like joined.session.image ∧
      joined.session.stepLimit = second.session.stepLimit := by
  obtain ⟨⟨harena, hroot⟩, -⟩ := hs.compiled
  obtain ⟨_, _, code, threshold, after, v, he₁, hcode, hthreshold, hr, rfl⟩ :=
    Session.eval_eq_ok.mp h
  cases he₁.symm.trans he
  obtain ⟨_, _, code', threshold', after', v', he₂, hcode', hthreshold', hr', rfl⟩ :=
    Session.eval_eq_ok.mp h'
  cases he₂.symm.trans he'
  cases hthreshold.symm.trans hthreshold'
  rw [hlimit] at hr hr'
  obtain ⟨hplain₁, hplain₂⟩ := List.forall_mem_append.mp hplain
  have hnames₁ : Code.Unbound (forms.flatMap Value.boundNames) := fun primitive hm =>
    hnames primitive (by rw [List.flatMap_append]; exact List.mem_append_left _ hm)
  have hnames₂ : Code.Unbound (rest.flatMap Value.boundNames) := fun primitive hm =>
    hnames primitive (by rw [List.flatMap_append]; exact List.mem_append_right _ hm)
  have hglobals' := Machine.unbound_of_runFor (hs.compiled_of_expand he) hplain₁ hnames₁ hcode
    harena hroot hglobals hr
  -- what the joined text is read, expanded and compiled to
  obtain ⟨forms', rest', table, hexpand, hbare, hbare', htable⟩ :=
    Image.exists_expand_append (k := k) he he' rfl (by omega) (by omega)
  obtain ⟨hcompiled₁, hcompiled₂⟩ := List.forall_mem_append.mp (hs.compiled_of_expand hexpand)
  obtain ⟨code₁, hcode₁, hlike₁⟩ := Code.exists_ofProgram hbare hcode
  obtain ⟨code₂, hcode₂, hlike₂⟩ := Code.exists_ofProgram hbare' hcode'
  have hrest' : rest' ≠ [] := by
    rintro rfl
    exact hrest (List.map_eq_nil_iff.mp hbare'.symm)
  obtain ⟨joined, hjoined, hj⟩ := Code.ofProgram_append hglobals hglobals'
    (Value.flatMap_boundNames_of_map hbare ▸ hnames₁)
    (Value.flatMap_boundNames_of_map hbare' ▸ hnames₂) hrest' hcode₁ hcode₂
  -- the two programs as they are read there, and their runs
  obtain ⟨after₁, v₁, hr₁, hafter₁, -⟩ :=
    (Machine.like_ofProgram hlike₁ (.refl s.image.arena) threshold).runFor rfl (Nat.le_refl fuel) hr
  obtain ⟨after₂, v₂, hr₂, hafter₂, hv⟩ :=
    (Machine.like_ofProgram hlike₂ hafter₁.collectGarbage.arena threshold).runFor rfl
      (Nat.le_refl fuel') hr'
  obtain ⟨final, hrun, houtput, hfinal⟩ := Machine.exists_run_joined hj
    (Code.compiled_of_ofProgram hcompiled₁ hcode₁) (Code.compiled_of_ofProgram hcompiled₂ hcode₂)
    (Code.plain_of_ofProgram (Value.forall_plain_of_map hbare hplain₁) hcode₁)
    (Code.plain_of_ofProgram (Value.forall_plain_of_map hbare' hplain₂) hcode₂) harena hroot hsealed
    hr₁ hr₂ hk
  refine ⟨⟨v₂, final.collectGarbage, { s with image := .ofMachine final table }⟩,
    Session.eval_eq_ok.mpr ⟨_, table, joined, threshold, final, v₂, hexpand, hjoined, hthreshold,
      ?_, rfl⟩, hv, ?_, ⟨hafter₂.collectGarbage.arena.trans hfinal, htable⟩, rfl⟩
  · rw [hlimit]
    exact hrun
  · rw [hafter₁.output, hafter₂.output] at houtput
    exact houtput

/-- A definition and something put out, then a call of what was defined. -/
theorem Session.eval_append_call :
    let s : Session := ⟨.empty, none⟩
    ∃ first second joined, s.eval 8 .unset "(define (f y) y) (display 'a)" = .ok first ∧
      first.session.eval 6 .unset "(f 'b)" = .ok second ∧
      s.eval 14 .unset ("(define (f y) y) (display 'a)" ++ "\n" ++ "(f 'b)") = .ok joined ∧
      joined.value.bare = second.value.bare ∧
      joined.machine.output = first.machine.output ++ second.machine.output ∧
      second.session.image.Like joined.session.image := by
  intro s
  have hsome : ((s.eval 8 .unset "(define (f y) y) (display 'a)").toOption.bind fun a =>
      (a.session.eval 6 .unset "(f 'b)").toOption).isSome = true := by
    decide +kernel
  obtain ⟨second, hsecond⟩ := Option.isSome_iff_exists.mp hsome
  obtain ⟨first, hfirst, hsecond⟩ := Option.bind_eq_some_iff.mp hsecond
  have h := toOption_eq_some.mp hfirst
  have h' := toOption_eq_some.mp hsecond
  have hsealed : ∀ id scope, s.image.arena.get? id = some scope →
      ∀ v ∈ scope.vars.values, v.Sealed := by
    intro id scope hscope v hv
    obtain ⟨rfl, rfl⟩ := Arena.eq_of_get?_ofGlobals hscope
    exact absurd hv List.not_mem_nil
  -- the forms of both texts: no macro is defined, so they are expanded to themselves
  let source := Source.ofString "(define (f y) y) (display 'a)" none
  let source' := Source.ofString "(f 'b)" none
  let definition : Value := .ofList [.symbol "define", .ofList [.symbol "f", .symbol "y"]
    (some (source.locate 8)) .nil, .symbol "y"] (some (source.locate 0)) .nil
  let display : Value :=
    .ofList [.symbol "display", .quoted (.symbol "a")] (some (source.locate 17)) .nil
  let call : Value := .ofList [.symbol "f", .quoted (.symbol "b")] (some (source'.locate 0)) .nil
  have hparse : source.parse = .ok [definition, display] := rfl
  have hparse' : source'.parse = .ok [call] := rfl
  have he : s.image.expand 8 .unset source = .ok ([definition, display], .empty) := by
    refine Image.expand_eq_ok.mpr ⟨_, hparse, ?_⟩
    simp [s, Image.empty, definition, display, Value.ofList, MacroTable.expandProgram,
      MacroTable.expandAll, MacroTable.expandForm, MacroTable.expandBody, MacroTable.expandEach,
      MacroTable.expandUse, MacroTable.startsWithPair, MacroTable.named?, MacroTable.find?,
      MacroTable.empty, Value.symbol?, Value.loc?, Bind.bind, Except.bind]
  have hmacros : first.session.image.macros = .empty := by
    obtain ⟨_, _, _, _, _, _, he₁, _, _, _, rfl⟩ := Session.eval_eq_ok.mp h
    cases he₁.symm.trans he
    rfl
  have he' : first.session.image.expand 6 .unset source' = .ok ([call], .empty) := by
    refine Image.expand_eq_ok.mpr ⟨_, hparse', ?_⟩
    simp [hmacros, call, Value.ofList, MacroTable.expandProgram, MacroTable.expandAll,
      MacroTable.expandForm, MacroTable.expandEach, MacroTable.expandUse, MacroTable.named?,
      MacroTable.find?, MacroTable.empty, Value.symbol?, Bind.bind, Except.bind]
  have hplain : ∀ form ∈ [definition, display] ++ [call], form.Plain :=
    List.forall_mem_append.mpr ⟨Source.forall_of_parse Value.Plain.ofData hparse,
      Source.forall_of_parse Value.Plain.ofData hparse'⟩
  have hnames : Code.Unbound (([definition, display] ++ [call]).flatMap Value.boundNames) := by
    have hbound : ([definition, display] ++ [call]).flatMap Value.boundNames = ["f", "y"] := rfl
    rw [hbound]
    intro primitive
    cases primitive <;> decide +kernel
  obtain ⟨joined, hjoined, hvalue, houtput, himage, -⟩ := Session.eval_append .empty rfl hsealed
    (fun _ hp => absurd hp List.not_mem_nil) h h' he he' hplain hnames (List.cons_ne_nil _ _)
    (Nat.le_refl 14)
  exact ⟨first, second, joined, h, h', hjoined, hvalue, houtput, himage⟩

end StackLisp
