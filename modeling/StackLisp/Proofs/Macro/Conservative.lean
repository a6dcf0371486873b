import StackLisp.Proofs.Grammar
import StackLisp.Proofs.Macro.Normal
import StackLisp.Proofs.Macro.Relocation

/-!
# Programs that use no macros

Expansion makes every list anew, so it is not plain that it leaves a program alone that has nothing
to expand.  **It does, and no location is lost** (`MacroTable.expansion_conservative`).

Two things come together.  A form in which no macro is used is normal and shows nothing, so its
expansion is the form made anew (`MacroTable.exists_rebuilt`).  And the reader gives one location to
all pairs of a list (`Reader.Derives.asRead`), which is what the expander does too.
-/

namespace StackLisp

/-! ## Locations from the reader -/

theorem Value.asRead_ofList {items : List Value} {loc : Option Location}
    (h : ∀ item ∈ items, item.AsRead) : (ofList items loc .nil).AsRead := by
  induction items with
  | nil => exact .atom rfl
  | cons item items ih =>
    obtain ⟨hitem, hitems⟩ := List.forall_mem_cons.mp h
    refine .pair hitem (ih hitems) fun hp => ?_
    cases items with
    | nil => cases hp
    | cons _ _ => rfl

theorem asRead_readWord (word : String) : (readWord word).AsRead := by
  unfold readWord
  split
  · exact .atom rfl
  · split
    · exact .atom rfl
    · split <;> exact .atom rfl

namespace Reader
variable {source : Source}

mutual

/-- **What the reader makes of an expression** has its locations as the reader gives them. -/
theorem Derives.asRead {ts : List Token} {v : Value} : Derives source ts v → v.AsRead
  | .word _ => asRead_readWord _
  | .text _ => .atom rfl
  | .quote _ _ => .atom rfl
  | .list _ _ h => Value.asRead_ofList h.asRead

theorem DerivesEach.asRead {ts : List Token} {vs : List Value} :
    DerivesEach source ts vs → ∀ v ∈ vs, v.AsRead
  | .nil => fun _ hv => absurd hv List.not_mem_nil
  | .cons h hs => List.forall_mem_cons.mpr ⟨h.asRead, hs.asRead⟩

end

end Reader

/-! ## Lists that are evaluated element by element -/

/-- All elements of a list are evaluated, unless it is a quotation, a function or the definition of
a function. -/
theorem Value.evaluatedElements_call {head tail : Value} {loc : Option Location}
    (hq : head.symbol? ≠ some "quote")
    (hl : head.symbol? = some "lambda" → MacroTable.isPair tail = false)
    (hd : head.symbol? = some "define" → MacroTable.startsWithPair tail = false) :
    (Value.pair head tail loc).evaluatedElements = head :: tail.elements := by
  simp only [evaluatedElements]
  split
  · rename_i hh
    exact absurd hh hq
  · rename_i hh
    cases hl hh
  · rename_i hh
    cases hd hh
  · rfl

/-! ## Locations do not matter -/

namespace Value

theorem evaluatedElements_bare (v : Value) :
    v.bare.evaluatedElements = v.evaluatedElements.map bare := by
  cases v with
  | pair head tail loc =>
    by_cases hq : head.symbol? = some "quote"
    · obtain rfl := Code.eq_symbol_of_symbol? hq
      rfl
    by_cases hl : head.symbol? = some "lambda" ∧ MacroTable.isPair tail = true
    · obtain rfl := Code.eq_symbol_of_symbol? hl.1
      obtain ⟨params, body, loc', rfl⟩ := MacroTable.exists_of_isPair hl.2
      exact elements_bare body
    by_cases hd : head.symbol? = some "define" ∧ MacroTable.startsWithPair tail = true
    · obtain rfl := Code.eq_symbol_of_symbol? hd.1
      obtain ⟨name, params, loc', body, loc'', rfl⟩ := MacroTable.exists_of_startsWithPair hd.2
      exact elements_bare body
    simp only [not_and, Bool.not_eq_true] at hl hd
    rw [bare, evaluatedElements_call hq hl hd, evaluatedElements_call (by simpa) (by simpa)
      (by simpa), List.map_cons, elements_bare]
  | _ => rfl

theorem Evaluates.bare {v part : Value} (h : v.Evaluates part) : v.bare.Evaluates part.bare := by
  induction h with
  | self form => exact .self _
  | part he _ ih => exact .part (evaluatedElements_bare _ ▸ List.mem_map_of_mem he) ih

/-- What is evaluated in the value without its locations is what is evaluated in the value. -/
theorem Evaluates.of_bare {v part : Value} (h : v.bare.Evaluates part) :
    ∃ part', v.Evaluates part' ∧ part'.bare = part := by
  generalize hw : v.bare = w at h
  induction h generalizing v with
  | self form => exact ⟨v, .self v, hw⟩
  | @part form element part he _ ih =>
    subst hw
    rw [evaluatedElements_bare] at he
    obtain ⟨element', he', rfl⟩ := List.mem_map.mp he
    obtain ⟨part', hp, hb⟩ := ih rfl
    exact ⟨part', .part he' hp, hb⟩

end Value

namespace MacroTable

/-- **No macro is used in a form**, and no expansion is asked for: no list that is evaluated in it
starts with the name of a macro or with `macroexpand`. -/
def Unused (t : MacroTable) (form : Value) : Prop :=
  ∀ head tail loc, form.Evaluates (.pair head tail loc) →
    t.named? head = none ∧ head ≠ .symbol "macroexpand"

section
variable {t : MacroTable} {use : Use} {m : Macro} {args : List Value} {head tail : Value}
  {loc : Option Location}

namespace Unused

theorem atom {v : Value} (h : isPair v = false) : t.Unused v := by
  intro head tail loc he
  cases he with
  | self => cases h
  | part he _ =>
    have hmem := Value.mem_elements_of_mem_evaluatedElements he
    rw [elements_of_not_isPair h] at hmem
    exact absurd hmem List.not_mem_nil

/-- Where the form was read does not matter. -/
theorem of_bare {form v : Value} (h : t.Unused form) (hb : v.bare = form.bare) : t.Unused v := by
  intro head tail loc he
  have he' : form.bare.Evaluates (Value.pair head tail loc).bare := hb ▸ he.bare
  obtain ⟨part, hp, hpart⟩ := he'.of_bare
  obtain ⟨head', tail', loc', rfl, hhead, -⟩ := Value.exists_pair hpart
  obtain ⟨hm, hs⟩ := h head' tail' loc' hp
  refine ⟨(named?_of_bare hhead).symm.trans hm, fun hh => hs ?_⟩
  subst hh
  exact Value.eq_symbol_of_bare hhead

theorem element {form v : Value} (h : t.Unused form) (hv : v ∈ form.evaluatedElements) :
    t.Unused v :=
  fun _ _ _ he => h _ _ _ (.part hv he)

theorem list (hm : t.named? head = none) (hs : head ≠ .symbol "macroexpand")
    (h : ∀ v ∈ (Value.pair head tail loc).evaluatedElements, t.Unused v) :
    t.Unused (.pair head tail loc) := by
  intro head' tail' loc' he
  rcases Value.evaluates_iff.mp he with heq | ⟨v, hv, he⟩
  · cases heq
    exact ⟨hm, hs⟩
  · exact h v hv _ _ _ he

/-- In a list that is evaluated element by element, no macro is used in an element. -/
theorem call (h : t.Unused (.pair head tail loc)) (hq : head.symbol? ≠ some "quote")
    (hl : head.symbol? = some "lambda" → isPair tail = false)
    (hd : head.symbol? = some "define" → startsWithPair tail = false) :
    t.Unused head ∧ ∀ v ∈ tail.elements, t.Unused v := by
  have he : (Value.pair head tail loc).evaluatedElements = head :: tail.elements :=
    Value.evaluatedElements_call hq hl hd
  rw [← List.forall_mem_cons, ← he]
  exact fun v hv => h.element hv

/-- In a list that starts like a call, no macro is used in an element. -/
theorem elements (h : t.Unused (.pair head tail loc))
    (hh : ∀ name ∈ specialNames, head.symbol? ≠ some name) :
    t.Unused head ∧ ∀ v ∈ tail.elements, t.Unused v :=
  h.call (hh _ (by simp [specialNames])) (fun hl => absurd hl (hh _ (by simp [specialNames])))
    fun hd => absurd hd (hh _ (by simp [specialNames]))

theorem showsNothing {form : Value} (h : t.Unused form) : ShowsNothing form :=
  fun _ _ he => (h _ _ _ he).2 rfl

/-- **A form in which no macro is used is normal.** -/
theorem normal {form : Value} (h : t.Unused form) : t.Normal form := by
  -- The elements that are evaluated are not all parts of the pair itself, but all are smaller.
  induction hs : sizeOf form using Nat.strongRecOn generalizing form with
  | ind size ih =>
  cases form with
  | pair head tail loc =>
    have helements : ∀ v ∈ (Value.pair head tail loc).evaluatedElements, t.Normal v := by
      intro v hv
      have hlt := Code.sizeOf_lt_of_mem_elements (Value.mem_elements_of_mem_evaluatedElements hv)
      exact ih _ (hs ▸ hlt) (h.element hv) rfl
    simp only [Value.evaluatedElements] at helements
    split at helements
    · rename_i hh
      obtain rfl := Code.eq_symbol_of_symbol? hh
      exact .quotation _ _
    · rename_i hh
      obtain rfl := Code.eq_symbol_of_symbol? hh
      exact .function helements
    · rename_i hh
      obtain rfl := Code.eq_symbol_of_symbol? hh
      exact .definition helements
    · exact .list (h _ _ _ (.self _)).1 helements
  | _ => exact .atom rfl

/-- **A form in which no macro is used is made anew by its expansion**, whatever macros do. -/
theorem rebuilt {form : Value} (h : t.Unused form) :
    ∃ v, t.expandForm use form = .ok v ∧ form.Rebuilt v :=
  exists_rebuilt h.normal h.showsNothing

end Unused

mutual

/-- **Where no macro is used, the expander asks for no use.** -/
theorem Unused.no_use {form : Value} :
    t.Uses use m args loc form → t.Unused form → False
  | .shown hh _ _, h => by
    obtain rfl := Code.eq_symbol_of_symbol? hh
    exact (h _ _ _ (.self _)).2 rfl
  | .lambdaBody hh hb, h => by
    obtain rfl := Code.eq_symbol_of_symbol? hh
    exact Unused.no_use_each hb fun v hv => h.element hv
  | .defineBody hh hp hb, h => by
    obtain rfl := Code.eq_symbol_of_symbol? hh
    obtain ⟨_, _, _, _, _, heq⟩ := exists_of_startsWithPair hp
    cases heq
    exact Unused.no_use_each hb fun v hv => h.element hv
  | .defineEach hh hp hb, h =>
    Unused.no_use_each hb (h.call (by simp [hh]) (by simp [hh]) fun _ => hp).2
  | .lambdaUse _ _ hm _, h | .defineUse _ _ _ hm _, h => by
    cases (h _ _ _ (.self _)).1.symm.trans hm
  | .head hh hu, h => Unused.no_use hu (h.elements hh).1
  | .each hh _ hb, h => Unused.no_use_each hb (h.elements hh).2
  | .use hh he _ hm _, h => by
    -- The head may be a form, but its expansion names nothing that the form does not name.
    obtain ⟨v, hv, hr⟩ := (h.elements hh).1.rebuilt
    cases he.symm.trans hv
    cases (h _ _ _ (.self _)).1.symm.trans ((named?_of_bare hr.bare).symm.trans hm)

theorem Unused.no_use_each {list : Value} :
    t.UsesEach use m args loc list → (∀ v ∈ list.elements, t.Unused v) → False
  | .head hu, h => Unused.no_use hu (h _ List.mem_cons_self)
  | .tail _ hb, h => Unused.no_use_each hb fun v hv => h v (List.mem_cons_of_mem _ hv)

end

/-- The elements of a list are made anew if no macro is used in them, whatever macros do. -/
theorem exists_expandEach_of_unused (loc : Option Location) (list : Value)
    (h : ∀ v ∈ list.elements, t.Unused v) :
    ∃ list', list'.bare = list.bare ∧ ∀ use, t.expandEach use loc list = .ok list' := by
  let fails : Use := fun _ _ _ => .error .outOfFuel
  have hrebuilt : ∀ v ∈ list.elements, ∃ v', t.expandForm fails v = .ok v' ∧ v.Rebuilt v' :=
    fun v hv => (h v hv).rebuilt
  obtain ⟨list', hlist, hb, -⟩ := exists_expandEach loc list hrebuilt
  refine ⟨list', hb, fun use => ?_⟩
  have hany : Value.Composed fun _ => True := ⟨by simp, by simp⟩
  refine (expandEach_same (E := fun _ => True) hany (fun _ => trivial) loc list trivial
    fun m _ args loc' hu _ => ?_).eq.trans hlist
  exact (Unused.no_use_each hu h).elim

/-- A program in which no macro is used or defined is expanded to itself. -/
theorem expandProgram_of_unused {settings : Settings} {fuel : Nat} {forms : List Value}
    (hr : ∀ form ∈ forms, form.AsRead) (hd : ∀ form ∈ forms, isDefinition form = false)
    (hu : ∀ form ∈ forms, t.Unused form) :
    expandProgram settings (fuel + 1) t forms = .ok (forms, t) := by
  induction forms with
  | nil => rfl
  | cons form forms ih =>
    obtain ⟨hform, hforms⟩ := List.forall_mem_cons.mp hr
    obtain ⟨hdform, hdforms⟩ := List.forall_mem_cons.mp hd
    obtain ⟨huform, huforms⟩ := List.forall_mem_cons.mp hu
    obtain ⟨v, hv, hrebuilt⟩ := huform.rebuilt
    obtain rfl := hrebuilt.eq hform
    rw [expandProgram_form _ _ _ hdform, expandAll, hv, ih hforms hdforms huforms]
    rfl

/-- **Expansion leaves a program alone that uses no macros and defines none**, whatever is in the
table.  The forms keep all their locations, the table is as it was, and no macro is run: the
expander asks for no use, whatever it were given for one. -/
theorem expansion_conservative {source : Source} {forms : List Value}
    (h : source.parse = .ok forms)
    (hd : ∀ form ∈ forms, ∀ tail loc, form ≠ .pair (.symbol "defmacro") tail loc)
    (hu : ∀ form ∈ forms, t.Unused form) :
    (∀ settings fuel, expandProgram settings (fuel + 1) t forms = .ok (forms, t)) ∧
    ∀ form ∈ forms, ∀ use, t.expandForm use form = .ok form ∧
      ∀ m args loc, ¬ t.Uses use m args loc form := by
  have hr : ∀ form ∈ forms, form.AsRead := (Source.parse_eq_ok.mp h).2.asRead
  refine ⟨fun settings fuel => expandProgram_of_unused hr
    (fun form hm => isDefinition_eq_false (hd form hm)) hu, fun form hm use => ?_⟩
  obtain ⟨v, hv, hrebuilt⟩ := (hu form hm).rebuilt
  obtain rfl := hrebuilt.eq (hr _ hm)
  exact ⟨hv, fun m args loc hus => Unused.no_use hus (hu _ hm)⟩

/-- A macro's name is the name of a function here, and stands in quoted data. -/
theorem expansion_conservative_quoted :
    let t : MacroTable := ⟨[⟨"m", ⟨[], none⟩, [.pushConst .nil, .ret], none⟩]⟩
    let source : Source := .ofString "(define (m)\n  (f '(m) (quote (m))))" none
    ∃ forms, source.parse = .ok forms ∧ forms.length = 1 ∧
      ∀ settings fuel, expandProgram settings (fuel + 1) t forms = .ok (forms, t) := by
  intro t source
  let place (line : Nat) (column : Int) : Option Location := some ⟨line, column, none⟩
  let named (loc : Option Location) : Value := .pair (.symbol "m") .nil loc
  let call : Value := .ofList [.symbol "f", .quoted (named (place 2 7)),
    .ofList [.symbol "quote", named (place 2 18)] (place 2 11) .nil] (place 2 3) .nil
  have h : source.parse =
      .ok [.ofList [.symbol "define", named (place 1 9), call] (place 1 1) .nil] := rfl
  refine ⟨_, h, rfl, (expansion_conservative (t := t) h ?_ ?_).1⟩
  · simp [Value.ofList]
  · have hcall : t.Unused call := by
      refine .list rfl (by simp) fun v hv => ?_
      have hv : v ∈ [.symbol "f", .quoted (named (place 2 7)),
        .ofList [.symbol "quote", named (place 2 18)] (place 2 11) .nil] := hv
      simp only [List.mem_cons, List.not_mem_nil, or_false] at hv
      obtain rfl | rfl | rfl := hv
      · exact .atom rfl
      · exact .atom rfl
      · exact .list rfl (by simp) fun v hv => absurd hv List.not_mem_nil
    refine List.forall_mem_singleton.mpr (.list rfl (by simp) fun v hv => ?_)
    obtain rfl : v = call := List.mem_singleton.mp hv
    exact hcall

end

end MacroTable

end StackLisp
