import StackLisp.Proofs.Session.Concatenation

/-!
# Layout cannot be observed

A source is laid out in some way: with blanks, line ends and comments between its tokens, in a file
of some name.  All that is kept of this are locations, in pairs and in macros, and nothing that a
program does depends on them.  So **two sources with the same tokens do the same**
(`Image.layout_unobservable`): in images that are the same up to locations, both are refused with
errors of one kind and wording, or both become machines that stay twins however they are run.

The proof follows a source on its way: tokens are read (`Source.parse_matches`), forms are expanded
(`MacroTable.expandProgram_matches`), with machines of their own for the bodies of macros, what is
left is compiled (`Code.ofProgram_like`), and the code is run (`Machine.Twin.step`).
-/

namespace StackLisp

/-! ## What an error says -/

namespace Error

/-- The kinds of errors. -/
inductive Kind where
  | read
  | compile
  /-- A fault of the given kind. -/
  | fault (kind : Fault.Kind)
  | setting
  | preludeOutput
  | noPreludePath
  | outOfFuel
  deriving DecidableEq, Repr

/-- The kind of an error. -/
def kind : Error → Kind
  | read _ _ => .read
  | compile _ => .compile
  | fault f => .fault f.kind
  | setting _ => .setting
  | preludeOutput _ => .preludeOutput
  | noPreludePath => .noPreludePath
  | outOfFuel => .outOfFuel

/-- What an error says, without the place that it is about. -/
def wording : Error → String
  | read _ e => e.reason.message
  | compile e => e.cause.message
  | e => e.message

/-- How the place that an error is about is put in front. -/
def place : Error → String
  | read source e => (source.locate e.offset).text ++ ": "
  | compile e => (match e.loc with
    | some loc => loc.text
    | none => "unknown") ++ ": "
  | _ => ""

/-- **The text of an error** is its wording, after the place. -/
theorem message_eq (e : Error) : e.message = e.place ++ e.wording := by
  cases e with
  | read source e => rfl
  | compile e => rfl
  | _ => exact String.empty_append.symm

theorem kind_bare (e : Error) : e.bare.kind = e.kind := by
  cases e with
  | fault f => exact congrArg Kind.fault f.kind_bare
  | _ => rfl

theorem wording_bare (e : Error) : e.bare.wording = e.wording := by
  cases e with
  | compile e => exact e.cause.message_bare
  | fault f => exact f.message_bare
  | _ => rfl

end Error

/-! ## Sources in images -/

/-- **Outcomes that a host cannot tell apart**, up to the locations in a value. -/
def Outcome.Like : Outcome → Outcome → Prop
  | .value v, .value w => w.bare = v.bare
  | .fault f, .fault g => g.kind = f.kind ∧ g.message = f.message
  | .running, .running => True
  | _, _ => False

theorem Outcome.like_of_bare {out out' : Outcome} (h : out'.bare = out.bare) : out.Like out' := by
  cases out with
  | value v =>
    obtain ⟨w, rfl, hw⟩ := Outcome.exists_value h
    exact hw
  | fault f =>
    obtain ⟨g, rfl, hg⟩ := Outcome.exists_fault h
    exact ⟨Fault.kind_of_bare hg, Fault.message_of_bare hg⟩
  | running =>
    obtain rfl := Outcome.eq_running_of_bare h
    trivial

section Prepare
variable {i j : Image} {s s' : Source} {fuel : Nat} {settings : Settings}

/-- **Sources with the same tokens become twins**, in images that are the same up to locations. -/
theorem Image.prepare_matches (h : i.Like j) (hs : s.lex.unterminated = none)
    (hs' : s'.lex.unterminated = none)
    (ht : s'.lex.tokens.map Token.bare = s.lex.tokens.map Token.bare) :
    Matches (Upto Error.bare) (fun p q => p.macros.Like q.macros ∧ p.machine.Twin q.machine)
      (i.prepare fuel settings s) (j.prepare fuel settings s') := by
  unfold Image.prepare
  refine Matches.bind (R := Upto (List.map Value.bare)) ?_ fun forms forms' hforms => ?_
  · exact (Source.parse_matches hs hs' ht).mapError fun e e' he =>
      congrArg (fun reason => Error.read ⟨[], none⟩ ⟨reason, 0⟩) he
  refine (MacroTable.expandProgram_matches h.macros hforms).bind ?_
  rintro ⟨vs, t⟩ ⟨vs', t'⟩ ⟨hvs, hmacros⟩
  rw [h.arena.globalNames]
  refine Matches.bind (R := Upto bareCode) ?_ fun code code' hcode => ?_
  · exact (Code.ofProgram_like _ hvs).mapError fun e e' he => congrArg Error.compile he
  refine (Matches.refl _).bind fun threshold _ hk => ?_
  subst hk
  exact .ok ⟨hmacros, (Machine.like_ofProgram hcode h.arena threshold).twin rfl⟩

/-- **Layout and locations cannot be observed.**  Two sources with the same tokens, in files of any
names and in images that are the same up to locations, are refused with errors of one kind and
wording, or have the same macros and machines up to locations.  Any number of steps and any run
then lead to machines that are the same again, with the same output, the same number of steps
and the same scopes, and fail alike.

The fuel is the same for both.  If it is too little for the one, it is too little for the other,
so one expansion comes to an end if the other does. -/
theorem Image.layout_unobservable (h : i.Like j) (hs : s.lex.unterminated = none)
    (hs' : s'.lex.unterminated = none)
    (ht : s'.lex.tokens.map Token.bare = s.lex.tokens.map Token.bare) :
    Matches (fun e e' => e'.kind = e.kind ∧ e'.wording = e.wording)
      (fun p q => p.macros.Like q.macros ∧ p.machine.Twin q.machine ∧
        (∀ n, (p.machine.stepTimes n).1.Twin (q.machine.stepTimes n).1 ∧
          (q.machine.stepTimes n).2.map (fun f => (f.kind, f.message)) =
            (p.machine.stepTimes n).2.map (fun f => (f.kind, f.message))) ∧
        ∀ n limit, (p.machine.run n limit).1.Twin (q.machine.run n limit).1 ∧
          (p.machine.run n limit).2.Like (q.machine.run n limit).2)
      (i.prepare fuel settings s) (j.prepare fuel settings s') := by
  have shown : ∀ {f g : Option Fault}, g.map Fault.bare = f.map Fault.bare →
      g.map (fun f => (f.kind, f.message)) = f.map fun f => (f.kind, f.message) := by
    intro f g hf
    have hshown := congrArg (Option.map fun f => (f.kind, f.message)) hf
    simpa only [Option.map_map, Function.comp_def, Fault.kind_bare, Fault.message_bare] using hshown
  refine (Image.prepare_matches h hs hs' ht).mono (fun e e' he => ⟨?_, ?_⟩) fun p q hpq => ?_
  · rw [← e'.kind_bare, he, e.kind_bare]
  · rw [← e'.wording_bare, he, e.wording_bare]
  · obtain ⟨hmacros, htwin⟩ := hpq
    refine ⟨hmacros, htwin, fun n => ?_, fun n limit => ?_⟩
    · obtain ⟨hafter, hfault⟩ := htwin.stepTimes n
      exact ⟨hafter, shown hfault⟩
    · obtain ⟨hafter, hout⟩ := htwin.run n limit
      exact ⟨hafter, Outcome.like_of_bare hout⟩

/-- A macro and its use, on one line and on three with a comment between them. -/
theorem Image.layout_unobservable_lines :
    let s := Source.ofString "(defmacro (m x) x) (display (m 'a))" none
    let s' := Source.ofString "(defmacro (m x)\n  x) ; same\n( display (m ' a ))" (some "a.lisp")
    ∃ p q, Image.empty.prepare 9 .unset s = .ok p ∧ Image.empty.prepare 9 .unset s' = .ok q ∧
      (p.machine.run 9 none).1.Twin (q.machine.run 9 none).1 := by
  intro s s'
  have hsome : (Image.empty.prepare 9 .unset s).toOption.isSome = true := by decide +kernel
  obtain ⟨p, hp⟩ := Option.isSome_iff_exists.mp hsome
  have hp := toOption_eq_some.mp hp
  have hempty : Image.empty.Like Image.empty := ⟨.refl _, rfl⟩
  have hs : s.lex.unterminated = none := by decide +kernel
  have hs' : s'.lex.unterminated = none := by decide +kernel
  have ht : s'.lex.tokens.map Token.bare = s.lex.tokens.map Token.bare := by decide +kernel
  obtain ⟨q, hq, -, -, -, hrun⟩ := (Image.layout_unobservable hempty hs hs' ht).exists_ok hp
  exact ⟨p, q, hp, hq, (hrun 9 none).1⟩

end Prepare

end StackLisp
