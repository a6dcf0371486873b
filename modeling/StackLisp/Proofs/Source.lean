import Mathlib.Data.List.Forall2
import StackLisp.Proofs.Token
import StackLisp.Proofs.Value.Bare

/-!
# Sources, one after the other

After a newline the lexer is between tokens, unless it is inside a text, and after all tokens of a
source the reader is between forms.  So **a source and, on the next line, a second one are
read as the forms of the first followed by those of the second** (`Source.parse_below`), which
stand as many lines further down as the first source has.

What the reader makes of tokens depends on their offsets in two places only: in the locations of
lists and in errors.  So tokens at other offsets, in another source, are read alike
(`Reader.readAll_alike`), whatever relation there is between the offsets, and between the values
and errors that come of it.  Three such relations are used: the first source stays where it is
(`Source.reads_front`), the second is moved (`Source.reads_below`), and sources with the same
tokens may have them anywhere (`Reader.reads_bare`).
-/

namespace StackLisp

/-! ## Locations -/

namespace Location

/-- The location a number of lines further down. -/
def down (lines : Nat) (l : Location) : Location :=
  { l with line := l.line + lines }

theorem next_down (lines : Nat) (l : Location) (c : Char) :
    (l.down lines).next c = (l.next c).down lines := by
  unfold next down
  split
  · simp [Nat.add_right_comm]
  · rfl

theorem foldl_next_down (lines : Nat) (l : Location) (cs : List Char) :
    cs.foldl next (l.down lines) = (cs.foldl next l).down lines := by
  induction cs generalizing l with
  | nil => rfl
  | cons c cs ih => rw [List.foldl_cons, List.foldl_cons, next_down, ih]

theorem foldl_next_file (l : Location) (cs : List Char) : (cs.foldl next l).file = l.file := by
  induction cs generalizing l with
  | nil => rfl
  | cons c cs ih =>
    rw [List.foldl_cons, ih, next]
    split <;> rfl

/-- Only newlines lead to further lines. -/
theorem foldl_next_line (l : Location) (cs : List Char) :
    (cs.foldl next l).line = l.line + cs.count '\n' := by
  induction cs generalizing l with
  | nil => rfl
  | cons c cs ih =>
    rw [List.foldl_cons, ih, List.count_cons, next]
    by_cases hc : c = '\n'
    · simp [hc, Nat.add_assoc, Nat.add_comm 1]
    · simp [hc]

end Location

/-- The value with all its lists a number of lines further down. -/
def Value.down (lines : Nat) : Value → Value
  | .quoted v => .quoted (v.down lines)
  | .pair head tail loc => .pair (head.down lines) (tail.down lines) (loc.map (Location.down lines))
  | v => v

namespace Value

theorem down_ofList (lines : Nat) (items : List Value) (loc : Option Location) :
    (ofList items loc .nil).down lines =
      ofList (items.map (down lines)) (loc.map (Location.down lines)) .nil := by
  induction items with
  | nil => rfl
  | cons item items ih =>
    exact congrArg (pair (item.down lines) · (loc.map (Location.down lines))) ih

@[simp] theorem bare_down (lines : Nat) (v : Value) : (v.down lines).bare = v.bare := by
  match v with
  | .quoted v => exact congrArg quoted (bare_down lines v)
  | .pair head tail _ => simp only [down, bare, bare_down lines head, bare_down lines tail]
  | .nil | .bool _ | .number _ | .text _ | .symbol _ | .template _ _ | .closure _ _ _ => rfl

theorem readWord_down (lines : Nat) (word : String) :
    (readWord word).down lines = readWord word := by
  unfold readWord
  split
  · rfl
  · split
    · rfl
    · split <;> rfl

end Value

namespace Source
variable (cs ds : List Char) (file : Option String)

theorem charsBefore_natCast (source : Source) (offset : Nat) :
    source.charsBefore offset = min offset source.chars.length := by
  have hnat : ¬ ((offset : Int) < 0) := by omega
  rw [charsBefore, if_neg hnat]
  rfl

/-- What comes after an offset does not change its location. -/
theorem locate_of_le {offset : Nat} (h : offset ≤ cs.length) :
    (Source.mk (cs ++ ds) file).locate offset = (Source.mk cs file).locate offset := by
  have hlong : offset ≤ (cs ++ ds).length := by simp; omega
  simp only [locate, charsBefore_natCast, Nat.min_eq_left h, Nat.min_eq_left hlong,
    List.take_append_of_le_length h, start]

/-- **Below a source and its newline, locations are as many lines further down**, in the same
columns. -/
theorem locate_below (offset : Nat) :
    (Source.mk (cs ++ '\n' :: ds) file).locate (offset + (cs.length + 1) : Nat) =
      ((Source.mk ds file).locate offset).down (cs.count '\n' + 1) := by
  have hbefore : min (offset + (cs.length + 1)) (cs ++ '\n' :: ds).length =
      cs.length + (min offset ds.length + 1) := by simp; omega
  have hstart : (cs.foldl Location.next ⟨1, 1, file⟩).next '\n' =
      (Location.mk 1 1 file).down (cs.count '\n' + 1) := by
    have hline := Location.foldl_next_line ⟨1, 1, file⟩ cs
    have hfile := Location.foldl_next_file ⟨1, 1, file⟩ cs
    simp only [Location.next, if_true, Location.down, hline, hfile, Nat.add_assoc]
  have hwalk : ((cs ++ '\n' :: ds).take (cs.length + (min offset ds.length + 1))).foldl
      Location.next ⟨1, 1, file⟩ =
      ((ds.take (min offset ds.length)).foldl Location.next ⟨1, 1, file⟩).down
        (cs.count '\n' + 1) := by
    rw [List.take_length_add_append, List.take_succ_cons, List.foldl_append, List.foldl_cons,
      hstart, Location.foldl_next_down]
  simp only [locate, charsBefore_natCast, hbefore, start, hwalk]
  simp only [Location.down]
  congr 1
  omega

end Source

/-! ## Tokens -/

/-- The token without the offset it starts at. -/
def Token.bare (t : Token) : Token :=
  { t with offset := 0 }

/-- The token a number of characters further on. -/
def Token.moved (n : Nat) (t : Token) : Token :=
  { t with offset := t.offset + n }

namespace Lexer

/-- The mode, with what it has begun a number of characters further on. -/
def Mode.moved (n : Nat) : Mode → Mode
  | between => between
  | comment => comment
  | text start seen => text (start + n) seen
  | word start seen => word (start + n) seen

theorem enter_moved (n offset : Nat) (c : Char) :
    enter (offset + n) c =
      ((enter offset c).1.map (Token.moved n), (enter offset c).2.moved n) := by
  unfold enter
  repeat' split
  all_goals rfl

/-- **What a character does** is the same further on. -/
theorem Mode.read_moved (n : Nat) (mode : Mode) (offset : Nat) (c : Char) :
    (mode.moved n).read (offset + n) c =
      ((mode.read offset c).1.map (Token.moved n), (mode.read offset c).2.moved n) := by
  cases mode with
  | between => exact enter_moved n offset c
  | comment =>
    simp only [moved, read]
    split <;> rfl
  | text start seen =>
    simp only [moved, read]
    split <;> rfl
  | word start seen =>
    simp only [moved, read, enter_moved]
    split
    · rfl
    · simp [Token.moved]

/-- **A lexer that is a number of characters further on** than another one, and has found more
before. -/
structure State.Ahead (n : Nat) (old : List Token) (s s' : State) : Prop where
  offset : s'.offset = s.offset + n
  mode : s'.mode = s.mode.moved n
  found : s'.found = s.found.map (Token.moved n) ++ old

namespace State.Ahead
variable {n : Nat} {old : List Token} {s s' : State}

theorem read (h : s.Ahead n old s') (c : Char) : (s.read c).Ahead n old (s'.read c) := by
  have hread := Mode.read_moved n s.mode s.offset c
  rw [← h.mode, ← h.offset] at hread
  refine ⟨?_, congrArg Prod.snd hread, ?_⟩
  · simp only [State.read, h.offset, Nat.add_right_comm]
  · simp only [State.read, hread, h.found, List.map_append, List.append_assoc]

theorem scan (h : s.Ahead n old s') (cs : List Char) : (s.scan cs).Ahead n old (s'.scan cs) := by
  induction cs generalizing s s' with
  | nil => exact h
  | cons c cs ih => exact ih (h.read c)

theorem finish (h : s.Ahead n old s') :
    s'.finish.tokens = old.reverse ++ s.finish.tokens.map (Token.moved n) ∧
      s'.finish.unterminated = s.finish.unterminated.map (· + n) := by
  obtain ⟨-, hmode, hfound⟩ := h
  unfold State.finish
  cases hm : s.mode <;> rw [hm] at hmode <;> simp [hmode, hfound, Mode.moved, Token.moved]

end State.Ahead

/-- **A newline ends what has been begun**, except a text. -/
theorem State.read_newline {s : State} (h : s.finish.unterminated = none) :
    s.read '\n' = ⟨s.offset + 1, .between, s.finish.tokens.reverse⟩ := by
  have hblank : Text.isBlank '\n' = true := by decide
  have henter : enter s.offset '\n' = ([], .between) := by simp [enter, hblank]
  unfold State.finish at h ⊢
  unfold State.read
  cases hm : s.mode with
  | between => simp [Mode.read, henter]
  | comment => simp [Mode.read]
  | text start seen => simp [hm] at h
  | word start seen => simp [Mode.read, isWordChar, hblank, henter]

theorem State.offset_scan (s : State) (cs : List Char) :
    (s.scan cs).offset = s.offset + cs.length := by
  induction cs generalizing s with
  | nil => rfl
  | cons c cs ih =>
    show ((s.read c).scan cs).offset = _
    rw [ih, List.length_cons, Nat.add_comm cs.length, ← Nat.add_assoc]
    rfl

end Lexer

section
variable {cs : List Char} {file : Option String}

/-- **The tokens of a source and, on the next line, a second one.** -/
theorem Source.lex_append (h : (Source.mk cs file).lex.unterminated = none) (ds : List Char) :
    (Source.mk (cs ++ '\n' :: ds) file).lex.tokens = (Source.mk cs file).lex.tokens ++
        (Source.mk ds file).lex.tokens.map (Token.moved (cs.length + 1)) ∧
    (Source.mk (cs ++ '\n' :: ds) file).lex.unterminated =
      (Source.mk ds file).lex.unterminated.map (· + (cs.length + 1)) := by
  simp only [Source.lex] at h ⊢
  rw [Lexer.State.scan_append]
  have hline : (Lexer.State.initial.scan cs).scan ('\n' :: ds) =
      ((Lexer.State.initial.scan cs).read '\n').scan ds := rfl
  rw [hline, Lexer.State.read_newline h, Lexer.State.offset_scan]
  have hstart : Lexer.State.initial.Ahead (cs.length + 1)
      (Lexer.State.initial.scan cs).finish.tokens.reverse
      ⟨Lexer.State.initial.offset + cs.length + 1, .between,
        (Lexer.State.initial.scan cs).finish.tokens.reverse⟩ :=
    ⟨Nat.add_assoc _ _ _, rfl, rfl⟩
  have hend := (hstart.scan ds).finish
  rwa [List.reverse_reverse] at hend

/-- Tokens start inside their source. -/
theorem Source.offset_lt {source : Source} {t : Token} (ht : t ∈ source.lex.tokens) :
    t.offset < source.chars.length := by
  obtain ⟨-, hdrop, hwritten, -⟩ := source.lex_divides.mem rfl t ht
  by_contra hle
  rw [List.drop_eq_nil_of_le (Nat.le_of_not_lt hle)] at hdrop
  exact hwritten.ne_nil (List.append_eq_nil_iff.mp hdrop.symm).1

end

/-! ## Forms -/

namespace Reader

/-- **Two sources that are read alike.**  Offsets in them are related by `A`, values that are made
at related offsets by `R`, and errors there by `E`. -/
structure Reads (source source' : Source) (R : Value → Value → Prop) (A : Nat → Nat → Prop)
    (E : ReadError → ReadError → Prop) : Prop where
  word : ∀ w, R (readWord w) (readWord w)
  text : ∀ s, R (.text s) (.text s)
  quoted : ∀ {v w}, R v w → R (.quoted v) (.quoted w)
  list : ∀ {offset offset' items items'}, A offset offset' → List.Forall₂ R items items' →
    R (.ofList items (some (source.locate offset)) .nil)
      (.ofList items' (some (source'.locate offset')) .nil)
  error : ∀ {offset offset'} reason, A offset offset' → E ⟨reason, offset⟩ ⟨reason, offset'⟩
  atEnd : E ⟨.nothingQuoted, source.chars.length⟩ ⟨.nothingQuoted, source'.chars.length⟩

/-- Tokens of one kind with the same characters, at related offsets. -/
structure SameToken (A : Nat → Nat → Prop) (t t' : Token) : Prop where
  kind : t'.kind = t.kind
  chars : t'.chars = t.chars
  offset : A t.offset t'.offset

/-- Pending things of one kind, at related offsets and with related items. -/
inductive Pending.Alike (R : Value → Value → Prop) (A : Nat → Nat → Prop) : Pending → Pending → Prop
  | quote : Alike R A .quote .quote
  | list {offset offset' : Nat} {items items' : List Value} (ha : A offset offset')
      (hi : List.Forall₂ R items items') : Alike R A (.list offset items) (.list offset' items')

/-- What two readers have after a token. -/
inductive Progress.Alike (R : Value → Value → Prop) (A : Nat → Nat → Prop)
    (E : ReadError → ReadError → Prop) : Progress → Progress → Prop
  | more {pending pending' : List Pending} (h : List.Forall₂ (Pending.Alike R A) pending pending') :
      Alike R A E (.more pending) (.more pending')
  | done {form form' : Value} (h : R form form') : Alike R A E (.done form) (.done form')
  | failed {e e' : ReadError} (h : E e e') : Alike R A E (.failed e) (.failed e')

section Reads
variable {source source' : Source} {R : Value → Value → Prop} {A : Nat → Nat → Prop}
  {E : ReadError → ReadError → Prop} {pending pending' : List Pending}

theorem complete_alike (h : Reads source source' R A E) {form form' : Value}
    (hp : List.Forall₂ (Pending.Alike R A) pending pending') (hf : R form form') :
    Progress.Alike R A E (complete pending form) (complete pending' form') := by
  induction hp generalizing form form' with
  | nil => exact .done hf
  | cons hfirst hrest ih =>
    cases hfirst with
    | quote => exact ih (h.quoted hf)
    | list ha hi => exact .more (.cons (.list ha (.cons hf hi)) hrest)

/-- **What a token does**, wherever it stands. -/
theorem feed_alike (h : Reads source source' R A E) {t t' : Token}
    (hp : List.Forall₂ (Pending.Alike R A) pending pending') (ht : SameToken A t t') :
    Progress.Alike R A E (feed source pending t) (feed source' pending' t') := by
  unfold feed
  rw [ht.kind, ht.chars]
  split
  · exact complete_alike h hp (h.word _)
  · exact complete_alike h hp (h.text _)
  · exact .more (.cons .quote hp)
  · exact .more (.cons (.list ht.offset .nil) hp)
  · cases hp with
    | nil => exact .failed (h.error _ ht.offset)
    | cons hfirst hrest =>
      cases hfirst with
      | quote => exact .failed (h.error _ ht.offset)
      | list ha hi => exact complete_alike h hrest (h.list ha (List.rel_reverse hi))

/-- What is wrong at the end of the tokens. -/
theorem endError?_alike (h : Reads source source' R A E)
    (hp : List.Forall₂ (Pending.Alike R A) pending pending') :
    Option.Rel E (endError? source pending) (endError? source' pending') := by
  cases hp with
  | nil => exact .none
  | cons hfirst _ =>
    cases hfirst with
    | quote => exact .some h.atEnd
    | list ha _ => exact .some (h.error _ ha)

/-- **Tokens are read alike**, wherever they stand. -/
theorem readAll_alike (h : Reads source source' R A E) {u u' : Option Nat}
    {forms forms' : List Value} {tokens tokens' : List Token} (hu : Option.Rel A u u')
    (hp : List.Forall₂ (Pending.Alike R A) pending pending') (hf : List.Forall₂ R forms forms')
    (ht : List.Forall₂ (SameToken A) tokens tokens') :
    Matches E (List.Forall₂ R) (readAll source u pending forms tokens)
      (readAll source' u' pending' forms' tokens') := by
  induction ht generalizing pending pending' forms forms' with
  | nil =>
    cases hu with
    | some ha => exact .error (h.error _ ha)
    | none =>
      have hend := endError?_alike h hp
      simp only [readAll]
      generalize endError? source pending = e at hend
      generalize endError? source' pending' = e' at hend
      cases hend with
      | some he => exact .error he
      | none => exact .ok (List.rel_reverse hf)
  | cons ht hts ih =>
    have hfeed := feed_alike h hp ht
    rw [readAll, readAll]
    generalize feed source pending _ = progress at hfeed
    generalize feed source' pending' _ = progress' at hfeed
    cases hfeed with
    | more hp => exact ih hp hf
    | done hform => exact ih .nil (.cons hform hf)
    | failed he => exact .error he

end Reads

/-- At the end of the tokens nothing may be pending. -/
theorem endError?_eq_none {source : Source} {pending : List Pending} :
    endError? source pending = none ↔ pending = [] := by
  cases pending with
  | nil => simp [endError?]
  | cons first _ => cases first <;> simp [endError?]

/-- **Where the tokens end, the forms are those read so far**, and nothing is pending. -/
theorem of_readAll_nil {source : Source} {pending : List Pending} {forms vs : List Value}
    (h : readAll source none pending forms [] = .ok vs) : pending = [] ∧ forms.reverse = vs := by
  cases he : endError? source pending with
  | some e => simp [readAll, he] at h
  | none => exact ⟨endError?_eq_none.mp he, by simpa [readAll, he] using h⟩

/-- **Where the tokens of some forms end, the next form begins.** -/
theorem readAll_append {source : Source} {pending : List Pending} {forms vs : List Value}
    {tokens : List Token} (h : readAll source none pending forms tokens = .ok vs)
    (unterminated : Option Nat) (rest : List Token) :
    readAll source unterminated pending forms (tokens ++ rest) =
      readAll source unterminated [] vs.reverse rest := by
  induction tokens generalizing pending forms with
  | nil =>
    obtain ⟨rfl, rfl⟩ := of_readAll_nil h
    rw [List.reverse_reverse, List.nil_append]
  | cons t tokens ih =>
    rw [List.cons_append]
    rw [readAll] at h ⊢
    generalize feed source pending t = progress at h ⊢
    cases progress with
    | more pending => exact ih h
    | done form => exact ih h
    | failed e => cases h

/-- What has been read before stays in front. -/
theorem readAll_front (source : Source) (unterminated : Option Nat) (pending : List Pending)
    (forms front : List Value) (tokens : List Token) :
    readAll source unterminated pending (forms ++ front) tokens =
      (readAll source unterminated pending forms tokens).map (front.reverse ++ ·) := by
  induction tokens generalizing pending forms with
  | nil =>
    unfold readAll
    split <;> simp [Except.map]
  | cons t tokens ih =>
    rw [readAll, readAll]
    cases feed source pending t with
    | more pending => exact ih pending forms
    | done form => exact ih [] (form :: forms)
    | failed e => rfl

/-- A text without its end is an error. -/
theorem unterminated_of_readAll {source : Source} {unterminated : Option Nat}
    {pending : List Pending} {forms vs : List Value} {tokens : List Token}
    (h : readAll source unterminated pending forms tokens = .ok vs) : unterminated = none := by
  induction tokens generalizing pending forms with
  | nil =>
    cases unterminated with
    | none => rfl
    | some offset => simp [readAll] at h
  | cons t tokens ih =>
    rw [readAll] at h
    split at h
    · exact ih h
    · exact ih h
    · cases h

theorem forall₂_upto {α β : Type} {f : α → β} {as bs : List α} :
    List.Forall₂ (Upto f) as bs ↔ bs.map f = as.map f := by
  constructor
  · intro h
    induction h with
    | nil => rfl
    | cons hab _ ih => rw [List.map_cons, List.map_cons, hab, ih]
  · intro h
    rw [← List.forall₂_eq_eq_eq, List.forall₂_map_left_iff, List.forall₂_map_right_iff] at h
    exact h.flip

/-- **Two sources are read alike up to locations.** -/
theorem reads_bare (source source' : Source) :
    Reads source source' (Upto Value.bare) (fun _ _ => True) (Upto ReadError.reason) where
  word _ := rfl
  text _ := rfl
  quoted h := congrArg Value.quoted h
  list _ h := by
    show Value.bare _ = Value.bare _
    rw [Value.bare_ofList, Value.bare_ofList, forall₂_upto.mp h]
  error _ _ := rfl
  atEnd := rfl

end Reader

/-- **Sources with the same tokens** have the same forms up to locations, or cannot be read for the
same reason. -/
theorem Source.parse_matches {source source' : Source} (h : source.lex.unterminated = none)
    (h' : source'.lex.unterminated = none)
    (ht : source'.lex.tokens.map Token.bare = source.lex.tokens.map Token.bare) :
    Matches (Upto ReadError.reason) (Upto (List.map Value.bare)) source.parse source'.parse := by
  have htokens : List.Forall₂ (Reader.SameToken fun _ _ => True) source.lex.tokens
      source'.lex.tokens := by
    refine (Reader.forall₂_upto.mpr ht).imp fun t t' ht => ?_
    simp only [Upto, Token.bare, Token.mk.injEq] at ht
    exact ⟨ht.1, ht.2.1, trivial⟩
  have hread := Reader.readAll_alike (Reader.reads_bare source source') .none .nil .nil htokens
  simp only [Source.parse, h, h']
  exact hread.mono (fun _ _ he => he) fun _ _ hv => Reader.forall₂_upto.mp hv

section
variable {cs ds : List Char} {file : Option String}

/-- **What comes after a source does not change how it is read.** -/
theorem Source.reads_front (cs ds : List Char) (file : Option String) :
    Reader.Reads ⟨cs, file⟩ ⟨cs ++ ds, file⟩ Eq (fun o o' => o' = o ∧ o ≤ cs.length)
      (Upto ReadError.reason) where
  word _ := rfl
  text _ := rfl
  quoted h := congrArg Value.quoted h
  list := by
    rintro offset _ items items' ⟨rfl, hle⟩ hi
    rw [List.forall₂_eq_eq_eq] at hi
    rw [hi, locate_of_le _ _ _ hle]
  error _ _ := rfl
  atEnd := rfl

/-- **Below another source, a source is read as the same forms further down.** -/
theorem Source.reads_below (cs ds : List Char) (file : Option String) :
    Reader.Reads ⟨ds, file⟩ ⟨cs ++ '\n' :: ds, file⟩
      (fun v w => v.down (cs.count '\n' + 1) = w) (fun o o' => o' = o + (cs.length + 1))
      (fun e e' => e' = ⟨e.reason, e.offset + (cs.length + 1)⟩) where
  word := Value.readWord_down _
  text _ := rfl
  quoted h := congrArg Value.quoted h
  list := by
    rintro offset _ items items' rfl hi
    rw [← List.forall₂_map_left_iff, List.forall₂_eq_eq_eq] at hi
    rw [Value.down_ofList, hi, Option.map_some, ← locate_below]
  error := by
    rintro offset _ reason rfl
    rfl
  atEnd := by simp [Nat.add_comm ds.length]; omega

/-- **A source and, on the next line, a second one**, which may fail. -/
theorem Source.parse_below {forms : List Value} (h : (Source.mk cs file).parse = .ok forms)
    (ds : List Char) :
    Matches (fun e e' => e' = ⟨e.reason, e.offset + (cs.length + 1)⟩)
      (fun rest all => all = forms ++ rest.map (Value.down (cs.count '\n' + 1)))
      (Source.mk ds file).parse (Source.mk (cs ++ '\n' :: ds) file).parse := by
  have hnone := Reader.unterminated_of_readAll h
  obtain ⟨htokens, hend⟩ := lex_append hnone ds
  simp only [Source.parse, hnone] at h
  simp only [Source.parse, htokens, hend]
  -- The tokens of the first source are where they were, and so are its lists.
  have hfront : List.Forall₂ (Reader.SameToken fun o o' => o' = o ∧ o ≤ cs.length)
      (Source.mk cs file).lex.tokens (Source.mk cs file).lex.tokens :=
    List.forall₂_same.mpr fun t ht => ⟨rfl, rfl, rfl, Nat.le_of_lt (offset_lt ht)⟩
  obtain ⟨forms', hforms, heq⟩ := (Reader.readAll_alike (reads_front cs ('\n' :: ds) file) .none
    .nil .nil hfront).exists_ok h
  rw [List.forall₂_eq_eq_eq] at heq
  subst heq
  -- Those of the second are read from where the reader is between forms again.
  have hbelow : List.Forall₂ (Reader.SameToken fun o o' => o' = o + (cs.length + 1))
      (Source.mk ds file).lex.tokens
      ((Source.mk ds file).lex.tokens.map (Token.moved (cs.length + 1))) :=
    List.forall₂_map_right_iff.mpr (List.forall₂_same.mpr fun t _ => ⟨rfl, rfl, rfl⟩)
  have hopen : Option.Rel (fun o o' => o' = o + (cs.length + 1))
      (Source.mk ds file).lex.unterminated
      ((Source.mk ds file).lex.unterminated.map (· + (cs.length + 1))) := by
    cases (Source.mk ds file).lex.unterminated with
    | none => exact .none
    | some offset => exact .some rfl
  have hrest := Reader.readAll_alike (reads_below cs ds file) hopen .nil .nil hbelow
  rw [Reader.readAll_append hforms]
  have hfront := Reader.readAll_front (Source.mk (cs ++ '\n' :: ds) file)
    ((Source.mk ds file).lex.unterminated.map (· + (cs.length + 1))) [] [] forms.reverse
    ((Source.mk ds file).lex.tokens.map (Token.moved (cs.length + 1)))
  rw [List.nil_append, List.reverse_reverse] at hfront
  rw [hfront]
  refine hrest.map_right fun rest all hv => ?_
  rw [← List.forall₂_map_left_iff, List.forall₂_eq_eq_eq] at hv
  rw [hv]

/-- The two sources are read one after the other, up to locations. -/
theorem Source.exists_parse_append {forms rest : List Value}
    (h : (Source.mk cs file).parse = .ok forms) (h' : (Source.mk ds file).parse = .ok rest) :
    ∃ forms' rest', (Source.mk (cs ++ '\n' :: ds) file).parse = .ok (forms' ++ rest') ∧
      forms'.map Value.bare = forms.map Value.bare ∧
      rest'.map Value.bare = rest.map Value.bare := by
  obtain ⟨all, hall, rfl⟩ := (Source.parse_below h ds).exists_ok h'
  refine ⟨forms, _, hall, rfl, ?_⟩
  rw [List.map_map]
  exact List.map_congr_left fun v _ => Value.bare_down _ v

/-- **Sources one after the other are programs one after the other.**  If a source can be read, then
it can be read with a second one on the next line if and only if the second one can be read by
itself.  Its forms come first, and keep their locations; behind them come those of the second
source, all their lists as many lines further down as the first source has, in the same columns.
If the second source cannot be read, then the two cannot, for the same reason and with the same
characters unread, at a place that is as many lines further down. -/
theorem Source.parse_append {forms : List Value} (h : (Source.mk cs file).parse = .ok forms)
    (ds : List Char) :
    let second : Source := ⟨ds, file⟩
    let both : Source := ⟨cs ++ '\n' :: ds, file⟩
    let lines := cs.count '\n' + 1
    ((∃ all, both.parse = .ok all) ↔ ∃ rest, second.parse = .ok rest) ∧
    (∀ rest, second.parse = .ok rest →
      both.parse = .ok (forms ++ rest.map (Value.down lines))) ∧
    ∀ e, second.parse = .error e → ∃ e', both.parse = .error e' ∧
      e'.reason.message = e.reason.message ∧
      both.remainder e'.offset = second.remainder e.offset ∧
      both.locate e'.offset = (second.locate e.offset).down lines := by
  intro second both lines
  have hboth := Source.parse_below h ds
  have hok : ∀ rest, second.parse = .ok rest →
      both.parse = .ok (forms ++ rest.map (Value.down lines)) := by
    intro rest hrest
    obtain ⟨all, hall, rfl⟩ := hboth.exists_ok hrest
    exact hall
  refine ⟨⟨fun ⟨all, hall⟩ => ?_, fun ⟨rest, hrest⟩ => ⟨_, hok rest hrest⟩⟩, hok, fun e he => ?_⟩
  · cases hs : second.parse with
    | ok rest => exact ⟨rest, rfl⟩
    | error e =>
      obtain ⟨e', he', -⟩ := hboth.exists_error hs
      exact absurd (he'.symm.trans hall) nofun
  · obtain ⟨e', he', rfl⟩ := hboth.exists_error he
    refine ⟨_, he', rfl, ?_, locate_below cs ds file e.offset⟩
    simp only [remainder, both, second]
    rw [Nat.add_comm, List.append_cons, ← List.drop_drop, List.drop_left' (by simp)]

/-- A list with a comment on the next line, in front of another list and of a parenthesis that
closes nothing. -/
theorem Source.parse_append_lists :
    let source (cs : List Char) : Source := ⟨cs, none⟩
    let list (name : String) (line : Nat) (column : Int) : Value :=
      .ofList [.symbol name] (some ⟨line, column, none⟩) .nil
    let front := ['(', 'a', ')', '\n', ';', '"']
    (source front).parse = .ok [list "a" 1 1] ∧
      (source (front ++ '\n' :: [' ', '(', 'b', ')'])).parse = .ok [list "a" 1 1, list "b" 3 2] ∧
      ∃ e, (source (front ++ '\n' :: ['b', ')'])).parse = .error e ∧
        e.reason = .strayClosing ∧
        (source (front ++ '\n' :: ['b', ')'])).locate e.offset = ⟨3, 2, none⟩ := by
  intro source list front
  have hfront : (source front).parse = .ok [list "a" 1 1] := rfl
  have hlist : (source [' ', '(', 'b', ')']).parse = .ok [list "b" 1 2] := rfl
  have hstray : (source ['b', ')']).parse = .error ⟨.strayClosing, 1⟩ := rfl
  obtain ⟨-, hok, -⟩ := Source.parse_append hfront [' ', '(', 'b', ')']
  obtain ⟨-, -, herror⟩ := Source.parse_append hfront ['b', ')']
  obtain ⟨e, he, hmessage, -, hlocate⟩ := herror _ hstray
  refine ⟨hfront, hok _ hlist, e, he, ?_, hlocate⟩
  cases hreason : e.reason <;> rw [hreason] at hmessage <;> simp [ReadReason.message] at hmessage ⊢

end

end StackLisp
