import StackLisp.Proofs.Source

/-!
# The grammar of forms

A program is a row of expressions, and an expression is a word, a text, a quote mark with an
expression behind it, or a row of expressions in parentheses.  `Reader.Derives` says this of
tokens, together with the form that an expression stands for.

**The reader accepts exactly what the grammar derives** (`Source.parse_iff_derives`).  It goes
through the tokens once and knows no rules, only what is pending, so both directions go by that.
The tokens of an expression leave pending what was pending before them, and the last of them
completes the form (`Derives.exists_last`).  Conversely, what is pending stands for tokens that
begin expressions (`Opens`), and a token adds to them or completes an expression (`opens_feed`).
-/

namespace StackLisp

namespace Reader

mutual

/-- **The tokens of an expression and its form.** -/
inductive Derives (source : Source) : List Token → Value → Prop
  | word {t : Token} (ht : t.kind = .word) :
      Derives source [t] (readWord (String.ofList t.chars))
  | text {t : Token} (ht : t.kind = .text) :
      Derives source [t] (.text (String.ofList t.chars.tail.dropLast))
  | quote {t : Token} {ts : List Token} {v : Value} (ht : t.kind = .quote)
      (h : Derives source ts v) : Derives source (t :: ts) (.quoted v)
  | list {t t' : Token} {ts : List Token} {vs : List Value} (ht : t.kind = .opening)
      (ht' : t'.kind = .closing) (h : DerivesEach source ts vs) :
      Derives source (t :: ts ++ [t']) (.ofList vs (some (source.locate t.offset)) .nil)

/-- The tokens of several expressions, one after the other, and their forms. -/
inductive DerivesEach (source : Source) : List Token → List Value → Prop
  | nil : DerivesEach source [] []
  | cons {ts us : List Token} {v : Value} {vs : List Value} (h : Derives source ts v)
      (hs : DerivesEach source us vs) : DerivesEach source (ts ++ us) (v :: vs)

end

section Grammar
variable {source : Source}

theorem DerivesEach.append {ts us : List Token} {vs ws : List Value}
    (h : DerivesEach source ts vs) (h' : DerivesEach source us ws) :
    DerivesEach source (ts ++ us) (vs ++ ws) := by
  induction vs generalizing ts with
  | nil =>
    cases h
    exact h'
  | cons v vs ih =>
    cases h with
    | cons hv hvs =>
      rw [List.append_assoc]
      exact .cons hv (ih hvs)

theorem Derives.each {ts : List Token} {v : Value} (h : Derives source ts v) :
    DerivesEach source ts [v] := by
  simpa using DerivesEach.cons h .nil

/-! ## What is derived is read -/

/-- Tokens that complete no form, and what is pending before and after them. -/
inductive Leads (source : Source) : List Pending → List Token → List Pending → Prop
  | nil (pending : List Pending) : Leads source pending [] pending
  | cons {pending next last : List Pending} {t : Token} {ts : List Token}
      (h : feed source pending t = .more next) (hs : Leads source next ts last) :
      Leads source pending (t :: ts) last

theorem Leads.append {pending next last : List Pending} {ts us : List Token}
    (h : Leads source pending ts next) (h' : Leads source next us last) :
    Leads source pending (ts ++ us) last := by
  induction h with
  | nil _ => exact h'
  | cons hfeed _ ih => exact .cons hfeed (ih h')

/-- A form that completes none around it leaves something pending. -/
theorem ne_nil_of_complete {pending next : List Pending} {v : Value}
    (h : complete pending v = .more next) : next ≠ [] := by
  induction pending generalizing v with
  | nil => cases h
  | cons first pending ih =>
    cases first with
    | quote => exact ih h
    | list offset items =>
      cases h
      exact List.cons_ne_nil _ _

/-- A token that completes no form leaves something pending. -/
theorem ne_nil_of_feed {pending next : List Pending} {t : Token}
    (h : feed source pending t = .more next) : next ≠ [] := by
  unfold feed at h
  split at h
  · exact ne_nil_of_complete h
  · exact ne_nil_of_complete h
  · cases h
    exact List.cons_ne_nil _ _
  · cases h
    exact List.cons_ne_nil _ _
  · split at h
    · cases h
    · cases h
    · exact ne_nil_of_complete h

mutual

/-- **The last token of an expression completes its form**, whatever is pending around it. -/
theorem Derives.exists_last {ts : List Token} {v : Value} (h : Derives source ts v)
    (pending : List Pending) :
    ∃ front last before, ts = front ++ [last] ∧ Leads source pending front before ∧
      feed source before last = complete pending v := by
  match h with
  | .word (t := t) ht => exact ⟨[], t, pending, rfl, .nil _, by simp [feed, ht]⟩
  | .text (t := t) ht => exact ⟨[], t, pending, rfl, .nil _, by simp [feed, ht]⟩
  | .quote (t := t) ht h =>
    obtain ⟨front, last, before, rfl, hleads, hlast⟩ := h.exists_last (.quote :: pending)
    have hfeed : feed source pending t = .more (.quote :: pending) := by simp [feed, ht]
    exact ⟨t :: front, last, before, rfl, .cons hfeed hleads, hlast⟩
  | @Derives.list _ t t' ts vs ht ht' h =>
    have hfeed : feed source pending t = .more (.list t.offset [] :: pending) := by
      simp [feed, ht]
    have hleads := h.leads t.offset [] pending
    refine ⟨t :: ts, t', _, rfl, .cons hfeed hleads, ?_⟩
    simp [feed, ht']

/-- Expressions inside a list add their forms to its items. -/
theorem DerivesEach.leads {ts : List Token} {vs : List Value} (h : DerivesEach source ts vs)
    (offset : Nat) (items : List Value) (pending : List Pending) :
    Leads source (.list offset items :: pending) ts
      (.list offset (vs.reverse ++ items) :: pending) := by
  match h with
  | .nil => exact .nil _
  | @DerivesEach.cons _ ts us v vs h hs =>
    obtain ⟨front, last, before, rfl, hleads, hlast⟩ :=
      h.exists_last (.list offset items :: pending)
    have hfirst : Leads source (.list offset items :: pending) (front ++ [last])
        (.list offset (v :: items) :: pending) := hleads.append (.cons hlast (.nil _))
    have hrest := hs.leads offset (v :: items) pending
    rw [List.reverse_cons, List.append_assoc vs.reverse]
    exact hfirst.append hrest

end

theorem Leads.readAll {pending next : List Pending} {ts : List Token}
    (h : Leads source pending ts next) (unterminated : Option Nat) (forms : List Value)
    (rest : List Token) :
    readAll source unterminated pending forms (ts ++ rest) =
      readAll source unterminated next forms rest := by
  induction h with
  | nil _ => rfl
  | cons hfeed _ ih =>
    rw [List.cons_append, Reader.readAll, hfeed]
    exact ih

theorem Leads.formFrom {pending next : List Pending} {ts : List Token}
    (h : Leads source pending ts next) (rest : List Token) :
    TokenStream.formFrom source pending (ts ++ rest) = TokenStream.formFrom source next rest := by
  induction h with
  | nil _ => rfl
  | cons hfeed _ ih =>
    rw [List.cons_append, TokenStream.formFrom, hfeed]
    exact ih

/-- **Derived forms are read.** -/
theorem DerivesEach.readAll {ts : List Token} {vs : List Value} (h : DerivesEach source ts vs)
    (forms : List Value) : readAll source none [] forms ts = .ok (forms.reverse ++ vs) := by
  induction vs generalizing ts forms with
  | nil =>
    cases h
    simp [Reader.readAll, endError?]
  | cons v vs ih =>
    cases h with
    | cons hv hvs =>
      obtain ⟨front, last, before, rfl, hleads, hlast⟩ := hv.exists_last []
      rw [List.append_assoc, hleads.readAll, List.singleton_append, Reader.readAll, hlast]
      show Reader.readAll source none [] (v :: forms) _ = _
      rw [ih hvs, List.reverse_cons, List.append_assoc]
      rfl

/-- **An expression is read off the front** of the tokens, and the tokens behind it are left. -/
theorem Derives.formFrom {ts : List Token} {v : Value} (h : Derives source ts v)
    (rest : List Token) : TokenStream.formFrom source [] (ts ++ rest) = (.done v, rest) := by
  obtain ⟨front, last, before, rfl, hleads, hlast⟩ := h.exists_last []
  rw [List.append_assoc, hleads.formFrom, List.singleton_append, TokenStream.formFrom, hlast]
  rfl

/-! ## What is read is derived -/

/-- **The tokens that pending things stand for**: quote marks that have nothing to quote yet, and
lists that are still open, with the expressions in them so far. -/
inductive Opens (source : Source) : List Token → List Pending → Prop
  | nothing : Opens source [] []
  | quote {t : Token} {ts : List Token} {pending : List Pending} (h : Opens source ts pending)
      (ht : t.kind = .quote) : Opens source (ts ++ [t]) (.quote :: pending)
  | list {t : Token} {ts us : List Token} {items : List Value} {pending : List Pending}
      (h : Opens source ts pending) (ht : t.kind = .opening)
      (hs : DerivesEach source us items.reverse) :
      Opens source (ts ++ t :: us) (.list t.offset items :: pending)

/-- **The tokens behind a progress**, which is no failure. -/
def Progress.Stands (source : Source) (ts : List Token) : Progress → Prop
  | .more pending => Opens source ts pending
  | .done form => Derives source ts form
  | .failed _ => True

/-- A form that is handed to what is pending. -/
theorem opens_complete {ts us : List Token} {pending : List Pending} {v : Value}
    (h : Opens source ts pending) (hv : Derives source us v) :
    (complete pending v).Stands source (ts ++ us) := by
  induction h generalizing us v with
  | nothing => exact hv
  | @quote t ts pending _ ht ih =>
    have hquoted := ih (.quote ht hv)
    rwa [← List.singleton_append, ← List.append_assoc] at hquoted
  | @list t ts inner items pending h ht hs _ =>
    have hitems : DerivesEach source (inner ++ us) (v :: items).reverse := by
      rw [List.reverse_cons]
      exact hs.append hv.each
    show Opens source (ts ++ t :: inner ++ us) _
    rw [List.append_assoc, List.cons_append]
    exact .list h ht hitems

/-- **A token adds to the tokens that are pending**, or completes an expression. -/
theorem opens_feed {ts : List Token} {pending : List Pending} (h : Opens source ts pending)
    (t : Token) : (feed source pending t).Stands source (ts ++ [t]) := by
  unfold feed
  split
  · rename_i ht
    exact opens_complete h (.word ht)
  · rename_i ht
    exact opens_complete h (.text ht)
  · rename_i ht
    exact .quote h ht
  · rename_i ht
    exact .list h ht .nil
  · rename_i ht
    cases h with
    | nothing => trivial
    | quote _ _ => trivial
    | @list t' ts inner items outer h ht' hs =>
      have hlist := opens_complete h (.list ht' ht hs)
      rwa [List.cons_append, ← List.cons_append, ← List.append_assoc] at hlist

/-- **The forms that are read are derived.**  `before` are the tokens of the forms so far, and `ts`
those of what is pending. -/
theorem derivesEach_of_readAll {before ts rest : List Token} {pending : List Pending}
    {forms vs : List Value} (hf : DerivesEach source before forms.reverse)
    (hp : Opens source ts pending) (h : readAll source none pending forms rest = .ok vs) :
    DerivesEach source (before ++ ts ++ rest) vs := by
  induction rest generalizing before ts pending forms with
  | nil =>
    obtain ⟨rfl, rfl⟩ := of_readAll_nil h
    cases hp
    simpa using hf
  | cons t rest ih =>
    -- What the token makes of the pending things says where it belongs in the grammar.
    have hstands := opens_feed hp t
    rw [readAll] at h
    generalize feed source pending t = progress at h hstands
    cases progress with
    | more next =>
      have hrest := ih hf hstands h
      simpa using hrest
    | done form =>
      have hforms : DerivesEach source (before ++ (ts ++ [t])) (form :: forms).reverse := by
        rw [List.reverse_cons]
        exact hf.append (Derives.each hstands)
      have hrest := ih hforms .nothing h
      simpa using hrest
    | failed e => cases h

end Grammar

end Reader

/-! ## Sources and streams -/

/-- **The forms of a source are those that its tokens derive**, if the tokens have an end. -/
theorem Source.parse_eq_ok {source : Source} {forms : List Value} :
    source.parse = .ok forms ↔ source.lex.unterminated = none ∧
      Reader.DerivesEach source source.lex.tokens forms := by
  constructor
  · intro h
    have hnone := Reader.unterminated_of_readAll h
    simp only [Source.parse, hnone] at h
    exact ⟨hnone, by simpa using Reader.derivesEach_of_readAll .nil .nothing h⟩
  · rintro ⟨hnone, h⟩
    simpa [Source.parse, hnone] using h.readAll []

namespace TokenStream
variable {stream : TokenStream}

/-- The stream after its next token has been looked at a number of times. -/
def peeked : Nat → TokenStream → TokenStream
  | 0, stream => stream
  | k + 1, stream => peeked k stream.peek.2

/-- Looking at a token that is there changes nothing. -/
theorem peeked_of_ne_nil (h : stream.tokens ≠ []) (k : Nat) : stream.peeked k = stream := by
  obtain ⟨t, ts, ht⟩ := List.exists_cons_of_ne_nil h
  have hpeek : stream.peek.2 = stream := by simp [peek, ht]
  induction k with
  | zero => rfl
  | succ k ih => rw [peeked, hpeek, ih]

/-- **A stream gives the form of the expression at its front**, and keeps the tokens behind it. -/
theorem form_of_derives {ts rest : List Token} {v : Value} (ht : stream.tokens = ts ++ rest)
    (h : Reader.Derives stream.source ts v) :
    stream.form = (.ok (some v), { stream with tokens := rest }) := by
  rw [form, ht, h.formFrom]

/-- Tokens that complete no form leave something pending. -/
theorem ne_nil_of_formFrom {source : Source} {pending next : List Reader.Pending}
    {ts rest : List Token} (hne : pending ≠ [] ∨ ts ≠ [])
    (h : formFrom source pending ts = (.more next, rest)) : next ≠ [] ∧ rest = [] := by
  induction ts generalizing pending with
  | nil =>
    obtain ⟨rfl, rfl⟩ : pending = next ∧ [] = rest := by simpa [formFrom] using h
    exact ⟨hne.resolve_right (· rfl), rfl⟩
  | cons t ts ih =>
    rw [formFrom] at h
    cases hfeed : Reader.feed source pending t with
    | more after =>
      rw [hfeed] at h
      exact ih (.inl (Reader.ne_nil_of_feed hfeed)) h
    | done form => simp [hfeed] at h
    | failed e => simp [hfeed] at h

/-- **Only the end of the tokens gives no form**: inside an expression it is an error. -/
theorem form_eq_none :
    stream.form.1 = .ok none ↔ stream.tokens = [] ∧ stream.unterminated = none := by
  constructor
  · intro h
    rw [form] at h
    split at h
    · cases h
    · cases h
    · rename_i pending rest hfrom
      cases hu : stream.unterminated with
      | some offset => simp [atEnd, hu] at h
      | none =>
        refine ⟨Classical.byContradiction fun hne => ?_, rfl⟩
        obtain ⟨hpending, rfl⟩ := ne_nil_of_formFrom (.inr hne) hfrom
        cases he : Reader.endError? stream.source pending with
        | some e => simp [atEnd, hu, he] at h
        | none => exact hpending (Reader.endError?_eq_none.mp he)
  · rintro ⟨ht, hu⟩
    simp [form, ht, formFrom, atEnd, hu, Reader.endError?]

/-! ### Form by form -/

/-- **What a stream gives** when it is asked for its next form again and again: the forms up to the
end of the source, or the first error. -/
inductive Gives : TokenStream → Except ReadError (List Value) → Prop
  | nothing {stream : TokenStream} (h : stream.form.1 = .ok none) : Gives stream (.ok [])
  | error {stream : TokenStream} {e : ReadError} (h : stream.form.1 = .error e) :
      Gives stream (.error e)
  | form {stream next : TokenStream} {v : Value} {vs : Except ReadError (List Value)}
      (h : stream.form = (.ok (some v), next)) (hs : Gives next vs) :
      Gives stream (vs.map (v :: ·))

/-- What all forms are read from, after the tokens of the next one. -/
theorem readAll_eq_formFrom (source : Source) (unterminated : Option Nat)
    (pending : List Reader.Pending) (forms : List Value) (ts : List Token) :
    Reader.readAll source unterminated pending forms ts =
      match formFrom source pending ts with
      | (.more next, _) => Reader.readAll source unterminated next forms []
      | (.done form, rest) => Reader.readAll source unterminated [] (form :: forms) rest
      | (.failed e, _) => .error e := by
  induction ts generalizing pending with
  | nil => rfl
  | cons t ts ih =>
    rw [Reader.readAll, formFrom]
    cases Reader.feed source pending t with
    | more next => exact ih next
    | done form => rfl
    | failed e => rfl

/-- A form takes tokens. -/
theorem length_lt_of_formFrom {source : Source} {pending : List Reader.Pending} {v : Value}
    {ts rest : List Token} (h : formFrom source pending ts = (.done v, rest)) :
    rest.length < ts.length := by
  induction ts generalizing pending with
  | nil => cases h
  | cons t ts ih =>
    rw [formFrom] at h
    split at h
    · exact Nat.lt_succ_of_lt (ih h)
    · cases h
      exact Nat.lt_succ_self _
    · cases h

/-- **The forms of a stream that are read at once** are its next form and those behind it. -/
theorem gives_readAll (stream : TokenStream) :
    stream.Gives (Reader.readAll stream.source stream.unterminated [] [] stream.tokens) := by
  obtain ⟨source, tokens, unterminated⟩ := stream
  -- The induction is on the number of tokens, of which a form takes some.
  induction hn : tokens.length using Nat.strong_induction_on generalizing tokens with
  | _ n ih =>
    subst hn
    show Gives ⟨source, tokens, unterminated⟩
      (Reader.readAll source unterminated [] [] tokens)
    rw [readAll_eq_formFrom]
    rcases hform : formFrom source [] tokens with ⟨next | v | e, rest⟩
    · cases hu : unterminated with
      | some offset => exact .error (by simp [form, hform, atEnd])
      | none =>
        cases he : Reader.endError? source next with
        | some e =>
          have herror : form ⟨source, tokens, none⟩ = (.error e, ⟨source, rest, none⟩) := by
            simp [form, hform, atEnd, he]
          simpa [Reader.readAll, he] using Gives.error (congrArg Prod.fst herror)
        | none =>
          have hnone : form ⟨source, tokens, none⟩ = (.ok none, ⟨source, rest, none⟩) := by
            simp [form, hform, atEnd, he]
          simpa [Reader.readAll, he] using Gives.nothing (congrArg Prod.fst hnone)
    · have hv : form ⟨source, tokens, unterminated⟩ =
          (.ok (some v), ⟨source, rest, unterminated⟩) := by
        simp [form, hform]
      have hrest := ih _ (length_lt_of_formFrom hform) rest rfl
      have hfront := Reader.readAll_front source unterminated [] [] [v] rest
      rw [List.nil_append] at hfront
      simp only [hfront]
      exact .form hv hrest
    · exact .error (by simp [form, hform])

/-- A stream gives one thing only. -/
theorem Gives.unique {stream : TokenStream} {vs ws : Except ReadError (List Value)}
    (h : stream.Gives vs) (h' : stream.Gives ws) : vs = ws := by
  induction h generalizing ws with
  | nothing h =>
    cases h' with
    | nothing _ => rfl
    | error h' => cases h.symm.trans h'
    | form h' _ => simp [h'] at h
  | error h =>
    cases h' with
    | nothing h' => cases h.symm.trans h'
    | error h' => rw [Except.error.inj (h.symm.trans h')]
    | form h' _ => simp [h'] at h
  | form h _ ih =>
    cases h' with
    | nothing h' => simp [h] at h'
    | error h' => simp [h] at h'
    | form h' hs' =>
      obtain ⟨hv, rfl⟩ := Prod.mk.inj (h.symm.trans h')
      rw [ih hs', Option.some.inj (Except.ok.inj hv)]

end TokenStream

/-- **A source is read by repeating its stream's next form** until it gives none or an error. -/
theorem Source.parse_eq_iff_gives {source : Source} {vs : Except ReadError (List Value)} :
    source.parse = vs ↔ (TokenStream.ofSource source).Gives vs := by
  have hgives : (TokenStream.ofSource source).Gives source.parse :=
    TokenStream.gives_readAll (.ofSource source)
  exact ⟨fun h => h ▸ hgives, fun h => hgives.unique h⟩

/-- **The reader accepts exactly its grammar.**  A source has forms if and only if no text in it
lacks its end and its tokens are those of expressions, and the forms are then the ones that the
grammar derives; in every other case there is an error.  A stream whose tokens begin with those of
an expression gives its form and keeps exactly the tokens behind it, no matter how often the next
token was looked at before.  That there is no form is said only at the end of the tokens, never
within one. -/
theorem Source.parse_iff_derives (source : Source) :
    (∀ forms, source.parse = .ok forms ↔ source.lex.unterminated = none ∧
      Reader.DerivesEach source source.lex.tokens forms) ∧
    ((¬ ∃ forms, source.lex.unterminated = none ∧
      Reader.DerivesEach source source.lex.tokens forms) → ∃ e, source.parse = .error e) ∧
    (∀ (stream : TokenStream) (ts rest : List Token) (v : Value), stream.tokens = ts ++ rest →
      Reader.Derives stream.source ts v → ∀ k,
        (stream.peeked k).form = (.ok (some v), { stream with tokens := rest })) ∧
    ∀ stream : TokenStream,
      stream.form.1 = .ok none ↔ stream.tokens = [] ∧ stream.unterminated = none := by
  refine ⟨fun forms => Source.parse_eq_ok, fun h => ?_, fun stream ts rest v ht hv k => ?_,
    fun stream => TokenStream.form_eq_none⟩
  · cases hp : source.parse with
    | error e => exact ⟨e, rfl⟩
    | ok forms => exact absurd ⟨forms, Source.parse_eq_ok.mp hp⟩ h
  · have hne : stream.tokens ≠ [] := by
      obtain ⟨front, last, -, rfl, -⟩ := hv.exists_last []
      simp [ht]
    rw [TokenStream.peeked_of_ne_nil hne]
    exact TokenStream.form_of_derives ht hv

/-- The first form of `'(a) b`, after two looks at the quote mark. -/
theorem Source.parse_iff_derives_quoted :
    let source : Source := ⟨['\'', '(', 'a', ')', ' ', 'b'], none⟩
    let list : Value := .ofList [.symbol "a"] (some ⟨1, 2, none⟩) .nil
    source.lex.unterminated = none ∧ source.parse = .ok [.quoted list, .symbol "b"] ∧
      ((TokenStream.ofSource source).peeked 2).form =
        (.ok (some (.quoted list)), ⟨source, [⟨.word, ['b'], 5⟩], none⟩) := by
  intro source list
  have hword : ∀ c offset, Reader.Derives source [⟨.word, [c], offset⟩]
      (readWord (String.ofList [c])) := fun c offset => .word rfl
  have hquoted : Reader.Derives source [⟨.quote, ['\''], 0⟩, ⟨.opening, ['('], 1⟩,
      ⟨.word, ['a'], 2⟩, ⟨.closing, [')'], 3⟩] (.quoted list) :=
    .quote rfl (.list rfl rfl (.cons (hword 'a' 2) .nil))
  have hb : Reader.Derives source [⟨.word, ['b'], 5⟩] (.symbol "b") := hword 'b' 5
  obtain ⟨hparse, -, hform, -⟩ := Source.parse_iff_derives source
  refine ⟨rfl, (hparse _).mpr ⟨rfl, ?_⟩, ?_⟩
  · exact .cons hquoted (.cons hb .nil)
  · exact hform (TokenStream.ofSource source) _ [⟨.word, ['b'], 5⟩] _ rfl hquoted 2

end StackLisp
