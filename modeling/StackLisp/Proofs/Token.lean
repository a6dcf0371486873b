import Mathlib.Data.List.TakeWhile
import StackLisp.Form

/-!
# How a source is divided into tokens

The lexer goes through a source once and keeps a mode.  What it makes of the source can be said
without modes: a source is **divided** (`Lexer.Divides`) into blanks, comments and tokens, each of
them as long as it can be, and perhaps a text at the end that is never closed.

**The lexer divides every source** (`Source.lex_divides`): from between two tokens, the first
character says what begins, and the lexer stays in the mode for it as long as its characters last
(`Lexer.State.scan_within`).  All that one wants to know of the tokens is read off the division,
by induction on it: nothing but blanks and comments is left out, and what cannot be divided any
further is a text without its closing quote mark.
-/

namespace StackLisp

/-- The offset behind a token. -/
def Token.stop (t : Token) : Nat :=
  t.offset + t.chars.length

namespace Lexer

/-! ## What one character begins and ends -/

/-- The lexer is neither in a comment nor in a text. -/
def Mode.Open : Mode → Prop
  | between | word _ _ => True
  | comment | text _ _ => False

theorem State.unterminated_of_open {s : State} (h : s.mode.Open) :
    s.finish.unterminated = none := by
  unfold State.finish
  split
  · rfl
  · rfl
  · rename_i hmode
    exact absurd h (by simp [hmode, Mode.Open])
  · rfl

/-- **A character that cannot stand in a word ends what has been begun.** -/
theorem State.read_delimiter {s : State} (h : s.mode.Open) {c : Char}
    (hc : isWordChar c = false) :
    s.read c = State.read ⟨s.offset, .between, s.finish.tokens.reverse⟩ c := by
  unfold State.finish State.read
  cases hm : s.mode with
  | between => simp [Mode.read]
  | word start seen => simp [Mode.read, hc]
  | comment => exact absurd h (by simp [hm, Mode.Open])
  | text start seen => exact absurd h (by simp [hm, Mode.Open])

/-- **Between tokens every character begins something.**  What is not blank and begins no comment, no
text and no token of its own may always stand in a word, so no character is left with which the
lexer could do nothing. -/
theorem enter_eq_word {offset : Nat} {c : Char} :
    enter offset c = ([], .word offset [c]) ↔ isWordChar c = true ∧ c ≠ '\'' := by
  unfold enter isWordChar
  split_ifs <;> simp_all

theorem State.read_blank {c : Char} (hc : Text.isBlank c = true) (offset : Nat)
    (found : List Token) :
    State.read ⟨offset, .between, found⟩ c = ⟨offset + 1, .between, found⟩ := by
  simp [State.read, Mode.read, enter, hc]

theorem State.read_comment (offset : Nat) (found : List Token) :
    State.read ⟨offset, .between, found⟩ ';' = ⟨offset + 1, .comment, found⟩ := by
  simp [State.read, Mode.read, enter, show Text.isBlank ';' = false by decide]

theorem State.read_quote (offset : Nat) (found : List Token) :
    State.read ⟨offset, .between, found⟩ '\'' =
      ⟨offset + 1, .between, ⟨.quote, ['\''], offset⟩ :: found⟩ := by
  simp [State.read, Mode.read, enter, show Text.isBlank '\'' = false by decide]

theorem State.read_opening (offset : Nat) (found : List Token) :
    State.read ⟨offset, .between, found⟩ '(' =
      ⟨offset + 1, .between, ⟨.opening, ['('], offset⟩ :: found⟩ := by
  simp [State.read, Mode.read, enter, show Text.isBlank '(' = false by decide]

theorem State.read_closing (offset : Nat) (found : List Token) :
    State.read ⟨offset, .between, found⟩ ')' =
      ⟨offset + 1, .between, ⟨.closing, [')'], offset⟩ :: found⟩ := by
  simp [State.read, Mode.read, enter, show Text.isBlank ')' = false by decide]

theorem State.read_text (offset : Nat) (found : List Token) :
    State.read ⟨offset, .between, found⟩ '"' = ⟨offset + 1, .text offset ['"'], found⟩ := by
  simp [State.read, Mode.read, enter, show Text.isBlank '"' = false by decide]

/-- A word begins with a character that may stand in a word and is no quote mark. -/
theorem State.read_word {c : Char} (hc : isWordChar c = true) (hq : c ≠ '\'') (offset : Nat)
    (found : List Token) :
    State.read ⟨offset, .between, found⟩ c = ⟨offset + 1, .word offset [c], found⟩ := by
  simp [State.read, Mode.read, enter_eq_word.mpr ⟨hc, hq⟩]

/-- **A mode that keeps characters**: while they are read, no token is found. -/
theorem State.scan_within {m : List Char → Mode} {cs : List Char}
    (h : ∀ c ∈ cs, ∀ offset seen, (m seen).read offset c = ([], m (c :: seen)))
    (offset : Nat) (seen : List Char) (found : List Token) :
    State.scan ⟨offset, m seen, found⟩ cs =
      ⟨offset + cs.length, m (cs.reverse ++ seen), found⟩ := by
  induction cs generalizing offset seen with
  | nil => rfl
  | cons c cs ih =>
    obtain ⟨hc, hcs⟩ := List.forall_mem_cons.mp h
    have hread : State.read ⟨offset, m seen, found⟩ c = ⟨offset + 1, m (c :: seen), found⟩ := by
      simp only [State.read, hc, List.nil_append]
    show State.scan (State.read _ c) cs = _
    rw [hread, ih hcs, List.reverse_cons, List.append_assoc, List.length_cons, Nat.add_assoc,
      Nat.add_comm 1]
    rfl

/-- Inside a word its characters are kept. -/
theorem State.scan_word {cs : List Char} (h : ∀ c ∈ cs, isWordChar c = true) (offset start : Nat)
    (seen : List Char) (found : List Token) :
    State.scan ⟨offset, .word start seen, found⟩ cs =
      ⟨offset + cs.length, .word start (cs.reverse ++ seen), found⟩ :=
  State.scan_within (m := .word start) (fun c hc _ _ => by simp [Mode.read, h c hc]) _ _ _

/-- Inside a text all characters but its closing quote mark are kept. -/
theorem State.scan_text {cs : List Char} (h : '"' ∉ cs) (offset start : Nat) (seen : List Char)
    (found : List Token) :
    State.scan ⟨offset, .text start seen, found⟩ cs =
      ⟨offset + cs.length, .text start (cs.reverse ++ seen), found⟩ :=
  State.scan_within (m := .text start)
    (fun c hc _ _ => by simp [Mode.read, ne_of_mem_of_not_mem hc h]) _ _ _

/-- A comment goes on to the end of its line. -/
theorem State.scan_comment {cs : List Char} (h : '\n' ∉ cs) (offset : Nat) (found : List Token) :
    State.scan ⟨offset, .comment, found⟩ cs = ⟨offset + cs.length, .comment, found⟩ :=
  State.scan_within (m := fun _ => .comment)
    (fun c hc _ _ => by simp [Mode.read, ne_of_mem_of_not_mem hc h]) _ [] _

/-! ## Divisions -/

/-- **What a token of each kind is written with.** -/
inductive Written : TokenKind → List Char → Prop
  | quote : Written .quote ['\'']
  | opening : Written .opening ['(']
  | closing : Written .closing [')']
  | text {body : List Char} (h : '"' ∉ body) : Written .text ('"' :: body ++ ['"'])
  | word {c : Char} {cs : List Char} (hq : c ≠ '\'') (h : ∀ d ∈ c :: cs, isWordChar d = true) :
      Written .word (c :: cs)

/-- **May a token end here**, in front of the given characters?  A word goes on as long as its
characters do, and every other token has an end of its own. -/
def Ends (kind : TokenKind) (rest : List Char) : Prop :=
  kind = .word → ∀ c ∈ rest.head?, isWordChar c = false

/-- **The characters from an offset on, divided** into blanks, comments and the given tokens.  At
the end there may be a text that is not closed. -/
inductive Divides : Nat → List Char → List Token → Option Nat → Prop
  | nil (offset : Nat) : Divides offset [] [] none
  | blank {offset : Nat} {c : Char} {cs : List Char} {ts : List Token} {u : Option Nat}
      (hc : Text.isBlank c = true) (h : Divides (offset + 1) cs ts u) :
      Divides offset (c :: cs) ts u
  /-- A comment ends in front of a newline or at the end of the source. -/
  | comment {offset : Nat} {body rest : List Char} {ts : List Token} {u : Option Nat}
      (hb : '\n' ∉ body) (hr : ∀ c ∈ rest.head?, c = '\n')
      (h : Divides (offset + (body.length + 1)) rest ts u) :
      Divides offset (';' :: body ++ rest) ts u
  | token {t : Token} {rest : List Char} {ts : List Token} {u : Option Nat}
      (ht : Written t.kind t.chars) (he : Ends t.kind rest) (h : Divides t.stop rest ts u) :
      Divides t.offset (t.chars ++ rest) (t :: ts) u
  | unterminated (offset : Nat) {body : List Char} (h : '"' ∉ body) :
      Divides offset ('"' :: body) [] (some offset)

/-- The characters up to the first one that is not of a kind, and the others. -/
theorem exists_span (p : Char → Bool) (cs : List Char) :
    ∃ body rest, cs = body ++ rest ∧ (∀ c ∈ body, p c = true) ∧ ∀ c ∈ rest.head?, p c = false := by
  refine ⟨cs.takeWhile p, cs.dropWhile p, List.takeWhile_append_dropWhile.symm,
    fun c hc => List.mem_takeWhile_imp hc, fun c hc => ?_⟩
  have hhead := List.head?_dropWhile_not p cs
  rw [Option.mem_def.mp hc] at hhead
  simpa using hhead

/-- What the lexer finds from between two tokens on is a division of the characters. -/
def Found (offset : Nat) (cs : List Char) : Prop :=
  ∀ found, ∃ ts u, (State.scan ⟨offset, .between, found⟩ cs).finish = ⟨found.reverse ++ ts, u⟩ ∧
    Divides offset cs ts u

theorem Found.blank {offset : Nat} {c : Char} {cs : List Char} (hc : Text.isBlank c = true)
    (h : Found (offset + 1) cs) : Found offset (c :: cs) := by
  intro found
  obtain ⟨ts, u, hfinish, hd⟩ := h found
  refine ⟨ts, u, ?_, .blank hc hd⟩
  rw [← hfinish, ← State.read_blank hc]
  rfl

/-- Where a comment ends, the lexer is as good as between two tokens. -/
theorem Found.comment {offset : Nat} {body rest : List Char} (hb : '\n' ∉ body)
    (hr : ∀ c ∈ rest.head?, c = '\n') (h : Found (offset + (body.length + 1)) rest) :
    Found offset (';' :: body ++ rest) := by
  intro found
  obtain ⟨ts, u, hfinish, hd⟩ := h found
  refine ⟨ts, u, ?_, .comment hb hr hd⟩
  have hscan : State.scan ⟨offset, .between, found⟩ (';' :: body ++ rest) =
      State.scan ⟨offset + (body.length + 1), .comment, found⟩ rest := by
    rw [State.scan_append]
    show State.scan (State.scan (State.read _ ';') body) rest = _
    rw [State.read_comment, State.scan_comment hb, Nat.add_assoc, Nat.add_comm 1]
  rw [hscan, ← hfinish]
  cases rest with
  | nil => rfl
  | cons c rest =>
    obtain rfl := hr c rfl
    rfl

theorem Found.token {t : Token} {rest : List Char}
    (hr : ∀ found, State.finish (State.scan ⟨t.offset, .between, found⟩ (t.chars ++ rest)) =
      State.finish (State.scan ⟨t.stop, .between, t :: found⟩ rest))
    (ht : Written t.kind t.chars) (he : Ends t.kind rest) (h : Found t.stop rest) :
    Found t.offset (t.chars ++ rest) := by
  intro found
  obtain ⟨ts, u, hfinish, hd⟩ := h (t :: found)
  refine ⟨t :: ts, u, ?_, .token ht he hd⟩
  rw [hr, hfinish, List.reverse_cons, List.append_assoc]
  rfl

theorem Found.text {offset : Nat} {body rest : List Char} (hb : '"' ∉ body)
    (h : Found (offset + (body.length + 2)) rest) :
    Found offset ('"' :: body ++ '"' :: rest) := by
  have hchars : '"' :: body ++ '"' :: rest = ('"' :: body ++ ['"']) ++ rest := by simp
  have hlength : ('"' :: body ++ ['"']).length = body.length + 2 := by simp
  rw [hchars]
  refine Found.token (t := ⟨.text, '"' :: body ++ ['"'], offset⟩) (fun found => ?_) (.text hb)
    nofun (by rwa [Token.stop, hlength])
  rw [State.scan_append, State.scan_append]
  show State.finish (State.scan (State.read (State.scan (State.read _ '"') body) '"') rest) = _
  rw [State.read_text, State.scan_text hb]
  have hread :
      State.read ⟨offset + 1 + body.length, .text offset (body.reverse ++ ['"']), found⟩ '"' =
        ⟨offset + (body.length + 2), .between, ⟨.text, '"' :: body ++ ['"'], offset⟩ :: found⟩ := by
    simp [State.read, Mode.read, Nat.add_assoc, Nat.add_comm 1]
  rw [hread, Token.stop, hlength]

theorem Found.word {offset : Nat} {c : Char} {body rest : List Char} (hq : c ≠ '\'')
    (hb : ∀ d ∈ c :: body, isWordChar d = true) (hr : ∀ d ∈ rest.head?, isWordChar d = false)
    (h : Found (offset + (body.length + 1)) rest) : Found offset (c :: body ++ rest) := by
  refine Found.token (t := ⟨.word, c :: body, offset⟩) (fun found => ?_) (.word hq hb)
    (fun _ => hr) h
  obtain ⟨hc, hbody⟩ := List.forall_mem_cons.mp hb
  rw [State.scan_append]
  show State.finish (State.scan (State.scan (State.read _ c) body) rest) = _
  rw [State.read_word hc hq, State.scan_word hbody]
  cases rest with
  | nil => simp [State.scan, State.finish]
  | cons d rest =>
    show State.finish (State.scan (State.read _ d) rest) = _
    rw [State.read_delimiter (s := ⟨_, .word _ _, _⟩) trivial (hr d rfl)]
    simp [State.finish, State.scan, Token.stop, Nat.add_assoc, Nat.add_comm 1]

/-- A token of one character. -/
theorem Found.single {offset : Nat} {kind : TokenKind} {c : Char} {cs : List Char}
    (hread : ∀ found, State.read ⟨offset, .between, found⟩ c =
      ⟨offset + 1, .between, ⟨kind, [c], offset⟩ :: found⟩)
    (hk : kind ≠ .word) (hw : Written kind [c]) (h : Found (offset + 1) cs) :
    Found offset (c :: cs) := by
  refine Found.token (t := ⟨kind, [c], offset⟩) (fun found => ?_) hw (absurd · hk) h
  show State.finish (State.scan (State.read _ c) cs) = _
  rw [hread]
  rfl

/-- **The lexer divides all characters**, whatever comes first. -/
theorem found (offset : Nat) (cs : List Char) : Found offset cs := by
  -- The induction is on the length: a comment, a text or a word takes many characters at once.
  induction hn : cs.length using Nat.strong_induction_on generalizing offset cs with
  | _ n ih =>
    subst hn
    have hshorter (c : Char) (body rest : List Char) :
        rest.length < (c :: (body ++ rest)).length := by
      rw [List.length_cons, List.length_append]
      omega
    cases cs with
    | nil => exact fun found => ⟨[], none, by simp [State.scan, State.finish], .nil offset⟩
    | cons c cs =>
      by_cases hblank : Text.isBlank c = true
      · exact .blank hblank (ih _ (by simp) _ _ rfl)
      by_cases hcomment : c = ';'
      · obtain ⟨body, rest, rfl, hb, hr⟩ := exists_span (· != '\n') cs
        subst hcomment
        exact .comment (fun hm => by simpa using hb _ hm) (fun d hd => by simpa using hr d hd)
          (ih _ (hshorter ..) _ _ rfl)
      by_cases hquote : c = '\''
      · subst hquote
        exact .single (State.read_quote offset) nofun .quote (ih _ (by simp) _ _ rfl)
      by_cases hopening : c = '('
      · subst hopening
        exact .single (State.read_opening offset) nofun .opening (ih _ (by simp) _ _ rfl)
      by_cases hclosing : c = ')'
      · subst hclosing
        exact .single (State.read_closing offset) nofun .closing (ih _ (by simp) _ _ rfl)
      by_cases htext : c = '"'
      · obtain ⟨body, rest, rfl, hb, hr⟩ := exists_span (· != '"') cs
        have hbody : '"' ∉ body := fun hm => by simpa using hb _ hm
        subst htext
        cases rest with
        | nil =>
          intro found
          refine ⟨[], some offset, ?_, .unterminated offset (by simpa using hbody)⟩
          show State.finish (State.scan (State.read _ '"') _) = _
          rw [State.read_text, List.append_nil, State.scan_text hbody]
          simp [State.finish]
        | cons d rest =>
          obtain rfl : d = '"' := by simpa using hr d rfl
          exact .text hbody (ih _ (Nat.lt_of_succ_lt (hshorter '"' body ('"' :: rest))) _ _ rfl)
      · obtain ⟨body, rest, rfl, hb, hr⟩ := exists_span isWordChar cs
        have henter : enter offset c = ([], .word offset [c]) := by
          simp [enter, hblank, hcomment, hquote, hopening, hclosing, htext]
        have hc : isWordChar c = true := (enter_eq_word.mp henter).1
        exact .word hquote (List.forall_mem_cons.mpr ⟨hc, hb⟩) hr (ih _ (hshorter ..) _ _ rfl)

/-! ## What a division says of its tokens -/

/-- **Nothing but blanks and comments** stands in `cs` in front of `ds`. -/
inductive Skips : List Char → List Char → Prop
  | done (cs : List Char) : Skips cs cs
  | blank {c : Char} {cs ds : List Char} (hc : Text.isBlank c = true) (h : Skips cs ds) :
      Skips (c :: cs) ds
  | comment {body rest ds : List Char} (hb : '\n' ∉ body) (hr : ∀ c ∈ rest.head?, c = '\n')
      (h : Skips rest ds) : Skips (';' :: body ++ rest) ds

theorem Written.ne_nil {kind : TokenKind} {cs : List Char} (h : Written kind cs) : cs ≠ [] := by
  cases h <;> exact List.cons_ne_nil _ _

/-- No token stands at the offset. -/
def Outside (ts : List Token) (pos : Nat) : Prop :=
  ∀ t ∈ ts, ¬ (t.offset ≤ pos ∧ pos < t.stop)

/-- **A comment that starts at one offset and goes on to another**: it starts with a semicolon that
is in no token, and is still on its line. -/
structure CommentAt (source : List Char) (ts : List Token) (start pos : Nat) : Prop where
  le : start ≤ pos
  semicolon : source[start]? = some ';'
  outside : Outside ts start
  sameLine : ∀ k, start ≤ k → k ≤ pos → source[k]? ≠ some '\n'

section Divides
variable {source cs : List Char} {offset : Nat} {ts : List Token} {u : Option Nat}

theorem drop_of_append (front : List Char) {rest : List Char}
    (hs : source.drop offset = front ++ rest) : source.drop (offset + front.length) = rest := by
  rw [← List.drop_drop, hs, List.drop_left]

theorem drop_of_cons {c : Char} {rest : List Char} (hs : source.drop offset = c :: rest) :
    source.drop (offset + 1) = rest :=
  drop_of_append [c] hs

theorem getElem?_of_drop (hs : source.drop offset = cs) (i : Nat) :
    source[offset + i]? = cs[i]? := by
  rw [← hs, List.getElem?_drop]

theorem head_of_drop {c : Char} {rest : List Char} (hs : source.drop offset = c :: rest) :
    source[offset]? = some c :=
  getElem?_of_drop hs 0

/-- **Tokens are in the source where they say they are.** -/
theorem Divides.mem (h : Divides offset cs ts u) (hs : source.drop offset = cs) :
    ∀ t ∈ ts, offset ≤ t.offset ∧ source.drop t.offset = t.chars ++ source.drop t.stop ∧
      Written t.kind t.chars ∧ Ends t.kind (source.drop t.stop) := by
  induction h with
  | nil offset => exact fun t ht => absurd ht List.not_mem_nil
  | blank _ _ ih =>
    intro t ht
    obtain ⟨hle, hrest⟩ := ih (drop_of_cons hs) t ht
    exact ⟨by omega, hrest⟩
  | comment _ _ _ ih =>
    intro t ht
    obtain ⟨hle, hrest⟩ := ih (drop_of_append (';' :: _) hs) t ht
    exact ⟨by omega, hrest⟩
  | @token t rest ts u hw he _ ih =>
    have hrest : source.drop t.stop = rest := drop_of_append _ hs
    intro t' ht'
    rcases List.mem_cons.mp ht' with rfl | ht'
    · exact ⟨Nat.le_refl _, by rw [hrest, hs], hw, by rwa [hrest]⟩
    · obtain ⟨hle, h'⟩ := ih hrest t' ht'
      exact ⟨by unfold Token.stop at hle; omega, h'⟩
  | unterminated offset _ => exact fun t ht => absurd ht List.not_mem_nil

/-- **Tokens do not overlap** and are in order. -/
theorem Divides.pairwise (h : Divides offset cs ts u) (hs : source.drop offset = cs) :
    ts.Pairwise fun t t' => t.stop ≤ t'.offset := by
  induction h with
  | nil _ | unterminated _ _ => exact .nil
  | blank _ _ ih => exact ih (drop_of_cons hs)
  | comment _ _ _ ih => exact ih (drop_of_append (';' :: _) hs)
  | @token t rest ts u _ _ h ih =>
    have hrest : source.drop t.stop = rest := drop_of_append _ hs
    exact .cons (fun t' ht' => (h.mem hrest t' ht').1) (ih hrest)

/-- What is left of a division behind one of its tokens is a division. -/
theorem Divides.behind {t : Token} {front back : List Token}
    (h : Divides offset cs (front ++ t :: back) u) (hs : source.drop offset = cs) :
    Divides t.stop (source.drop t.stop) back u := by
  generalize hts : front ++ t :: back = ts at h
  induction h generalizing front with
  | nil _ | unterminated _ _ => simp at hts
  | blank _ _ ih => exact ih (drop_of_cons hs) hts
  | comment _ _ _ ih => exact ih (drop_of_append (';' :: _) hs) hts
  | @token t' rest ts u _ _ h ih =>
    have hrest : source.drop t'.stop = rest := drop_of_append _ hs
    cases front with
    | nil =>
      obtain ⟨rfl, rfl⟩ := List.cons.inj hts
      rwa [hrest]
    | cons _ front => exact ih hrest (List.cons.inj hts).2

/-- Where the first of some tokens starts.  If there are none, that is where the text starts that
is left open, or the end of the source. -/
def startOf (source : List Char) (u : Option Nat) (ts : List Token) : Nat :=
  ts.head?.elim (u.getD source.length) Token.offset

/-- Where the last of some tokens stops. -/
def stopOf (ts : List Token) : Nat :=
  ts.getLast?.elim 0 Token.stop

/-- **In front of the first token there are blanks and comments.** -/
theorem Divides.skips (h : Divides offset cs ts u) (hs : source.drop offset = cs) :
    Skips cs (source.drop (startOf source u ts)) := by
  induction h with
  | nil _ => simpa [startOf] using Skips.done []
  | blank hc _ ih => exact .blank hc (ih (drop_of_cons hs))
  | comment hb hr _ ih => exact .comment hb hr (ih (drop_of_append (';' :: _) hs))
  | token _ _ _ _ =>
    rw [← hs]
    exact .done _
  | unterminated _ _ =>
    rw [← hs]
    exact .done _

/-- **So there are between any two tokens**, and behind the last. -/
theorem Divides.skips_between {front back : List Token}
    (h : Divides 0 source (front ++ back) u) :
    Skips (source.drop (stopOf front)) (source.drop (startOf source u back)) := by
  rcases List.eq_nil_or_concat front with rfl | ⟨front, t, rfl⟩
  · exact h.skips rfl
  · rw [List.concat_eq_append, List.append_assoc, List.singleton_append] at h
    have hback := (h.behind rfl).skips rfl
    simpa [stopOf] using hback

/-- The characters of a comment are on one line. -/
theorem sameLine_of_drop {body rest : List Char} (hb : '\n' ∉ body)
    (hs : source.drop offset = ';' :: body ++ rest) {k : Nat} (hk : offset ≤ k)
    (hk' : k < offset + (body.length + 1)) : source[k]? ≠ some '\n' := by
  obtain ⟨i, rfl⟩ := Nat.exists_eq_add_of_le hk
  have hi : i < (';' :: body).length := by simp; omega
  rw [getElem?_of_drop hs, List.getElem?_append_left hi]
  intro hnewline
  rcases List.mem_cons.mp (List.mem_of_getElem? hnewline) with heq | hm
  · exact absurd heq (by decide)
  · exact hb hm

/-- **Every character is accounted for**: it is a blank, or stands in a token, in a comment or in
the text that is left open. -/
theorem Divides.cover (h : Divides offset cs ts u) (hs : source.drop offset = cs) {pos : Nat}
    (hpos : offset ≤ pos) (hlt : pos < source.length) :
    (∃ c, source[pos]? = some c ∧ Text.isBlank c = true) ∨
      (∃ t ∈ ts, t.offset ≤ pos ∧ pos < t.stop) ∨
      (∃ start, offset ≤ start ∧ CommentAt source ts start pos) ∨ ∃ p ≤ pos, u = some p := by
  induction h with
  | nil offset =>
    have hlength := List.drop_eq_nil_iff.mp hs
    omega
  | @blank offset c cs ts u hc _ ih =>
    rcases Nat.eq_or_lt_of_le hpos with rfl | hpos
    · exact .inl ⟨c, head_of_drop hs, hc⟩
    · obtain hblank | htoken | ⟨start, hstart, hcomment⟩ | hopen := ih (drop_of_cons hs) hpos
      · exact .inl hblank
      · exact .inr (.inl htoken)
      · exact .inr (.inr (.inl ⟨start, by omega, hcomment⟩))
      · exact .inr (.inr (.inr hopen))
  | @comment offset body rest ts u hb _ h ih =>
    -- Either the character is in this comment, or what comes after it accounts for it.
    have hrest : source.drop (offset + (body.length + 1)) = rest :=
      drop_of_append (';' :: body) hs
    by_cases hin : pos < offset + (body.length + 1)
    · refine .inr (.inr (.inl ⟨offset, Nat.le_refl _, hpos, head_of_drop hs, ?_, ?_⟩))
      · intro t ht
        have hle := (h.mem hrest t ht).1
        omega
      · exact fun k hk hk' => sameLine_of_drop hb hs hk (by omega)
    · obtain hblank | htoken | ⟨start, hstart, hcomment⟩ | hopen := ih hrest (by omega)
      · exact .inl hblank
      · exact .inr (.inl htoken)
      · exact .inr (.inr (.inl ⟨start, by omega, hcomment⟩))
      · exact .inr (.inr (.inr hopen))
  | @token t rest ts u _ _ _ ih =>
    have hrest : source.drop t.stop = rest := drop_of_append _ hs
    by_cases hin : pos < t.stop
    · exact .inr (.inl ⟨t, List.mem_cons_self, hpos, hin⟩)
    · obtain hblank | ⟨t', ht', htoken⟩ | ⟨start, hstart, hcomment⟩ | hopen := ih hrest (by omega)
      · exact .inl hblank
      · exact .inr (.inl ⟨t', List.mem_cons_of_mem _ ht', htoken⟩)
      · refine .inr (.inr (.inl
          ⟨start, ?_, hcomment.le, hcomment.semicolon, ?_, hcomment.sameLine⟩))
        · unfold Token.stop at hstart
          omega
        · refine List.forall_mem_cons.mpr ⟨?_, hcomment.outside⟩
          omega
      · exact .inr (.inr (.inr hopen))
  | unterminated offset _ => exact .inr (.inr (.inr ⟨offset, hpos, rfl⟩))

/-- **A text that is left open** starts with a quote mark that is in no token and in no comment, and
no quote mark comes after it. -/
structure LeftOpen (source : List Char) (ts : List Token) (pos : Nat) : Prop where
  quote : source[pos]? = some '"'
  last : '"' ∉ source.drop (pos + 1)
  outside : Outside ts pos
  uncommented : ∀ start, ¬ CommentAt source ts start pos

/-- The text that a division leaves open is behind all of its tokens. -/
theorem Divides.open_text {pos : Nat} (h : Divides offset cs ts (some pos))
    (hs : source.drop offset = cs) :
    offset ≤ pos ∧ source[pos]? = some '"' ∧ '"' ∉ source.drop (pos + 1) ∧
      ∀ t ∈ ts, t.stop ≤ pos := by
  generalize hu : some pos = u at h
  induction h with
  | nil _ => cases hu
  | blank _ _ ih =>
    obtain ⟨hle, hrest⟩ := ih (drop_of_cons hs) hu
    exact ⟨by omega, hrest⟩
  | comment _ _ _ ih =>
    obtain ⟨hle, hrest⟩ := ih (drop_of_append (';' :: _) hs) hu
    exact ⟨by omega, hrest⟩
  | @token t rest ts u _ _ _ ih =>
    obtain ⟨hle, hquote, hlast, hbehind⟩ := ih (drop_of_append _ hs) hu
    refine ⟨?_, hquote, hlast, List.forall_mem_cons.mpr ⟨hle, hbehind⟩⟩
    unfold Token.stop at hle
    omega
  | @unterminated offset body h =>
    cases hu
    refine ⟨Nat.le_refl _, head_of_drop hs, ?_, fun _ ht => absurd ht List.not_mem_nil⟩
    rwa [drop_of_cons hs]

/-- **No comment reaches the text that is left open**: it ends on a line before. -/
theorem Divides.uncommented {pos start : Nat} (h : Divides offset cs ts (some pos))
    (hs : source.drop offset = cs) (hstart : offset ≤ start) : ¬ CommentAt source ts start pos := by
  rintro ⟨hle, hsemicolon, hout, hline⟩
  generalize hu : some pos = u at h
  induction h with
  | nil _ => cases hu
  | @blank offset c cs ts u hc h ih =>
    rcases Nat.eq_or_lt_of_le hstart with rfl | hstart
    · obtain rfl : c = ';' := Option.some.inj ((head_of_drop hs).symm.trans hsemicolon)
      exact absurd hc (by decide)
    · exact ih (drop_of_cons hs) hstart hout hu
  | @comment offset body rest ts u hb hr h ih =>
    have hrest : source.drop (offset + (body.length + 1)) = rest :=
      drop_of_append (';' :: body) hs
    by_cases hin : start < offset + (body.length + 1)
    · -- The comment ends at a newline, which stands before the open text.
      subst hu
      obtain ⟨hpos, hquote, -⟩ := h.open_text hrest
      obtain ⟨i, rfl⟩ := Nat.exists_eq_add_of_le hpos
      rw [getElem?_of_drop hrest] at hquote
      cases rest with
      | nil => cases hquote
      | cons c rest =>
        obtain rfl := hr c rfl
        exact hline _ (by omega) hpos (head_of_drop hrest)
    · exact ih hrest (by omega) hout hu
  | @token t rest ts u _ _ _ ih =>
    obtain ⟨hfirst, hout⟩ := List.forall_mem_cons.mp hout
    exact ih (drop_of_append _ hs) (show t.stop ≤ start by omega) hout hu
  | unterminated offset _ =>
    cases hu
    obtain rfl := Nat.le_antisymm hle hstart
    cases (head_of_drop hs).symm.trans hsemicolon

/-- **A division leaves a text open exactly where one is left open.** -/
theorem Divides.eq_some_iff (h : Divides 0 source ts u) {pos : Nat} :
    u = some pos ↔ LeftOpen source ts pos := by
  constructor
  · rintro rfl
    obtain ⟨-, hquote, hlast, hbehind⟩ := h.open_text rfl
    refine ⟨hquote, hlast, fun t ht hin => ?_, fun start => h.uncommented rfl start.zero_le⟩
    have hstop := hbehind t ht
    omega
  · rintro ⟨hquote, hlast, hout, huncommented⟩
    obtain ⟨hlt, -⟩ := List.getElem?_eq_some_iff.mp hquote
    obtain ⟨c, hc, hblank⟩ | ⟨t, ht, hin⟩ | ⟨start, -, hcomment⟩ | ⟨p, hp, rfl⟩ :=
      h.cover rfl pos.zero_le hlt
    · rw [hquote] at hc
      cases hc
      exact absurd hblank (by decide)
    · exact absurd hin (hout t ht)
    · exact absurd hcomment (huncommented start)
    · -- Behind the quote mark of the open text there is no other one.
      obtain ⟨-, -, hlast', -⟩ := h.open_text rfl
      rcases Nat.eq_or_lt_of_le hp with rfl | hp
      · rfl
      · obtain ⟨i, rfl⟩ := Nat.exists_eq_add_of_le (Nat.succ_le_of_lt hp)
        rw [Nat.succ_eq_add_one, ← List.getElem?_drop] at hquote
        exact absurd (List.mem_of_getElem? hquote) hlast'

end Divides

end Lexer

/-- **The lexer divides every source** into its tokens. -/
theorem Source.lex_divides (source : Source) :
    Lexer.Divides 0 source.chars source.lex.tokens source.lex.unterminated := by
  obtain ⟨ts, u, hfinish, hd⟩ := Lexer.found 0 source.chars []
  have hlex : source.lex = ⟨ts, u⟩ := hfinish
  rw [hlex]
  exact hd

/-! ## Tokens of a stream -/

namespace TokenStream

/-- The stream after a number of its tokens have been taken. -/
def advanced : Nat → TokenStream → TokenStream
  | 0, stream => stream
  | k + 1, stream => advanced k stream.advance.2

theorem advanced_eq {stream : TokenStream} {k : Nat} (hk : k ≤ stream.tokens.length) :
    stream.advanced k = { stream with tokens := stream.tokens.drop k } := by
  induction k generalizing stream with
  | zero => rfl
  | succ k ih =>
    obtain ⟨source, tokens, u⟩ := stream
    cases tokens with
    | nil => cases hk
    | cons t ts => exact ih (Nat.le_of_succ_le_succ hk)

/-- **A stream gives its tokens one after the other.** -/
theorem advance_advanced {stream : TokenStream} {k : Nat} {t : Token}
    (ht : stream.tokens[k]? = some t) : (stream.advanced k).advance.1 = .ok (some t) := by
  obtain ⟨hk, hget⟩ := List.getElem?_eq_some_iff.mp ht
  have hdrop : stream.tokens.drop k = t :: stream.tokens.drop (k + 1) := by
    rw [List.drop_eq_getElem_cons hk, hget]
  rw [advanced_eq (Nat.le_of_lt hk), advance, hdrop]

/-- **At its end a stream fails** if a text has been left open. -/
theorem advance_at_end (stream : TokenStream) :
    (stream.advanced stream.tokens.length).advance.1 = stream.atEnd.1.map fun _ => none := by
  rw [advanced_eq (Nat.le_refl _), List.drop_length]
  obtain ⟨source, tokens, u⟩ := stream
  cases u <;> rfl

theorem atEnd_eq_error (stream : TokenStream) (e : ReadError) :
    stream.atEnd.1.map (fun _ => (none : Option Token)) = .error e ↔
      stream.unterminated = some e.offset ∧ e.reason = .unterminatedText := by
  obtain ⟨reason, offset⟩ := e
  unfold atEnd
  cases stream.unterminated <;> simp [Except.map, and_comm, eq_comm]

theorem atEnd_of_none {stream : TokenStream} (h : stream.unterminated = none) :
    stream.atEnd.1.map (fun _ => (none : Option Token)) = .ok none := by
  simp [atEnd, h, Except.map]

end TokenStream

theorem ReadReason.message_eq_unterminated (reason : ReadReason) :
    reason = .unterminatedText ↔ reason.message = "Unterminated string literal" := by
  cases reason <;> simp [message]

/-- **The lexer leaves out nothing but blanks and comments, and fails only at a text that is left
open.**  Each token is written as its kind says, with the characters that stand at its offset, and
a word goes on until a character that cannot stand in one.  The tokens are in order and do not
overlap.  In front of the first, between any two and behind the last there are only blanks and
comments; the last gap goes to the end of the source, or to the text that is left open.  There is
no other character.  A stream gives the tokens one by one, and then fails if and only if there is
such a text, with the characters from its quote mark on as what is unread. -/
theorem Source.lex_lossless (source : Source) :
    let chars := source.chars
    let tokens := source.lex.tokens
    (∀ t ∈ tokens, t.offset < t.stop ∧ (chars.drop t.offset).take t.chars.length = t.chars ∧
      Lexer.Written t.kind t.chars ∧ (t.kind = .word → ∀ c ∈ chars[t.stop]?,
        Text.isBlank c = true ∨ c ∈ ['(', ')', '"', ';'])) ∧
    (tokens.Pairwise fun t t' => t.stop ≤ t'.offset) ∧
    (∀ front back, tokens = front ++ back → Lexer.Skips (chars.drop (Lexer.stopOf front))
      (chars.drop (Lexer.startOf chars source.lex.unterminated back))) ∧
    (∀ pos < chars.length, (∃ c, chars[pos]? = some c ∧ Text.isBlank c = true) ∨
      (∃ t ∈ tokens, t.offset ≤ pos ∧ pos < t.stop) ∨
      (∃ start, Lexer.CommentAt chars tokens start pos) ∨
      ∃ p ≤ pos, Lexer.LeftOpen chars tokens p) ∧
    (∀ k t, tokens[k]? = some t →
      ((TokenStream.ofSource source).advanced k).advance.1 = .ok (some t)) ∧
    (∀ e, ((TokenStream.ofSource source).advanced tokens.length).advance.1 = .error e ↔
      Lexer.LeftOpen chars tokens e.offset ∧ e.reason.message = "Unterminated string literal") ∧
    ((∀ pos, ¬ Lexer.LeftOpen chars tokens pos) →
      ((TokenStream.ofSource source).advanced tokens.length).advance.1 = .ok none) ∧
    ∀ pos, (source.remainder pos).toList = chars.drop pos := by
  intro chars tokens
  have hd : Lexer.Divides 0 chars tokens source.lex.unterminated := source.lex_divides
  have hend := (TokenStream.ofSource source).advance_at_end
  refine ⟨fun t ht => ?_, hd.pairwise rfl, fun front back hsplit => ?_, fun pos hpos => ?_,
    fun k t ht => TokenStream.advance_advanced ht, fun e => ?_, fun hnone => ?_,
    fun pos => String.toList_ofList⟩
  · obtain ⟨-, hdrop, hwritten, hends⟩ := hd.mem rfl t ht
    refine ⟨?_, by rw [hdrop, List.take_left], hwritten, fun hk c hc => ?_⟩
    · have hpos := List.length_pos_iff.mpr hwritten.ne_nil
      unfold Token.stop
      omega
    · have hchar := hends hk c (by rwa [List.head?_drop])
      simp only [Lexer.isWordChar, Bool.not_eq_false', Bool.or_eq_true, beq_iff_eq] at hchar
      simpa [or_assoc] using hchar
  · rw [hsplit] at hd
    exact hd.skips_between
  · obtain hblank | htoken | ⟨start, -, hcomment⟩ | ⟨p, hp, hu⟩ := hd.cover rfl pos.zero_le hpos
    · exact .inl hblank
    · exact .inr (.inl htoken)
    · exact .inr (.inr (.inl ⟨start, hcomment⟩))
    · exact .inr (.inr (.inr ⟨p, hp, hd.eq_some_iff.mp hu⟩))
  · rw [← ReadReason.message_eq_unterminated, ← hd.eq_some_iff]
    exact (hend ▸ (TokenStream.ofSource source).atEnd_eq_error e)
  · have hu : source.lex.unterminated = none := by
      cases hu : source.lex.unterminated with
      | none => rfl
      | some pos => exact absurd (hd.eq_some_iff.mp hu) (hnone pos)
    exact hend.trans (TokenStream.atEnd_of_none hu)

/-- A word, a comment with a quote mark in it, and a text that is left open. -/
theorem Source.lex_lossless_open :
    let source : Source := ⟨['x', ';', '"', '\n', '"', '('], none⟩
    source.lex.tokens = [⟨.word, ['x'], 0⟩] ∧ Lexer.LeftOpen source.chars source.lex.tokens 4 ∧
      ¬ Lexer.LeftOpen source.chars source.lex.tokens 2 ∧
      Lexer.Skips [';', '"', '\n', '"', '('] ['"', '('] ∧
      ((TokenStream.ofSource source).advanced 0).advance.1 = .ok (some ⟨.word, ['x'], 0⟩) ∧
      ((TokenStream.ofSource source).advanced 1).advance.1 = .error ⟨.unterminatedText, 4⟩ := by
  intro source
  have htokens : source.lex.tokens = [⟨.word, ['x'], 0⟩] := by decide
  have hu : source.lex.unterminated = some 4 := by decide
  obtain ⟨-, -, hskips, -, hgives, herror, -⟩ := source.lex_lossless
  have hfail : ((TokenStream.ofSource source).advanced 1).advance.1 =
      .error ⟨.unterminatedText, 4⟩ := rfl
  refine ⟨htokens, ((herror _).mp hfail).1, fun h => ?_, ?_, ?_, hfail⟩
  · cases ((herror ⟨.unterminatedText, 2⟩).mpr ⟨h, rfl⟩).symm.trans hfail
  · have hgap := hskips [⟨.word, ['x'], 0⟩] [] htokens
    rwa [hu] at hgap
  · exact hgives 0 _ (by rw [htokens]; rfl)

end StackLisp
