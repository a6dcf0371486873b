import Mathlib.Data.List.Forall2
import StackLisp.Proofs.Grammar

/-!
# What locations point at

A location says where in the source something is, and the source can be asked for what is there.
Three things make that exact (`Source.locations_exact`):

* an offset is the length of the lines before its own and its place in that line, so different
  offsets have different locations (`Source.locate_inj`);
* the pairs of a list have the location of the parenthesis that opens the list, and of no other
  list.  Lists and opening parentheses come in the same order (`Reader.Derives.opened`), so the
  parenthesis of a list is known by counting;
* where reading fails, the error points at what is wrong (`ReadError.Points`).  The tokens behind
  what is pending are known (`Reader.Opens`), and they say what that is.
-/

namespace StackLisp

/-! ## Lines and columns -/

namespace Source

/-- The lines of a text, each with the newline that ends it.  The last one has none. -/
def lines : List Char → List (List Char)
  | [] => [[]]
  | c :: cs => if c = '\n' then [c] :: lines cs else (lines cs).modifyHead (c :: ·)

theorem exists_lines_eq_cons (cs : List Char) : ∃ line rest, lines cs = line :: rest := by
  induction cs with
  | nil => exact ⟨[], [], rfl⟩
  | cons c cs ih =>
    obtain ⟨line, rest, h⟩ := ih
    by_cases hc : c = '\n'
    · exact ⟨[c], lines cs, by simp [lines, hc]⟩
    · exact ⟨c :: line, rest, by simp [lines, hc, h]⟩

/-- **A walk over characters** passes as many lines as there are newlines, and goes on in the column
that it has in the last of them. -/
theorem foldl_next_column (cs : List Char) {n : Nat} (hn : n ≤ cs.length) (l : Location) :
    n + (if (cs.take n).count '\n' = 0 then l.column else 1) =
      ((lines cs).take ((cs.take n).count '\n')).flatten.length +
        ((cs.take n).foldl Location.next l).column := by
  induction cs generalizing n l with
  | nil =>
    obtain rfl : n = 0 := by simpa using hn
    simp
  | cons c cs ih =>
    cases n with
    | zero => simp
    | succ n =>
      have hrest := ih (n := n) (by simpa using hn) (l.next c)
      by_cases hc : c = '\n'
      · subst hc
        simp only [List.take_succ_cons, List.count_cons_self, List.foldl_cons, lines, if_true,
          List.flatten_cons, List.length_append, List.length_singleton]
        have hnext : (l.next '\n').column = 1 := by simp [Location.next]
        rw [hnext, ite_self] at hrest
        rw [if_neg (by omega)]
        omega
      · obtain ⟨line, rest, hlines⟩ := exists_lines_eq_cons cs
        have hnext : (l.next c).column = l.column + 1 := by simp [Location.next, hc]
        simp only [List.take_succ_cons, List.count_cons_of_ne hc, List.foldl_cons, lines, hc,
          if_false, hlines, List.modifyHead_cons]
        rw [hnext, hlines] at hrest
        by_cases hzero : (cs.take n).count '\n' = 0
        · simp only [hzero, if_true, List.take_zero] at hrest ⊢
          omega
        · obtain ⟨k, hk⟩ := Nat.exists_eq_succ_of_ne_zero hzero
          rw [hk] at hrest ⊢
          simp only [List.take_succ_cons, List.flatten_cons, List.length_append,
            List.length_cons] at hrest ⊢
          simp only [Nat.succ_ne_zero, if_false] at hrest ⊢
          omega

variable {source : Source}

/-- **An offset is the length of the lines before it and its place in its own.** -/
theorem offset_of_locate {offset : Nat} (h : offset ≤ source.chars.length) :
    (offset : Int) = ((lines source.chars).take ((source.locate offset).line - 1)).flatten.length +
      (source.locate offset).column - 1 := by
  have hline := Location.foldl_next_line source.start (source.chars.take offset)
  have hcolumn := foldl_next_column source.chars h source.start
  simp only [locate, charsBefore_natCast, Nat.min_eq_left h]
  rw [hline]
  simp only [start] at hcolumn ⊢
  rw [Nat.add_sub_cancel_left]
  simp only [ite_self] at hcolumn
  omega

/-- **Different offsets have different locations.** -/
theorem locate_inj {p q : Nat} (hp : p ≤ source.chars.length) (hq : q ≤ source.chars.length)
    (h : source.locate p = source.locate q) : p = q := by
  have hoffset := offset_of_locate hp
  rw [h, ← offset_of_locate hq] at hoffset
  exact Int.ofNat_inj.mp hoffset

end Source

/-! ## Places in a form -/

/-- A turn on the way into a value. -/
inductive Turn where
  /-- To the head of a pair. -/
  | head
  /-- To the tail of a pair. -/
  | tail
  /-- To what is quoted. -/
  | quoted
  deriving DecidableEq, Repr

namespace Turn

/-- **Where the list starts** that a pair is part of: the way to the pair without the turns to a
tail at its end. -/
def listStart : List Turn → List Turn
  | [] => []
  | turn :: way => if turn = .tail ∧ listStart way = [] then [] else turn :: listStart way

/-- From the start of the list only tails lead to the pair. -/
theorem exists_eq_listStart (way : List Turn) :
    ∃ k, way = listStart way ++ List.replicate k .tail := by
  induction way with
  | nil => exact ⟨0, rfl⟩
  | cons turn way ih =>
    obtain ⟨k, hk⟩ := ih
    by_cases h : turn = .tail ∧ listStart way = []
    · obtain ⟨rfl, hnil⟩ := h
      have hway : way = List.replicate k .tail := by simpa [hnil] using hk
      exact ⟨k + 1, by simp [listStart, hnil, List.replicate_succ, ← hway]⟩
    · refine ⟨k, ?_⟩
      rw [listStart, if_neg h, List.cons_append, ← hk]

end Turn

namespace Value

/-- The value that a way leads to. -/
def at? : Value → List Turn → Option Value
  | v, [] => some v
  | pair head _ _, .head :: way => head.at? way
  | pair _ tail _, .tail :: way => tail.at? way
  | quoted v, .quoted :: way => v.at? way
  | _, _ => none

/-- **The places of the lists** in a value, in the order in which they are opened.  The tail of a
pair is `within` the list of the pair, and no list of its own. -/
def lists (within : Bool) : Value → List (List Turn)
  | nil => if within then [] else [[]]
  | pair head tail _ =>
    (if within then [] else [[]]) ++
      ((lists false head).map (.head :: ·) ++ (lists true tail).map (.tail :: ·))
  | quoted v => (lists false v).map (.quoted :: ·)
  | _ => []

@[simp] theorem at?_nil (v : Value) : v.at? [] = some v := by
  cases v <;> rfl

theorem at?_append (v : Value) (way way' : List Turn) :
    v.at? (way ++ way') = (v.at? way).bind (·.at? way') := by
  induction way generalizing v with
  | nil => simp
  | cons turn way ih => cases v <;> cases turn <;> first | rfl | exact ih _

/-- Pairs are in lists, and the start of the list is among the places, unless the pair belongs to
the list that the value is within. -/
theorem mem_lists {v head tail : Value} {loc : Option Location} {way : List Turn} {within : Bool}
    (h : v.at? way = some (pair head tail loc)) :
    Turn.listStart way ∈ v.lists within ∨ within = true ∧ Turn.listStart way = [] := by
  induction way generalizing v within with
  | nil =>
    cases within with
    | true => exact .inr ⟨rfl, rfl⟩
    | false =>
      obtain rfl : v = pair head tail loc := by simpa using h
      exact .inl (by simp [lists, Turn.listStart])
  | cons turn way ih =>
    cases v with
    | pair a b l =>
      cases turn with
      | head =>
        have hor : Turn.listStart way ∈ a.lists false ∨ false = true ∧ Turn.listStart way = [] :=
          ih h
        have hin := hor.resolve_right (by simp)
        exact .inl (by simp [lists, Turn.listStart, hin])
      | tail =>
        by_cases hstart : Turn.listStart way = []
        · cases within with
          | true => exact .inr ⟨rfl, by simp [Turn.listStart, hstart]⟩
          | false => exact .inl (by simp [lists, Turn.listStart, hstart])
        · have hor : Turn.listStart way ∈ b.lists true ∨ true = true ∧ Turn.listStart way = [] :=
            ih h
          have hin := hor.resolve_right fun hr => hstart hr.2
          exact .inl (by simp [lists, Turn.listStart, hstart, hin])
      | quoted => cases h
    | quoted a =>
      cases turn with
      | quoted =>
        have hor : Turn.listStart way ∈ a.lists false ∨ false = true ∧ Turn.listStart way = [] :=
          ih h
        have hin := hor.resolve_right (by simp)
        exact .inl (by simp [lists, Turn.listStart, hin])
      | head | tail => cases h
    | _ => simp [at?] at h

/-- The pairs of a list have its location. -/
theorem loc_of_at?_ofList {items : List Value} {loc loc' : Option Location} {head tail : Value}
    {k : Nat}
    (h : (ofList items loc nil).at? (List.replicate k .tail) = some (pair head tail loc')) :
    loc' = loc := by
  induction items generalizing k with
  | nil => cases k <;> cases h
  | cons item items ih =>
    cases k with
    | zero =>
      cases h
      rfl
    | succ k => exact ih h

end Value

/-! ## Lists and the parentheses that open them -/

namespace Reader
variable {source : Source}

/-- **The expression that begins with the token `t`**, among the tokens `ts`, stands for the
value. -/
def Spelled (source : Source) (ts : List Token) (t : Token) (v : Value) : Prop :=
  ∃ us, t :: us <:+: ts ∧ Derives source (t :: us) v

theorem Spelled.mono {ts us : List Token} {t : Token} {v : Value} (h : Spelled source ts t v)
    (hsub : ts <:+: us) : Spelled source us t v := by
  obtain ⟨rest, hinfix, hd⟩ := h
  exact ⟨rest, hinfix.trans hsub, hd⟩

/-- The tokens that open lists. -/
def openings (ts : List Token) : List Token :=
  ts.filter (·.kind = .opening)

/-- The places of the lists among several forms: the number of the form, and the way into it. -/
def places : List Value → List (Nat × List Turn)
  | [] => []
  | v :: vs => (v.lists false).map (0, ·) ++ (places vs).map (Prod.map (· + 1) id)

/-- The value at a place. -/
def place? (vs : List Value) (place : Nat × List Turn) : Option Value :=
  vs[place.1]?.bind (·.at? place.2)

/-- **The list at the place is the one that the token opens.** -/
def Opened (source : Source) (ts : List Token) (list? : Option Value) (t : Token) : Prop :=
  ∃ list, list? = some list ∧ Spelled source ts t list

/-- Inside a list the ways to its items lead over tails. -/
theorem lists_ofList (vs : List Value) (loc : Option Location) :
    (Value.ofList vs loc .nil).lists false = [] :: (places vs).map fun place =>
      List.replicate place.1 .tail ++ .head :: place.2 := by
  have hwithin : (Value.ofList vs loc .nil).lists true = (places vs).map fun place =>
      List.replicate place.1 .tail ++ .head :: place.2 := by
    induction vs with
    | nil => rfl
    | cons v vs ih =>
      have hcons : Value.ofList (v :: vs) loc .nil = .pair v (Value.ofList vs loc .nil) loc := rfl
      simp [hcons, Value.lists, ih, places, Function.comp_def, List.replicate_succ]
  rw [← hwithin]
  cases vs <;> rfl

theorem at?_ofList (vs : List Value) (loc : Option Location) (place : Nat × List Turn) :
    (Value.ofList vs loc .nil).at? (List.replicate place.1 .tail ++ .head :: place.2) =
      place? vs place := by
  obtain ⟨i, way⟩ := place
  induction vs generalizing i with
  | nil => cases i <;> rfl
  | cons v vs ih =>
    cases i with
    | zero => simp [place?, Value.ofList, Value.at?]
    | succ i => exact ih i

theorem lists_readWord (word : String) : (readWord word).lists false = [] := by
  unfold readWord
  split
  · rfl
  · split
    · rfl
    · split <;> rfl

theorem Opened.mono {ts us : List Token} {list? : Option Value} {t : Token}
    (h : Opened source ts list? t) (hsub : ts <:+: us) : Opened source us list? t := by
  obtain ⟨list, hlist, hspelled⟩ := h
  exact ⟨list, hlist, hspelled.mono hsub⟩

mutual

/-- **The lists of an expression are opened by its opening parentheses, in the same order.** -/
theorem Derives.opened {ts : List Token} {v : Value} (h : Derives source ts v) :
    List.Forall₂ (fun way t => Opened source ts (v.at? way) t) (v.lists false) (openings ts) := by
  match h with
  | .word ht =>
    rw [lists_readWord]
    simp [openings, ht]
  | .text ht => simp [openings, ht, Value.lists]
  | @Derives.quote _ t ts v ht h =>
    have hopenings : openings (t :: ts) = openings ts := by simp [openings, ht]
    rw [hopenings, Value.lists, List.forall₂_map_left_iff]
    exact h.opened.imp fun way t hopened => hopened.mono (List.suffix_cons _ _).isInfix
  | @Derives.list _ t t' ts vs ht ht' hs =>
    have hopenings : openings (t :: ts ++ [t']) = t :: openings ts := by
      simp [openings, ht, ht']
    have hsub : ts <:+: t :: ts ++ [t'] := ⟨[t], [t'], rfl⟩
    rw [hopenings, lists_ofList]
    refine .cons ⟨_, Value.at?_nil _, ts ++ [t'], List.infix_rfl, .list ht ht' hs⟩ ?_
    rw [List.forall₂_map_left_iff]
    refine hs.opened.imp fun place u hopened => ?_
    rw [at?_ofList]
    exact hopened.mono hsub

theorem DerivesEach.opened {ts : List Token} {vs : List Value} (h : DerivesEach source ts vs) :
    List.Forall₂ (fun place t => Opened source ts (place? vs place) t) (places vs)
      (openings ts) := by
  match h with
  | .nil => exact .nil
  | @DerivesEach.cons _ ts us v vs h hs =>
    have hopenings : openings (ts ++ us) = openings ts ++ openings us := List.filter_append ..
    rw [hopenings, places]
    refine List.rel_append ?_ ?_
    · rw [List.forall₂_map_left_iff]
      exact h.opened.imp fun way t hopened => hopened.mono (List.prefix_append ts us).isInfix
    · rw [List.forall₂_map_left_iff]
      exact hs.opened.imp fun place t hopened => hopened.mono (List.suffix_append ts us).isInfix

end

/-- An opening parenthesis begins a list, and says where it is. -/
theorem Derives.of_opening {t : Token} {us : List Token} {v : Value}
    (h : Derives source (t :: us) v) (ht : t.kind = .opening) :
    ∃ vs, v = .ofList vs (some (source.locate t.offset)) .nil := by
  generalize hts : t :: us = ts at h
  cases h with
  | word hk | text hk | quote hk _ =>
    obtain ⟨rfl, -⟩ := List.cons.inj hts
    cases ht.symm.trans hk
  | list _ _ _ =>
    obtain ⟨rfl, -⟩ := List.cons.inj hts
    exact ⟨_, rfl⟩

theorem mem_places {vs : List Value} {i : Nat} {v : Value} {way : List Turn} (hv : vs[i]? = some v)
    (hway : way ∈ v.lists false) : (i, way) ∈ places vs := by
  induction vs generalizing i with
  | nil => simp at hv
  | cons first vs ih =>
    cases i with
    | zero =>
      obtain rfl : first = v := by simpa using hv
      simp [places, hway]
    | succ i =>
      have hin := ih (by simpa using hv)
      exact List.mem_append_right _ (List.mem_map.mpr ⟨(i, way), hin, rfl⟩)

end Reader

namespace Source
variable {source : Source} {forms : List Value}

/-- **The parenthesis that opens the list at a place.**  List and parenthesis have the same number,
and from the parenthesis on the tokens are those of the list. -/
structure OpenedBy (source : Source) (forms : List Value) (start : Nat × List Turn) (t : Token) :
    Prop where
  number : ∃ n : Nat, (Reader.places forms)[n]? = some start ∧
    (Reader.openings source.lex.tokens)[n]? = some t
  char : source.chars[t.offset]? = some '('
  spelled : Reader.Opened source source.lex.tokens (Reader.place? forms start) t

/-- Tokens are where they say. -/
theorem char_of_token {t : Token} (ht : t ∈ source.lex.tokens) :
    source.chars[t.offset]? = t.chars.head? ∧ Lexer.Written t.kind t.chars := by
  obtain ⟨-, hdrop, hwritten, -⟩ := source.lex_divides.mem rfl t ht
  obtain ⟨c, cs, hchars⟩ := List.exists_cons_of_ne_nil hwritten.ne_nil
  refine ⟨?_, hwritten⟩
  rw [hchars, List.cons_append] at hdrop
  rw [Lexer.head_of_drop hdrop, hchars, List.head?_cons]

theorem char_of_opening {t : Token} (ht : t ∈ source.lex.tokens) (hk : t.kind = .opening) :
    source.chars[t.offset]? = some '(' := by
  obtain ⟨hchar, hwritten⟩ := char_of_token ht
  rw [hk] at hwritten
  generalize t.chars = cs at hchar hwritten
  cases hwritten
  exact hchar

theorem char_of_closing {t : Token} (ht : t ∈ source.lex.tokens) (hk : t.kind = .closing) :
    source.chars[t.offset]? = some ')' := by
  obtain ⟨hchar, hwritten⟩ := char_of_token ht
  rw [hk] at hwritten
  generalize t.chars = cs at hchar hwritten
  cases hwritten
  exact hchar

theorem exists_openedBy (h : source.parse = .ok forms) {start : Nat × List Turn}
    (hstart : start ∈ Reader.places forms) : ∃ t, source.OpenedBy forms start t ∧
      ∃ vs, Reader.place? forms start = some (.ofList vs (some (source.locate t.offset)) .nil) := by
  have hopened := (Source.parse_eq_ok.mp h).2.opened
  obtain ⟨n, hn, rfl⟩ := List.mem_iff_getElem.mp hstart
  have hn' : n < (Reader.openings source.lex.tokens).length := hopened.length_eq ▸ hn
  obtain ⟨t, ht, hspelled⟩ : ∃ t, (Reader.openings source.lex.tokens)[n]? = some t ∧
      Reader.Opened source source.lex.tokens (Reader.place? forms (Reader.places forms)[n]) t :=
    ⟨_, List.getElem?_eq_getElem hn', hopened.get hn hn'⟩
  have hmem : t ∈ source.lex.tokens ∧ t.kind = .opening := by
    simpa [Reader.openings] using List.mem_of_getElem? ht
  refine ⟨t, ⟨⟨n, List.getElem?_eq_getElem hn, ht⟩, char_of_opening hmem.1 hmem.2, hspelled⟩, ?_⟩
  obtain ⟨list, hlist, us, -, hd⟩ := hspelled
  obtain ⟨vs, rfl⟩ := hd.of_opening hmem.2
  exact ⟨vs, hlist⟩

/-- The pairs of the list at a place have its location. -/
theorem loc_of_listStart {i : Nat} {way : List Turn} {vs : List Value} {head tail : Value}
    {loc loc' : Option Location}
    (hlist : Reader.place? forms (i, Turn.listStart way) = some (.ofList vs loc' .nil))
    (hpair : Reader.place? forms (i, way) = some (.pair head tail loc)) : loc = loc' := by
  obtain ⟨v, hv, hway⟩ := Option.bind_eq_some_iff.mp hpair
  -- From the start of the list only tails lead to the pair.
  obtain ⟨k, hk⟩ := Turn.exists_eq_listStart way
  have hin : v.at? (Turn.listStart way) = some (.ofList vs loc' .nil) := by
    simpa [Reader.place?, hv] using hlist
  rw [hk, Value.at?_append, hin] at hway
  exact Value.loc_of_at?_ofList hway

theorem mem_places_of_pair {i : Nat} {way : List Turn} {head tail : Value} {loc : Option Location}
    (hpair : Reader.place? forms (i, way) = some (.pair head tail loc)) :
    (i, Turn.listStart way) ∈ Reader.places forms := by
  obtain ⟨v, hv, hway⟩ := Option.bind_eq_some_iff.mp hpair
  have hlist : Turn.listStart way ∈ v.lists false ∨ false = true ∧ Turn.listStart way = [] :=
    Value.mem_lists hway
  exact Reader.mem_places hv (hlist.resolve_right (by simp))

/-- **Parentheses with one offset open one list.** -/
theorem OpenedBy.start_eq {start start' : Nat × List Turn} {t t' : Token}
    (h : source.OpenedBy forms start t) (h' : source.OpenedBy forms start' t')
    (ho : t.offset = t'.offset) : start = start' := by
  obtain ⟨n, hstart, ht⟩ := h.number
  obtain ⟨n', hstart', ht'⟩ := h'.number
  have hsorted : (Reader.openings source.lex.tokens).Pairwise fun t t' => t.stop ≤ t'.offset :=
    (source.lex_divides.pairwise rfl).filter _
  -- Of two tokens the first ends before the second begins, so it has another offset.
  have hne : ∀ {m m' : Nat} {u u' : Token}, (Reader.openings source.lex.tokens)[m]? = some u →
      (Reader.openings source.lex.tokens)[m']? = some u' → m < m' → u.offset ≠ u'.offset := by
    intro m m' u u' hu hu' hlt
    obtain ⟨hm, rfl⟩ := List.getElem?_eq_some_iff.mp hu
    obtain ⟨hm', rfl⟩ := List.getElem?_eq_some_iff.mp hu'
    have hstop := List.pairwise_iff_getElem.mp hsorted m m' hm hm' hlt
    have hmem := List.mem_of_getElem? hu
    have hwritten := (char_of_token (List.mem_of_mem_filter hmem)).2
    have hlength := List.length_pos_iff.mpr hwritten.ne_nil
    unfold Token.stop at hstop
    omega
  obtain hlt | rfl | hlt := Nat.lt_trichotomy n n'
  · exact absurd ho (hne ht ht' hlt)
  · exact Option.some.inj (hstart.symm.trans hstart')
  · exact absurd ho.symm (hne ht' ht hlt)

end Source

/-! ## Where reading fails -/

/-- **What a reading error points at.** -/
inductive ReadError.Points (source : Source) : ReadError → Prop
  /-- A closing parenthesis behind expressions that are all complete. -/
  | strayClosing {front back : List Token} {t : Token} {forms : List Value}
      (h : source.lex.tokens = front ++ t :: back) (hk : t.kind = .closing)
      (hc : source.chars[t.offset]? = some ')') (hf : Reader.DerivesEach source front forms) :
      Points source ⟨.strayClosing, t.offset⟩
  /-- An opening parenthesis behind which there are complete expressions up to the end. -/
  | unclosedList {front inner : List Token} {t : Token} {items : List Value}
      (h : source.lex.tokens = front ++ t :: inner) (hk : t.kind = .opening)
      (hc : source.chars[t.offset]? = some '(') (hi : Reader.DerivesEach source inner items)
      (hu : source.lex.unterminated = none) : Points source ⟨.unclosedList, t.offset⟩
  /-- A text that is left open. -/
  | unterminatedText {offset : Nat}
      (h : Lexer.LeftOpen source.chars source.lex.tokens offset) :
      Points source ⟨.unterminatedText, offset⟩
  /-- A closing parenthesis behind a quote mark. -/
  | nothingQuoted {front back : List Token} {quote t : Token}
      (h : source.lex.tokens = front ++ quote :: t :: back) (hq : quote.kind = .quote)
      (hk : t.kind = .closing) (hc : source.chars[t.offset]? = some ')') :
      Points source ⟨.nothingQuoted, t.offset⟩
  /-- The end of the source behind a quote mark. -/
  | nothingQuotedAtEnd {front : List Token} {quote : Token}
      (h : source.lex.tokens = front ++ [quote]) (hq : quote.kind = .quote)
      (hu : source.lex.unterminated = none) : Points source ⟨.nothingQuoted, source.chars.length⟩

namespace Reader
variable {source : Source}

theorem complete_ne_failed (pending : List Pending) (v : Value) (e : ReadError) :
    complete pending v ≠ .failed e := by
  induction pending generalizing v with
  | nil => nofun
  | cons first pending ih =>
    cases first with
    | quote => exact ih _
    | list offset items => nofun

/-- Only closing parentheses cannot stand where they are. -/
theorem feed_eq_failed {pending : List Pending} {t : Token} {e : ReadError}
    (h : feed source pending t = .failed e) : t.kind = .closing ∧
      (pending = [] ∧ e = ⟨.strayClosing, t.offset⟩ ∨
        ∃ outer, pending = .quote :: outer ∧ e = ⟨.nothingQuoted, t.offset⟩) := by
  unfold feed at h
  split at h
  · exact absurd h (complete_ne_failed _ _ _)
  · exact absurd h (complete_ne_failed _ _ _)
  · cases h
  · cases h
  · rename_i hk
    split at h
    · cases h
      exact ⟨hk, .inl ⟨rfl, rfl⟩⟩
    · cases h
      exact ⟨hk, .inr ⟨_, rfl, rfl⟩⟩
    · exact absurd h (complete_ne_failed _ _ _)

/-- **Where reading fails.**  `before` are the tokens of the forms so far, and `ts` those of what
is pending. -/
theorem points_of_readAll {before ts rest : List Token} {pending : List Pending}
    {forms : List Value} {e : ReadError} (hf : DerivesEach source before forms.reverse)
    (hp : Opens source ts pending) (hall : source.lex.tokens = before ++ ts ++ rest)
    (h : readAll source source.lex.unterminated pending forms rest = .error e) :
    e.Points source := by
  induction rest generalizing before ts pending forms with
  | nil =>
    cases hu : source.lex.unterminated with
    | some offset =>
      obtain rfl : ReadError.mk .unterminatedText offset = e := by simpa [readAll, hu] using h
      exact .unterminatedText (source.lex_divides.eq_some_iff.mp hu)
    | none =>
      cases hp with
      | nothing => simp [readAll, hu, endError?] at h
      | quote hp hq =>
        obtain rfl : ReadError.mk .nothingQuoted source.chars.length = e := by
          simpa [readAll, hu, endError?] using h
        have hsplit := hall
        rw [List.append_nil, ← List.append_assoc] at hsplit
        exact .nothingQuotedAtEnd hsplit hq hu
      | @list t _ _ _ _ hp hk hs =>
        obtain rfl : ReadError.mk .unclosedList t.offset = e := by
          simpa [readAll, hu, endError?] using h
        have hsplit := hall
        rw [List.append_nil, ← List.append_assoc] at hsplit
        exact .unclosedList hsplit hk (Source.char_of_opening (by simp [hsplit]) hk) hs hu
  | cons t rest ih =>
    have hall' : source.lex.tokens = before ++ (ts ++ [t]) ++ rest := by simpa using hall
    have hstands := opens_feed hp t
    rw [readAll] at h
    cases hfeed : feed source pending t with
    | more next =>
      rw [hfeed] at h hstands
      exact ih hf hstands hall' h
    | done form =>
      rw [hfeed] at h hstands
      have hforms : DerivesEach source (before ++ (ts ++ [t])) (form :: forms).reverse := by
        rw [List.reverse_cons]
        exact hf.append (Derives.each hstands)
      exact ih hforms .nothing (by simpa using hall') h
    | failed error =>
      rw [hfeed] at h
      obtain rfl : error = e := Except.error.inj h
      obtain ⟨hk, hcause⟩ := feed_eq_failed hfeed
      have hmem : t ∈ source.lex.tokens := by simp [hall]
      have hc := Source.char_of_closing hmem hk
      obtain ⟨rfl, rfl⟩ | ⟨outer, rfl, rfl⟩ := hcause
      · cases hp
        exact .strayClosing (by simpa using hall) hk hc hf
      · cases hp with
        | @quote quote front _ hp hq =>
          have hsplit : source.lex.tokens = (before ++ front) ++ quote :: t :: rest := by
            simpa using hall
          exact .nothingQuoted hsplit hq hk hc

end Reader

theorem ReadError.Points.offset_le {source : Source} {e : ReadError} (h : e.Points source) :
    e.offset ≤ source.chars.length := by
  have hlt : ∀ {offset : Nat} {c : Char}, source.chars[offset]? = some c →
      offset ≤ source.chars.length := fun hc => (List.getElem?_eq_some_iff.mp hc).1.le
  cases h with
  | strayClosing _ _ hc _ => exact hlt hc
  | unclosedList _ _ hc _ _ => exact hlt hc
  | unterminatedText hopen => exact hlt hopen.quote
  | nothingQuoted _ _ _ hc => exact hlt hc
  | nothingQuotedAtEnd _ _ _ => exact Nat.le_refl _

/-- **Locations point at the source exactly.**  The location of an offset is worth as much as the
offset.  A pair has the location of the parenthesis that opens its list, so pairs have the same
location if and only if they are of the same list.  An error points at what is wrong, and the text
from there on is what is unread. -/
theorem Source.locations_exact (source : Source) :
    (∀ p ≤ source.chars.length, (p : Int) =
      ((lines source.chars).take ((source.locate p).line - 1)).flatten.length +
        (source.locate p).column - 1) ∧
    (∀ p ≤ source.chars.length, ∀ q ≤ source.chars.length,
      source.locate p = source.locate q → p = q) ∧
    (∀ forms, source.parse = .ok forms →
      (Reader.places forms).length = (Reader.openings source.lex.tokens).length ∧
      ∀ i way head tail loc, Reader.place? forms (i, way) = some (.pair head tail loc) →
        (∃ t, source.OpenedBy forms (i, Turn.listStart way) t ∧
          loc = some (source.locate t.offset)) ∧
        ∀ i' way' head' tail' loc', Reader.place? forms (i', way') = some (.pair head' tail' loc') →
          (loc = loc' ↔ i = i' ∧ Turn.listStart way = Turn.listStart way')) ∧
    ∀ e, source.parse = .error e → e.Points source ∧ e.offset ≤ source.chars.length ∧
      (source.remainder e.offset).toList = source.chars.drop e.offset := by
  refine ⟨fun p hp => offset_of_locate hp, fun p hp q hq => locate_inj hp hq,
    fun forms hforms => ?_, fun e he => ?_⟩
  · refine ⟨(Source.parse_eq_ok.mp hforms).2.opened.length_eq, fun i way head tail loc hpair => ?_⟩
    obtain ⟨t, ht, vs, hlist⟩ := exists_openedBy hforms (mem_places_of_pair hpair)
    have hloc := loc_of_listStart hlist hpair
    refine ⟨⟨t, ht, hloc⟩, fun i' way' head' tail' loc' hpair' => ⟨fun heq => ?_, ?_⟩⟩
    · obtain ⟨t', ht', vs', hlist'⟩ := exists_openedBy hforms (mem_places_of_pair hpair')
      have hloc' := loc_of_listStart hlist' hpair'
      have hsame : source.locate t.offset = source.locate t'.offset :=
        Option.some.inj (hloc.symm.trans (heq.trans hloc'))
      have hle : ∀ {start t}, source.OpenedBy forms start t → t.offset ≤ source.chars.length :=
        fun h => (List.getElem?_eq_some_iff.mp h.char).1.le
      exact Prod.mk.inj (ht.start_eq ht' (locate_inj (hle ht) (hle ht') hsame))
    · rintro ⟨rfl, hstart⟩
      exact hloc.trans (loc_of_listStart (hstart ▸ hlist) hpair').symm
  · have hpoints := Reader.points_of_readAll .nil .nothing rfl he
    exact ⟨hpoints, hpoints.offset_le, String.toList_ofList⟩

/-- A list within a list, on the line below, and a list that is left open around another. -/
theorem Source.locations_exact_nested :
    let source : Source := ⟨['(', 'a', '\n', '(', 'b', ' ', 'c', ')', ')'], none⟩
    let inner : Value := .ofList [.symbol "b", .symbol "c"] (some ⟨2, 1, none⟩) .nil
    let forms := [Value.ofList [.symbol "a", inner] (some ⟨1, 1, none⟩) .nil]
    let cut : Source := ⟨['(', '(', ')'], none⟩
    source.parse = .ok forms ∧ source.locate (3 : Nat) ≠ source.locate (4 : Nat) ∧
      Reader.place? forms (0, [.tail, .head, .tail]) =
        some (.pair (.symbol "c") .nil (some ⟨2, 1, none⟩)) ∧
      (∃ t, source.OpenedBy forms (0, [.tail, .head]) t ∧
        some ⟨2, 1, none⟩ = some (source.locate t.offset)) ∧
      cut.parse = .error ⟨.unclosedList, 0⟩ ∧ ReadError.Points cut ⟨.unclosedList, 0⟩ := by
  intro source inner forms cut
  obtain ⟨-, hinj, hmarked, -⟩ := source.locations_exact
  obtain ⟨-, -, -, herror⟩ := cut.locations_exact
  have hforms : source.parse = .ok forms := rfl
  have hfails : cut.parse = .error ⟨.unclosedList, 0⟩ := rfl
  obtain ⟨ht, -⟩ := (hmarked forms hforms).2 0 [.tail, .head, .tail] _ _ _ rfl
  exact ⟨hforms, fun h => absurd (hinj 3 (by decide) 4 (by decide) h) (by decide), rfl, ht,
    hfails, (herror _ hfails).1⟩

end StackLisp
