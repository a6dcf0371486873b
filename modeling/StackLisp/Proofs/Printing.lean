import StackLisp.Proofs.Grammar
import StackLisp.Proofs.Number.Numeral

/-!
# Printing and reading

A value is **readable** if it is made of finite numbers, booleans, readable names, quoted values and
proper lists that are not empty.  **Reading the text of a readable value gives that value**, up to
locations (`Source.exists_parse_toText`).

The printer knows nothing of tokens, and the lexer nothing of values.  They meet in what a row of
characters **spells** (`Spells`): a lexer that stands between tokens makes of them the tokens of
an expression for a value.  A word may still be unfinished where the characters end, so that a
character that cannot stand in a word has to follow; in a list that is a blank or the closing
parenthesis, and no two tokens run into each other.
-/

namespace StackLisp

/-! ## Readable values -/

/-- **A name that is read as itself.**  It is a word, and none that stands for a number or for a
boolean. -/
structure ReadableName (name : String) : Prop where
  ne_empty : name ≠ ""
  wordChars : ∀ c ∈ name.toList, Lexer.isWordChar c = true
  head : name.toList.head? ≠ some '\''
  no_numeral : Numeral.read? name = none
  ne_true : name ≠ "true"
  ne_false : name ≠ "false"

theorem ReadableName.readWord {name : String} (h : ReadableName name) :
    readWord name = .symbol name := by
  rw [StackLisp.readWord, h.no_numeral]
  simp [h.ne_true, h.ne_false]

theorem readWord_true : readWord "true" = .bool true := by
  have hnone : Numeral.read? "true" = none := by decide +kernel
  rw [readWord, hnone]
  rfl

theorem readWord_false : readWord "false" = .bool false := by
  have hnone : Numeral.read? "false" = none := by decide +kernel
  rw [readWord, hnone]
  rfl

namespace Numeral

theorem readWord_write {x : Float} (h : Double.isFinite x = true) :
    readWord (write x) = .number x := by
  rw [readWord, read?_write h]

theorem write_ne_empty {x : Float} (h : Double.isFinite x = true) : write x ≠ "" := by
  intro hempty
  have hread := read?_write h
  rw [hempty] at hread
  cases hread

end Numeral

namespace Value

/-- **A value whose text is read as the value.** -/
inductive Readable : Value → Prop
  | number {x : Float} (h : Double.isFinite x = true) : Readable (.number x)
  | bool (b : Bool) : Readable (.bool b)
  | symbol {name : String} (h : ReadableName name) : Readable (.symbol name)
  | quoted {v : Value} (h : Readable v) : Readable (.quoted v)
  /-- A proper list that is not empty, wherever its pairs were read. -/
  | list {v : Value} {items : List Value} (hv : v.list? = some items) (hne : items ≠ [])
      (h : ∀ item ∈ items, Readable item) : Readable v

/-- A proper list is empty, or a pair with a proper list behind it. -/
theorem list_cases {v : Value} {items : List Value} (h : v.list? = some items) :
    v = nil ∧ items = [] ∨ ∃ head tail loc rest, v = pair head tail loc ∧ items = head :: rest ∧
      tail.list? = some rest := by
  have helements := Code.elements_of_list? h
  unfold list? at h
  split at h
  · rename_i hnil
    cases v with
    | nil => exact .inl ⟨rfl, helements.symm⟩
    | pair head tail loc =>
      have htail : tail.list? = some tail.elements := if_pos hnil
      exact .inr ⟨head, tail, loc, tail.elements, rfl, helements.symm, htail⟩
    | _ => cases hnil
  · cases h

theorem tailWords_of_list? {v : Value} {items : List Value} (h : v.list? = some items) :
    v.tailWords = items.map toText := by
  induction items generalizing v with
  | nil =>
    obtain ⟨rfl, -⟩ | ⟨_, _, _, _, _, hnil, -⟩ := list_cases h
    · rfl
    · cases hnil
  | cons item items ih =>
    obtain ⟨-, hnil⟩ | ⟨head, tail, loc, rest, rfl, hitems, htail⟩ := list_cases h
    · cases hnil
    · cases hitems
      rw [tailWords, ih htail, List.map_cons]

/-- The text of a proper list is made of those of its items. -/
theorem toText_of_list? {v item : Value} {items : List Value}
    (h : v.list? = some (item :: items)) :
    v.toText = "(" ++ " ".intercalate ((item :: items).map toText) ++ ")" := by
  obtain ⟨-, hnil⟩ | ⟨head, tail, loc, rest, rfl, hitems, htail⟩ := list_cases h
  · cases hnil
  · cases hitems
    rw [toText, tailWords_of_list? htail, List.map_cons]

/-- A proper list is made of its items, up to locations. -/
theorem bare_of_list? {v : Value} {items : List Value} (h : v.list? = some items) :
    v.bare = ofList (items.map bare) none nil := by
  induction items generalizing v with
  | nil =>
    obtain ⟨rfl, -⟩ | ⟨_, _, _, _, _, hnil, -⟩ := list_cases h
    · rfl
    · cases hnil
  | cons item items ih =>
    obtain ⟨-, hnil⟩ | ⟨head, tail, loc, rest, rfl, hitems, htail⟩ := list_cases h
    · cases hnil
    · cases hitems
      rw [bare, ih htail]
      rfl

end Value

/-! ## Characters -/

namespace Lexer

theorem isWordChar_of_isDigit {c : Char} (h : c.isDigit = true) : isWordChar c = true := by
  simp only [Char.isDigit, Bool.and_eq_true, decide_eq_true_eq, ge_iff_le] at h
  obtain ⟨hlow, hhigh⟩ := h
  have hlow : 48 ≤ c.toNat := hlow
  have hhigh : c.toNat ≤ 57 := hhigh
  have hblank : Text.isBlank c = false := by
    simp only [Text.isBlank, Text.blankRanges, List.any_eq_false, List.forall_mem_cons,
      Bool.and_eq_true, decide_eq_true_eq]
    simp
    omega
  have hne : ∀ d : Char, ¬ (48 ≤ d.toNat ∧ d.toNat ≤ 57) → (c == d) = false := by
    intro d hd
    rw [beq_eq_false_iff_ne]
    rintro rfl
    exact hd ⟨hlow, hhigh⟩
  simp [isWordChar, hblank, hne '(' (by decide), hne ')' (by decide), hne '"' (by decide),
    hne ';' (by decide)]

/-- The characters of a number are those of a word, and it is not empty. -/
theorem isWordChar_of_mem_write {x : Float} (h : Double.isFinite x = true) :
    ∀ c ∈ (Numeral.write x).toList, isWordChar c = true ∧ c ≠ '\'' := by
  intro c hc
  rw [Numeral.write_toList h, List.mem_append] at hc
  have hdigit : ∀ d : Char, d.isDigit = true → isWordChar d = true ∧ d ≠ '\'' := by
    refine fun d hd => ⟨isWordChar_of_isDigit hd, ?_⟩
    rintro rfl
    exact absurd hd (by decide)
  rcases hc with hc | hc
  · obtain rfl : c = '-' := by
      cases hsign : Double.isNegative x <;> simp [hsign] at hc
      exact hc
    decide
  · rcases Decimal.mem_plain hc with hc | rfl
    · exact hdigit c hc
    · decide

end Lexer

/-! ## What characters spell -/

section Spells
variable {source : Source}

/-- **The characters of an expression**: from between two tokens, the lexer makes of them the tokens
of an expression, which stands for the value up to locations. -/
def Spells (source : Source) (cs : List Char) (v : Value) : Prop :=
  ∀ (offset : Nat) (found : List Token), ∃ s ts w,
    Lexer.State.scan ⟨offset, .between, found⟩ cs = s ∧ s.mode.Open ∧
      s.finish.tokens = found.reverse ++ ts ∧ Reader.Derives source ts w ∧ w.bare = v.bare

/-- A value that is written as a word and read from it. -/
theorem spells_word {v : Value} {word : String} (htext : v.toText = word)
    (hread : readWord word = v) (hne : word ≠ "")
    (h : ∀ c ∈ word.toList, Lexer.isWordChar c = true) (hq : word.toList.head? ≠ some '\'') :
    Spells source v.toText.toList v := by
  intro offset found
  rw [htext]
  obtain ⟨c, rest, heq⟩ := List.exists_cons_of_ne_nil (mt String.toList_eq_nil_iff.mp hne)
  rw [heq] at h hq
  obtain ⟨hc, hrest⟩ := List.forall_mem_cons.mp h
  have hquote : c ≠ '\'' := fun heq => hq (congrArg some heq)
  have hscan : Lexer.State.scan ⟨offset, .between, found⟩ (c :: rest) =
      ⟨offset + 1 + rest.length, .word offset (rest.reverse ++ [c]), found⟩ := by
    show Lexer.State.scan (Lexer.State.read _ c) rest = _
    rw [Lexer.State.read_word hc hquote, Lexer.State.scan_word hrest]
  have hword : String.ofList (c :: rest) = word := by rw [← heq, String.ofList_toList]
  refine ⟨_, [⟨.word, c :: rest, offset⟩], _, heq ▸ hscan, ?_, ?_, .word rfl, ?_⟩
  · trivial
  · simp [Lexer.State.finish]
  · rw [hword, hread]

theorem Spells.quoted {cs : List Char} {v : Value} (h : Spells source cs v) :
    Spells source ('\'' :: cs) (.quoted v) := by
  intro offset found
  obtain ⟨s, ts, w, hscan, hopen, htokens, hw, hbare⟩ :=
    h (offset + 1) (⟨.quote, ['\''], offset⟩ :: found)
  refine ⟨s, ⟨.quote, ['\''], offset⟩ :: ts, .quoted w, ?_, hopen, ?_, .quote rfl hw,
    congrArg Value.quoted hbare⟩
  · rw [← hscan, ← Lexer.State.read_quote]
    rfl
  · simpa using htokens

/-- **Further expressions in a list**, each after a blank.  The word before them may still be
unfinished. -/
theorem exists_scan_items {texts : List String} {items : List Value}
    (h : List.Forall₂ (fun text item => Spells source text.toList item) texts items)
    {s : Lexer.State} (hs : s.mode.Open) :
    ∃ s' ts ws, s.scan (texts.flatMap fun text => ' ' :: text.toList) = s' ∧ s'.mode.Open ∧
      s'.finish.tokens = s.finish.tokens ++ ts ∧ Reader.DerivesEach source ts ws ∧
      ws.map Value.bare = items.map Value.bare := by
  induction h generalizing s with
  | nil => exact ⟨s, [], [], rfl, hs, by simp, .nil, rfl⟩
  | @cons text item texts items htext _ ih =>
    obtain ⟨s₁, ts, w, hscan, hopen, htokens, hw, hbare⟩ :=
      htext (s.offset + 1) s.finish.tokens.reverse
    obtain ⟨s₂, us, ws, hscan', hopen', htokens', hws, hbares⟩ := ih hopen
    refine ⟨s₂, ts ++ us, w :: ws, ?_, hopen', ?_, .cons hw hws, ?_⟩
    · rw [List.flatMap_cons, List.cons_append]
      show Lexer.State.scan (s.read ' ') (text.toList ++ _) = s₂
      rw [Lexer.State.read_delimiter hs (by decide), Lexer.State.read_blank (by decide),
        Lexer.State.scan_append, hscan, hscan']
    · rw [htokens', htokens, List.reverse_reverse, List.append_assoc]
    · simp [hbare, hbares]

theorem intercalate_toList (text : String) (texts : List String) :
    (" ".intercalate (text :: texts)).toList =
      text.toList ++ texts.flatMap fun text => ' ' :: text.toList := by
  induction texts generalizing text with
  | nil => simp [String.intercalate_singleton]
  | cons next texts ih =>
    rw [String.intercalate_cons_cons, String.toList_append, String.toList_append, ih]
    simp

/-- **A list in parentheses** spells the list of what its items spell. -/
theorem spells_list {text : String} {texts : List String} {v item : Value} {items : List Value}
    (hv : v.list? = some (item :: items)) (hfirst : Spells source text.toList item)
    (h : List.Forall₂ (fun text item => Spells source text.toList item) texts items) :
    Spells source ("(" ++ " ".intercalate (text :: texts) ++ ")").toList v := by
  intro offset found
  obtain ⟨s₁, ts, w, hscan, hopen, htokens, hw, hbare⟩ :=
    hfirst (offset + 1) (⟨.opening, ['('], offset⟩ :: found)
  obtain ⟨s₂, us, ws, hscan', hopen', htokens', hws, hbares⟩ := exists_scan_items h hopen
  have hitems : (w :: ws).map Value.bare = (item :: items).map Value.bare := by
    simp [hbare, hbares]
  refine ⟨s₂.read ')', ⟨.opening, ['('], offset⟩ :: (ts ++ us) ++ [⟨.closing, [')'], s₂.offset⟩],
    _, ?_, ?_, ?_, .list rfl rfl (.cons hw hws), ?_⟩
  · have hchars : ("(" ++ " ".intercalate (text :: texts) ++ ")").toList =
        '(' :: (text.toList ++ (texts.flatMap fun text => ' ' :: text.toList)) ++ [')'] := by
      rw [String.toList_append, String.toList_append, intercalate_toList]
      rfl
    rw [hchars, Lexer.State.scan_append]
    show Lexer.State.read (Lexer.State.scan (Lexer.State.read _ '(') _) ')' = _
    rw [Lexer.State.read_opening, Lexer.State.scan_append, hscan, hscan']
  · -- The parenthesis ends the last item, which may be a word.
    rw [Lexer.State.read_delimiter hopen' (by decide), Lexer.State.read_closing]
    trivial
  · rw [Lexer.State.read_delimiter hopen' (by decide), Lexer.State.read_closing]
    show (_ :: s₂.finish.tokens.reverse).reverse = _
    simp [htokens', htokens]
  · -- Both are lists of the same items up to locations.
    rw [Value.bare_ofList, hitems, Value.bare_of_list? hv]
    rfl

/-- **The text of a readable value spells the value.** -/
theorem Value.Readable.spells {v : Value} (h : v.Readable) : Spells source v.toText.toList v := by
  induction h with
  | @number x h =>
    have htext : (Value.number x).toText = Numeral.write x := by
      simp only [Value.toText, Value.atomText]
    exact spells_word htext (Numeral.readWord_write h) (Numeral.write_ne_empty h)
      (fun c hc => (Lexer.isWordChar_of_mem_write h c hc).1)
      fun hq => (Lexer.isWordChar_of_mem_write h _ (List.mem_of_mem_head? hq)).2 rfl
  | bool b =>
    cases b with
    | true =>
      exact spells_word rfl readWord_true (by decide) (List.all_eq_true.mp rfl) (by decide)
    | false =>
      exact spells_word rfl readWord_false (by decide) (List.all_eq_true.mp rfl) (by decide)
  | @symbol name h =>
    have htext : (Value.symbol name).toText = name := by
      simp only [Value.toText, Value.atomText]
    exact spells_word htext h.readWord h.ne_empty h.wordChars h.head
  | @quoted v _ ih =>
    have hchars : (Value.quoted v).toText.toList = '\'' :: v.toText.toList := by
      rw [Value.toText, String.toList_append]
      rfl
    rw [hchars]
    exact ih.quoted
  | @list v items hv hne _ ih =>
    obtain ⟨item, items, rfl⟩ := List.exists_cons_of_ne_nil hne
    obtain ⟨hfirst, hrest⟩ := List.forall_mem_cons.mp ih
    rw [Value.toText_of_list? hv, List.map_cons]
    refine spells_list hv hfirst ?_
    rw [List.forall₂_map_left_iff, List.forall₂_same]
    exact hrest

end Spells

/-- **Reading undoes printing.**  The text of a readable value is read as one form, which is the
value up to locations: with the same names and with the same bits in its numbers. -/
theorem Source.exists_parse_toText {v : Value} (h : v.Readable) (file : Option String) :
    ∃ w, (Source.ofString v.toText file).parse = .ok [w] ∧ w.bare = v.bare := by
  have hspells : Spells (Source.ofString v.toText file) v.toText.toList v := h.spells
  obtain ⟨s, ts, w, hscan, hopen, htokens, hw, hbare⟩ := hspells 0 []
  have hlex : (Source.ofString v.toText file).lex = s.finish := congrArg Lexer.State.finish hscan
  refine ⟨w, Source.parse_eq_ok.mpr ⟨?_, ?_⟩, hbare⟩
  · rw [hlex]
    exact Lexer.State.unterminated_of_open hopen
  · rw [hlex, htokens]
    exact hw.each

/-- A negative zero, a quoted point and a boolean, in a list that was read elsewhere. -/
theorem Source.exists_parse_toText_list :
    let zero : Value := .number (Double.ofWord true 0)
    let v : Value := .ofList [zero, .quoted (.symbol "."), .bool true] (some ⟨3, 5, none⟩) .nil
    v.Readable ∧ v.toText = "(-0 '. true)" ∧
      ∃ w, (Source.ofString v.toText none).parse = .ok [w] ∧ w.bare = v.bare := by
  intro zero v
  have hpoint : ReadableName "." :=
    ⟨by decide, List.all_eq_true.mp rfl, by decide, by decide +kernel, by decide, by decide⟩
  have hitems : ∀ item ∈ [zero, .quoted (.symbol "."), .bool true], item.Readable := by
    simp only [List.forall_mem_cons]
    exact ⟨.number (by decide +kernel), .quoted (.symbol hpoint), .bool true,
      List.forall_mem_nil _⟩
  have hv : v.Readable := .list (Value.list?_ofList _ _) (List.cons_ne_nil _ _) hitems
  exact ⟨hv, by decide +kernel, Source.exists_parse_toText hv none⟩

end StackLisp
