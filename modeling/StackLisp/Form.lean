import StackLisp.Token
import StackLisp.Value.List
import StackLisp.Number.Numeral

/-!
# Forms

A **form** is a value that was read from the tokens of a source: a word, a text, a
quoted form, or a list of forms in parentheses.

The reader takes one token at a time.  It remembers what is **pending** around the place
where it stands: the quote marks and the opened lists, from the innermost outwards.  A
token either leaves something pending or completes a form, and a completed form is
handed to what is pending around it.  Each token is looked at once, so reading is
recursion on the tokens.

A reading error is a reason and an offset; location and unread text follow from them.
-/

namespace StackLisp

/-- Why a source cannot be read. -/
inductive ReadReason where
  /-- A text has no closing quote. -/
  | unterminatedText
  /-- A quote mark has nothing to quote. -/
  | nothingQuoted
  /-- A list is still open at the end. -/
  | unclosedList
  /-- A closing parenthesis closes nothing. -/
  | strayClosing
  deriving DecidableEq, Repr

/-- The wording of a reason. -/
def ReadReason.message : ReadReason → String
  | unterminatedText => "Unterminated string literal"
  | nothingQuoted => "Expected an expression after quote"
  | unclosedList => "Unexpected end of input, unmatched '('"
  | strayClosing => "Unexpected ')'"

/-- A reading error, at an offset of the source. -/
structure ReadError where
  reason : ReadReason
  offset : Nat
  deriving DecidableEq, Repr

/-- The error as text, with the location in front. -/
def ReadError.message (e : ReadError) (source : Source) : String :=
  (source.locate e.offset).text ++ ": " ++ e.reason.message

/-- The value of a word: a number if it is a numeral, a boolean, or else a symbol. -/
def readWord (word : String) : Value :=
  match Numeral.read? word with
  | some x => .number x
  | none =>
    if word = "true" then .bool true
    else if word = "false" then .bool false
    else .symbol word

namespace Reader

/-- What waits for a form to be completed. -/
inductive Pending where
  /-- A quote mark. -/
  | quote
  /-- A list opened at `offset`, with its items so far, the latest first. -/
  | list (offset : Nat) (items : List Value)

/-- What the reader has after a token. -/
inductive Progress where
  /-- More tokens are needed. -/
  | more (pending : List Pending)
  /-- A whole form has been read. -/
  | done (form : Value)
  /-- The token cannot stand here.  It is not taken. -/
  | failed (error : ReadError)

/-- A completed form is handed to what is pending around it. -/
def complete : List Pending → Value → Progress
  | [], form => .done form
  | .quote :: pending, form => complete pending (.quoted form)
  | .list offset items :: pending, form => .more (.list offset (form :: items) :: pending)

/-- **What a token does.** -/
def feed (source : Source) (pending : List Pending) (t : Token) : Progress :=
  match t.kind with
  | .word => complete pending (readWord (String.ofList t.chars))
  | .text => complete pending (.text (String.ofList t.chars.tail.dropLast))
  | .quote => .more (.quote :: pending)
  | .opening => .more (.list t.offset [] :: pending)
  | .closing =>
    match pending with
    | [] => .failed ⟨.strayClosing, t.offset⟩
    | .quote :: _ => .failed ⟨.nothingQuoted, t.offset⟩
    | .list offset items :: outer =>
      complete outer (.ofList items.reverse (some (source.locate offset)) .nil)

/-- What is wrong when the tokens end while something is pending. -/
def endError? (source : Source) : List Pending → Option ReadError
  | [] => none
  | .quote :: _ => some ⟨.nothingQuoted, source.chars.length⟩
  | .list offset _ :: _ => some ⟨.unclosedList, offset⟩

/-- The forms of the tokens, after `forms`, the latest first, with `pending` around. -/
def readAll (source : Source) (unterminated : Option Nat) :
    List Pending → List Value → List Token → Except ReadError (List Value)
  | pending, forms, [] =>
    match unterminated, endError? source pending with
    | some offset, _ => .error ⟨.unterminatedText, offset⟩
    | none, some error => .error error
    | none, none => .ok forms.reverse
  | pending, forms, t :: ts =>
    match feed source pending t with
    | .more pending => readAll source unterminated pending forms ts
    | .done form => readAll source unterminated [] (form :: forms) ts
    | .failed error => .error error

end Reader

/-- **The forms of a source.** -/
def Source.parse (source : Source) : Except ReadError (List Value) :=
  let lexed := source.lex
  Reader.readAll source lexed.unterminated [] [] lexed.tokens

/-! ## Reading form by form -/

/-- A source that is being read form by form: what is left of its tokens, and the
failure that waits at their end.  The failure is met once; after it the stream is at
its end. -/
structure TokenStream where
  source : Source
  /-- The tokens that have not been taken: first any that have been looked at already, and behind
  them those that nobody has asked for yet. -/
  tokens : List Token
  unterminated : Option Nat

namespace TokenStream

/-- The stream at the start of a source. -/
def ofSource (source : Source) : TokenStream :=
  ⟨source, source.lex.tokens, source.lex.unterminated⟩

/-- What waits at the end of the tokens: the failure, which is thereby met, or nothing. -/
def atEnd (s : TokenStream) : Except ReadError Unit × TokenStream :=
  match s.unterminated with
  | some offset => (.error ⟨.unterminatedText, offset⟩, { s with unterminated := none })
  | none => (.ok (), s)

/-- The next token, which is left in place.  A token that has been looked at is among those of the
stream as before, so looking at it changes nothing; only looking past the last one meets the
failure that waits there. -/
def peek (s : TokenStream) : Except ReadError (Option Token) × TokenStream :=
  match s.tokens with
  | t :: _ => (.ok (some t), s)
  | [] => (s.atEnd.1.map fun _ => none, s.atEnd.2)

/-- The next token, which is taken. -/
def advance (s : TokenStream) : Except ReadError (Option Token) × TokenStream :=
  match s.tokens with
  | t :: ts => (.ok (some t), { s with tokens := ts })
  | [] => s.peek

/-- What the tokens lead to, with `pending` around: a form, a failure, or the need for
more tokens than there are.  The tokens that were not taken are left. -/
def formFrom (source : Source) : List Reader.Pending → List Token → Reader.Progress × List Token
  | pending, [] => (.more pending, [])
  | pending, t :: ts =>
    match Reader.feed source pending t with
    | .more pending => formFrom source pending ts
    | .done form => (.done form, ts)
    | .failed error => (.failed error, t :: ts)

/-- **The next form**, `none` at the end of the source.  What was taken before an error
stays taken. -/
def form (s : TokenStream) : Except ReadError (Option Value) × TokenStream :=
  match formFrom s.source [] s.tokens with
  | (.done form, ts) => (.ok (some form), { s with tokens := ts })
  | (.failed error, ts) => (.error error, { s with tokens := ts })
  | (.more pending, ts) =>
    match ({ s with tokens := ts } : TokenStream).atEnd with
    | (.error error, s) => (.error error, s)
    | (.ok _, s) =>
      match Reader.endError? s.source pending with
      | some error => (.error error, s)
      | none => (.ok none, s)

end TokenStream

end StackLisp
