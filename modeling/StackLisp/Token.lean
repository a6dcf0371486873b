import StackLisp.Location
import StackLisp.Text.Blank

/-!
# Tokens

The text of a program is a row of **tokens** with blanks and comments between them.
The lexer reads one character at a time.  What it has to remember is a **mode**: whether
it stands between tokens or inside a comment, a text or a word.  A character either
extends what the mode has begun, or ends it and begins something else.

So lexing is a fold over the characters, and it can go wrong in one way only: the
program ends inside a text.
-/

namespace StackLisp

/-- The kinds of tokens. -/
inductive TokenKind where
  /-- A quote mark. -/
  | quote
  /-- An opening parenthesis. -/
  | opening
  /-- A closing parenthesis. -/
  | closing
  /-- Characters between double quotes. -/
  | text
  /-- Any other run of characters: a number, a boolean or a symbol. -/
  | word
  deriving DecidableEq, Repr

/-- A token, with the characters it is written with and the offset it starts at. -/
structure Token where
  kind : TokenKind
  chars : List Char
  offset : Nat
  deriving DecidableEq, Repr

/-- The tokens of a source, and the offset of a text that never ends. -/
structure Lexed where
  /-- The tokens before the failure, or all of them. -/
  tokens : List Token
  /-- Where the text starts that has no closing quote. -/
  unterminated : Option Nat
  deriving DecidableEq, Repr

namespace Lexer

/-- What the lexer is in the middle of.  Characters are kept with the latest first. -/
inductive Mode where
  /-- Between tokens. -/
  | between
  /-- In a comment. -/
  | comment
  /-- In a text that starts at `start`. -/
  | text (start : Nat) (seen : List Char)
  /-- In a word that starts at `start`. -/
  | word (start : Nat) (seen : List Char)
  deriving DecidableEq, Repr

/-- The lexer between two characters. -/
structure State where
  /-- The offset of the next character. -/
  offset : Nat
  mode : Mode
  /-- The tokens so far, the latest first. -/
  found : List Token
  deriving DecidableEq, Repr

/-- The lexer before the first character. -/
def State.initial : State := ⟨0, .between, []⟩

/-- May the character stand inside a word?  A quote mark may, but not at the front. -/
def isWordChar (c : Char) : Bool :=
  !(Text.isBlank c || c == '(' || c == ')' || c == '"' || c == ';')

/-- What a character at `offset` begins when it stands between tokens: a token of its own,
if it is one, and the mode that follows. -/
def enter (offset : Nat) (c : Char) : List Token × Mode :=
  if Text.isBlank c then ([], .between)
  else if c = ';' then ([], .comment)
  else if c = '\'' then ([⟨.quote, [c], offset⟩], .between)
  else if c = '(' then ([⟨.opening, [c], offset⟩], .between)
  else if c = ')' then ([⟨.closing, [c], offset⟩], .between)
  else if c = '"' then ([], .text offset [c])
  else ([], .word offset [c])

/-- What a character does in a mode: the tokens it completes, the latest first, and the
mode that follows. -/
def Mode.read (offset : Nat) (c : Char) : Mode → List Token × Mode
  | between => enter offset c
  | comment => if c = '\n' then ([], .between) else ([], .comment)
  | text start seen =>
    if c = '"' then ([⟨.text, (c :: seen).reverse, start⟩], .between)
    else ([], .text start (c :: seen))
  | word start seen =>
    if isWordChar c then ([], .word start (c :: seen))
    else
      let (tokens, mode) := enter offset c
      (tokens ++ [⟨.word, seen.reverse, start⟩], mode)

/-- One character is read. -/
def State.read (s : State) (c : Char) : State :=
  let (tokens, mode) := s.mode.read s.offset c
  ⟨s.offset + 1, mode, tokens ++ s.found⟩

/-- The end of the source completes a word and leaves a text without its end. -/
def State.finish (s : State) : Lexed :=
  match s.mode with
  | .between | .comment => ⟨s.found.reverse, none⟩
  | .text start _ => ⟨s.found.reverse, some start⟩
  | .word start seen => ⟨(⟨.word, seen.reverse, start⟩ :: s.found).reverse, none⟩

/-- Several characters are read. -/
def State.scan (s : State) (cs : List Char) : State :=
  cs.foldl read s

/-- **Reading goes on where it stopped**: what has been read is in the state. -/
theorem State.scan_append (s : State) (cs ds : List Char) :
    s.scan (cs ++ ds) = (s.scan cs).scan ds :=
  List.foldl_append

end Lexer

/-- **The tokens of a source.** -/
def Source.lex (s : Source) : Lexed :=
  (Lexer.State.initial.scan s.chars).finish

end StackLisp
