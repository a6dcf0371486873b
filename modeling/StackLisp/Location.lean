/-!
# Sources and locations

A **source** is the text of a program and the name of the file it came from, if it has
one.  An **offset** counts characters from the start of the text; a **location** says
the same as a line and a column, both counted from one.  Only the newline character
ends a line.

Walking over a character moves a location on (`Location.next`), and the location of an
offset is where the walk over the characters before it ends.

Any integer can be asked for its location.  A negative one has the line of the character
that it counts back to from the end of the text, and an offset outside the text has the
column that it would have if the first or the last line went on.
-/

namespace StackLisp

/-- A place in a source, as it is shown to a reader. -/
structure Location where
  /-- The line, counted from one. -/
  line : Nat
  /-- The column, counted from one. -/
  column : Int
  /-- The file that the source came from. -/
  file : Option String
  deriving DecidableEq, Repr

namespace Location

/-- The location after a character. -/
def next (l : Location) (c : Char) : Location :=
  if c = '\n' then { l with line := l.line + 1, column := 1 }
  else { l with column := l.column + 1 }

/-- The location as text.  A file without a name is left out. -/
def text (l : Location) : String :=
  let place := toString l.line ++ ":" ++ toString l.column
  match l.file with
  | none => place
  | some file => if file = "" then place else file ++ ":" ++ place

end Location

/-- The text of a program and where it came from. -/
structure Source where
  /-- The characters of the program. -/
  chars : List Char
  /-- The name of the file. -/
  file : Option String
  deriving DecidableEq, Repr

namespace Source

/-- The source with the given text. -/
def ofString (text : String) (file : Option String) : Source :=
  ⟨text.toList, file⟩

/-- The characters of a file with every line ended by a newline alone: a carriage return
counts as the end of a line, and together with a newline as one end. -/
def unifyNewlines : List Char → List Char
  | '\r' :: '\n' :: cs => '\n' :: unifyNewlines cs
  | '\r' :: cs => '\n' :: unifyNewlines cs
  | c :: cs => c :: unifyNewlines cs
  | [] => []

/-- The source that a file holds. -/
def ofFile (content name : String) : Source :=
  ⟨unifyNewlines content.toList, some name⟩

/-- Where every source starts. -/
def start (s : Source) : Location :=
  ⟨1, 1, s.file⟩

/-- The number of characters before an offset.  A negative offset counts back from the end,
and there are never less than none and more than all. -/
def charsBefore (s : Source) (offset : Int) : Nat :=
  if offset < 0 then (offset + s.chars.length).toNat else Nat.min offset.toNat s.chars.length

/-- **The location of an offset.**  The walk over the characters before it gives the line, and
the column is moved on by what the offset has beyond them. -/
def locate (s : Source) (offset : Int) : Location :=
  let before := s.charsBefore offset
  let l := (s.chars.take before).foldl Location.next s.start
  { l with column := l.column + (offset - before) }

/-- The text from an offset on. -/
def remainder (s : Source) (offset : Nat) : String :=
  String.ofList (s.chars.drop offset)

end Source

end StackLisp
