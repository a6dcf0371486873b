import StackLisp.Code.Listing
import StackLisp.Macro.Expand

/-!
# Images

An **image** is what one program leaves to the next: an arena, with the definitions in its
global scope, and a table of macros.  Preparing a source in an image reads it, expands it,
compiles it and makes a machine that is about to run it.
-/

namespace StackLisp

/-- What a program starts from. -/
structure Image where
  arena : Arena
  macros : MacroTable

/-- A program that is ready to run. -/
structure Program where
  machine : Machine
  /-- The macros after the program's own definitions. -/
  macros : MacroTable
  /-- The listing of the code, if it is wanted. -/
  listing : Option String

namespace Image

/-- The image without definitions and macros. -/
def empty : Image := ⟨.empty, .empty⟩

/-- How a listing starts. -/
def listingTitle (source : Source) : String :=
  let name := source.file.getD ""
  "disassembly of " ++ (if name = "" then "<source>" else name) ++ ":\n"

/-- **A source made ready to run** in an image. -/
def prepare (image : Image) (fuel : Nat) (settings : Settings) (source : Source) :
    Except Error Program := do
  let forms ← source.parse.mapError (.read source)
  let (forms, macros) ← image.macros.expandProgram settings fuel forms
  let code ← (Code.ofProgram image.arena.globalNames forms).mapError .compile
  let listing :=
    if settings.wantsListing then some (listingTitle source ++ code.listing "") else none
  let threshold ← settings.gcThreshold.mapError .setting
  return ⟨.ofProgram code image.arena threshold, macros, listing⟩

/-- The image that a machine leaves: the scopes that it can still reach, and the macros. -/
def ofMachine (m : Machine) (macros : MacroTable) : Image :=
  ⟨m.collectGarbage.arena, macros⟩

end Image

end StackLisp
