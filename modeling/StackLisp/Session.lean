import StackLisp.Prelude

/-!
# Sessions

A **session** runs programs one after the other in one image.  A program that succeeds
leaves its definitions and macros to the next; one that fails changes nothing.
-/

namespace StackLisp

/-- Programs that are run one after the other. -/
structure Session where
  image : Image
  /-- The number of steps that each program may take. -/
  stepLimit : Option Int

namespace Session

/-- A session that starts from an image.  If no limit is given, the settings have one or
not. -/
def start (image : Image) (settings : Settings) (limit : Option Int) : Except Error Session :=
  match limit with
  | some limit => .ok ⟨image, some limit⟩
  | none => do
    let limit ← settings.stepLimit.mapError .setting
    return ⟨image, limit⟩

/-- What a program of a session gives. -/
structure Answer where
  value : Value
  /-- The machine that has run the program, without the scopes it can no longer reach. -/
  machine : Machine
  /-- The session after the program. -/
  session : Session

/-- **Runs a program** and carries what it leaves into the session. -/
def eval (s : Session) (fuel : Nat) (settings : Settings) (text : String) :
    Except Error Answer := do
  let program ← s.image.prepare fuel settings (.ofString text none)
  match program.machine.run fuel s.stepLimit with
  | (_, .running) => throw .outOfFuel
  | (_, .fault f) => throw (.fault f)
  | (after, .value v) =>
    return ⟨v, after.collectGarbage, { s with image := .ofMachine after program.macros }⟩

end Session

end StackLisp
