import StackLisp.Path
import StackLisp.Text.Integer
import StackLisp.Text.Quoted

/-!
# Settings

A host may set texts in its environment: a **step limit** for programs and macros, a
**threshold** for the collection of scopes, whether **listings** are wanted, and where the
prelude is.  A text is looked at only when its setting is needed, so a bad one does no
harm before.
-/

namespace StackLisp

/-- What is wrong with the text of a setting. -/
inductive SettingError where
  /-- The text is no integer. -/
  | notInteger (name text : String)
  /-- The integer is below zero. -/
  | negative (name : String) (value : Int)
  deriving DecidableEq, Repr

/-- The wording of the error. -/
def SettingError.message : SettingError → String
  | notInteger name text => name ++ " must be an integer, got " ++ Text.quote text
  | negative name value => name ++ " must not be negative, got " ++ toString value

/-- The settings, as the texts that the environment has for them. -/
structure Settings where
  stepLimitText : Option String
  thresholdText : Option String
  listingText : Option String
  preludePathText : Option String

namespace Settings

/-- Nothing is set. -/
def unset : Settings := ⟨none, none, none, none⟩

/-- The natural number that a variable is set to.  A text of blanks sets nothing. -/
def natural? (name : String) (text : Option String) : Except SettingError (Option Nat) :=
  match text with
  | none => .ok none
  | some text =>
    if Text.strip text = "" then .ok none
    else
      match Text.readInt? text with
      | none => .error (.notInteger name text)
      | some value =>
        if value < 0 then .error (.negative name value) else .ok (some value.toNat)

/-- The paths that a variable is set to, with colons between them. -/
def paths (text : Option String) (defaults : List Path) : List Path :=
  match text with
  | none => defaults
  | some text =>
    if text = "" then defaults
    else ((text.splitOn ":").map Text.strip).filterMap fun name =>
      if name = "" then none else some (Path.ofString name)

/-- The number of steps that a program or the body of a macro may take. -/
def stepLimit (s : Settings) : Except SettingError (Option Int) := do
  return (← natural? "KAPPA_STEP_LIMIT" s.stepLimitText).map fun n => (n : Int)

/-- The threshold when none is set. -/
def defaultThreshold : Nat := 4096

/-- The number of new scopes after which a machine collects scopes. -/
def gcThreshold (s : Settings) : Except SettingError Int := do
  return (← natural? "KAPPA_GC_THRESHOLD" s.thresholdText).getD defaultThreshold

/-- Are listings wanted? -/
def wantsListing (s : Settings) : Bool :=
  s.listingText.any (· ≠ "")

/-- The name of the prelude's file. -/
def preludeFile : String := "std.lisp"

/-- The directory of the prelude: the first path that is set, or the directory it is in
if it is no directory itself.  There is none if no path is left. -/
def preludeRoot? (s : Settings) (installed : Path) (isDirectory : Path → Bool) : Option Path :=
  match paths s.preludePathText [installed.child "prelude"] with
  | [] => none
  | path :: _ => some (if isDirectory path then path else path.parent)

/-- The path of the prelude's file. -/
def preludePath? (s : Settings) (installed : Path) (isDirectory : Path → Bool) : Option Path :=
  (s.preludeRoot? installed isDirectory).map (·.child preludeFile)

end Settings

end StackLisp
