import StackLisp.Code.Error
import StackLisp.Form
import StackLisp.Settings

/-!
# Errors

An **error** is whatever can keep a program from being read, compiled or run, in one type:
what the reader, the compiler, the machine and the settings report, and what can be wrong
with a prelude.
-/

namespace StackLisp

/-- Why a program has no result. -/
inductive Error where
  /-- The source cannot be read. -/
  | read (source : Source) (error : ReadError)
  /-- A form cannot be compiled or expanded. -/
  | compile (error : CompileError)
  /-- The machine failed. -/
  | fault (fault : Fault)
  /-- A setting is wrong. -/
  | setting (error : SettingError)
  /-- The prelude put out texts. -/
  | preludeOutput (texts : List String)
  /-- No path to look for the prelude in is left. -/
  | noPreludePath
  /-- Something without a limit took more than the fuel it was given. -/
  | outOfFuel

/-- **The wording of an error.** -/
def Error.message : Error → String
  | read source error => error.message source
  | compile error => error.message
  | fault f => f.message
  | setting error => error.message
  | preludeOutput texts =>
    "logs were printed while evaluating the prelude: " ++ ", ".intercalate texts
  | noPreludePath => "list index out of range"
  | outOfFuel => "out of fuel"

end StackLisp
