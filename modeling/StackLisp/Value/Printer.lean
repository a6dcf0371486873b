import StackLisp.Value.Basic
import StackLisp.Number.Numeral

/-!
# The text of a value

This is how a value is shown to whoever runs a program: lists in parentheses, with a dot
before an improper end, texts without quotes, and functions by a word only.
-/

namespace StackLisp.Value

/-- The text of a value that has no parts to show; a pair or a quoted value has none. -/
def atomText : Value → String
  | nil => "'()"
  | bool true => "true"
  | bool false => "false"
  | number x => Numeral.write x
  | text s => s
  | symbol name => name
  | template _ _ => "LambdaDefinition(...)"
  | closure _ _ _ => "Lambda(...)"
  | quoted _ => ""
  | pair _ _ _ => ""

mutual

/-- **The text of a value.** -/
def toText : Value → String
  | pair head tail _ => "(" ++ " ".intercalate (toText head :: tailWords tail) ++ ")"
  | quoted v => "'" ++ toText v
  | v => atomText v

/-- The words that follow the first element of a list: the further elements, and a dot
with the end of an improper list. -/
def tailWords : Value → List String
  | nil => []
  | pair head tail _ => toText head :: tailWords tail
  | quoted v => [".", "'" ++ toText v]
  | v => [".", atomText v]

end

/-- The text of the proper list of some values. -/
def listText (vs : List Value) : String :=
  if vs.isEmpty then "'()" else "(" ++ " ".intercalate (vs.map toText) ++ ")"

end StackLisp.Value
