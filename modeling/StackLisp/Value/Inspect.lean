import StackLisp.Value.Basic
import StackLisp.Number.Numeral
import StackLisp.Text.Quoted

/-!
# The constructor view of a value

For someone who looks into a scope, a value is shown by what it is made of: each kind of
value by its own word, numbers with their point and texts in quotes.
-/

namespace StackLisp.Value

/-- **The constructor view of a value.** -/
def inspect : Value → String
  | nil => "Nil"
  | bool true => "True"
  | bool false => "False"
  | number x => Numeral.inspect x
  | text s => Text.quote s
  | symbol name => "Symbol(" ++ Text.quote name ++ ")"
  | quoted v => "Quoted(value=" ++ inspect v ++ ")"
  | pair head tail _ => "Pair(head=" ++ inspect head ++ ", tail=" ++ inspect tail ++ ")"
  | template _ _ => "LambdaDefinition(...)"
  | closure _ _ _ => "Lambda(...)"

end StackLisp.Value
