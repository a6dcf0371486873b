import StackLisp.Value.Printer

/-!
# Listings

A **listing** shows code one instruction a line, with its position and its operands.  The
code of each template that is pushed follows after the code that pushes it, further
indented.
-/

namespace StackLisp

/-- A position in code, filled up with zeros to four characters.  A minus sign is one of
them. -/
def positionText (position : Int) : String :=
  let digits := Nat.toDigits 10 position.natAbs
  let sign := if position < 0 then ['-'] else []
  String.ofList (sign ++ List.replicate (4 - sign.length - digits.length) '0' ++ digits)

/-- The offset of a jump, always with its sign. -/
def offsetText (offset : Int) : String :=
  if offset < 0 then toString offset else "+" ++ toString offset

/-- The parameter list as it is written in a program. -/
def Parameters.listText (params : Parameters) : String :=
  let names := match params.rest with
    | none => params.required
    | some rest => params.required ++ [".", rest]
  "(" ++ " ".intercalate names ++ ")"

/-- The operands of the instruction at a position. -/
def Instruction.operandText (position : Nat) : Instruction → String
  | pushConst (.template params _) => " <template " ++ params.listText ++ ">"
  | pushConst v => " " ++ v.toText
  | lookup name => " " ++ name
  | define name => " " ++ name
  | jumpIfTruthy offset | jumpIfFalsy offset =>
    " " ++ offsetText offset ++ " -> " ++ positionText (position + 1 + offset)
  | call argc => " argc=" ++ toString argc
  | callPrimitive name argc => " " ++ name ++ " argc=" ++ toString argc
  | _ => ""

namespace Code

/-- The lines of the instructions from a position on, without the templates they push. -/
def lines (indent : String) : Nat → Code → List String
  | _, [] => []
  | position, i :: code =>
    (indent ++ positionText position ++ ": " ++ i.mnemonic ++ i.operandText position)
      :: lines indent (position + 1) code

end Code

mutual

/-- The blocks of all templates that code pushes, in order. -/
def templateBlocks (indent : String) : Nat → List Instruction → List String
  | _, [] => []
  | position, i :: code => i.blocks indent position ++ templateBlocks indent (position + 1) code

/-- The block of a template that an instruction pushes. -/
def Instruction.blocks (indent : String) (position : Nat) : Instruction → List String
  | .pushConst v => v.blocks indent position
  | _ => []

/-- The header of a template and the listing of its code. -/
def Value.blocks (indent : String) (position : Nat) : Value → List String
  | .template _ code =>
    [indent ++ "-- template @" ++ positionText position ++ " --",
     "\n".intercalate
       (Code.lines (indent ++ "  ") 0 code ++ templateBlocks (indent ++ "  ") 0 code)]
  | _ => []

end

/-- **The listing of code**, each line of it indented. -/
def Code.listing (indent : String) (code : Code) : String :=
  "\n".intercalate (Code.lines indent 0 code ++ templateBlocks indent 0 code)

end StackLisp
