import StashMachine.Decimal.Text
import StashMachine.Syntax.TypeName

/-!
# StashMachine.Syntax.Literal — constants

Constants with their types, the constant a fresh field of a type holds, and the way a constant is
written.
-/

namespace StashMachine

/-- A constant. -/
inductive Literal
  | int (n : Int32)
  | long (n : Int64)
  | double (x : Float)
  | boolean (b : Bool)
  | char (c : Char)
  | string (s : String)
  | null

namespace Literal

/-- The type of a literal. -/
def type : Literal → TypeName
  | int _ => .primitive .int
  | long _ => .primitive .long
  | double _ => .primitive .double
  | boolean _ => .primitive .boolean
  | char _ => .primitive .char
  | string _ => .string
  | null => .null

/-- What a field of a type holds before it is assigned. -/
def default : TypeName → Literal
  | .primitive .byte => int 0
  | .primitive .short => int 0
  | .primitive .int => int 0
  | .primitive .long => long 0
  | .primitive .float => double 0
  | .primitive .double => double 0
  | .primitive .char => char (Char.ofNat 0)
  | .primitive .boolean => boolean false
  | _ => null

/-- Writes a literal; nothing inside quotes is escaped. -/
def text : Literal → String
  | int n => toString n.toInt
  | long n => toString n.toInt ++ "L"
  | double x => Decimal.text x
  | boolean b => if b then "true" else "false"
  | char c => "'" ++ c.toString ++ "'"
  | string s => "\"" ++ s ++ "\""
  | null => "null"

end Literal

end StashMachine
