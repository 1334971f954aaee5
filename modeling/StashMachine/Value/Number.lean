import StashMachine.Decimal.Text
import StashMachine.Syntax.TypeName

/-!
# StashMachine.Value.Number — numbers

The three kinds of numbers a value can be.  The smaller integral types and `float` are kinds of
variables only: their values are held as `int` and `double`.
-/

namespace StashMachine

/-- A number. -/
inductive Number
  | int (n : Int32)
  | long (n : Int64)
  | double (x : Float)

namespace Number

/-- The number as a `long`; a double is cut toward zero and held at the ends of the range, and what is
no number is zero. -/
def toInt64 : Number → Int64
  | int n => n.toInt64
  | long n => n
  | double x => x.toInt64

/-- The number as an `int`: a `long` loses its high bits, a double is cut toward zero and held at the
ends of the range. -/
def toInt32 : Number → Int32
  | int n => n
  | long n => n.toInt32
  | double x => x.toInt32

/-- The number as a double: the one nearest to the integer it stands for. -/
def toFloat : Number → Float
  | int n => Float.ofInt n.toInt
  | long n => Float.ofInt n.toInt
  | double x => x

/-- The type of a number. -/
def type : Number → TypeName
  | int _ => .primitive .int
  | long _ => .primitive .long
  | double _ => .primitive .double

/-- Writes a number. -/
def text : Number → String
  | int n => toString n.toInt
  | long n => toString n.toInt
  | double x => Decimal.text x

/-- Writes a number with its kind. -/
def term : Number → String
  | int n => "Int(" ++ toString n.toInt ++ ")"
  | long n => "Long(" ++ toString n.toInt ++ ")"
  | double x => "Double(" ++ Decimal.text x ++ ")"

/-- Whether the number is a double. -/
def isDouble : Number → Bool
  | double _ => true
  | _ => false

/-- Whether the number is a `long`. -/
def isLong : Number → Bool
  | long _ => true
  | _ => false

/-- Whether two numbers are of one kind and equal. -/
def same : Number → Number → Bool
  | int a, int b => a == b
  | long a, long b => a == b
  | double a, double b => a == b
  | _, _ => false

/-- Whether two numbers are equal after promotion to a common kind. -/
def equal (a b : Number) : Bool :=
  if a.isDouble || b.isDouble then a.toFloat == b.toFloat else a.toInt64 == b.toInt64

end Number

end StashMachine
