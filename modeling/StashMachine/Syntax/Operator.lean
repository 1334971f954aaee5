/-!
# StashMachine.Syntax.Operator — operators

The binary and unary operators of the language, their symbols, and the two positions an increment can
take.
-/

namespace StashMachine

/-- The binary operators, in the order arithmetic, comparison, equality, logic. -/
inductive BinaryOp
  | add | sub | mul | div | rem
  | lt | le | gt | ge
  | eq | ne
  | and | or
deriving DecidableEq

/-- The unary operators. -/
inductive UnaryOp
  | minus | plus | not
deriving DecidableEq

/-- Where an increment stands: `++x` yields the new value, `x++` the old one. -/
inductive Fixity
  | pre | post
deriving DecidableEq

namespace BinaryOp

/-- The spelling of an operator. -/
def symbol : BinaryOp → String
  | add => "+" | sub => "-" | mul => "*" | div => "/" | rem => "%"
  | lt => "<" | le => "<=" | gt => ">" | ge => ">="
  | eq => "==" | ne => "!="
  | and => "&&" | or => "||"

/-- Every operator once. -/
def all : List BinaryOp := [add, sub, mul, div, rem, lt, le, gt, ge, eq, ne, and, or]

/-- The operator with a given spelling. -/
def ofSymbol? (s : String) : Option BinaryOp := all.find? (fun op => op.symbol == s)

/-- The five operators that compute a number (or join texts). -/
def isArithmetic : BinaryOp → Bool
  | add | sub | mul | div | rem => true
  | _ => false

/-- An operator is read back from its spelling. -/
theorem ofSymbol?_symbol (op : BinaryOp) : ofSymbol? op.symbol = some op := by
  cases op <;> rfl

end BinaryOp

end StashMachine
