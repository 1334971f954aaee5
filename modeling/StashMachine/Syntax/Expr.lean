import StashMachine.Syntax.Literal
import StashMachine.Syntax.Operator
import StashMachine.Syntax.Path

/-!
# StashMachine.Syntax.Expr — expressions
-/

namespace StashMachine

/-- An expression.  A call carries its qualifier in its name: `q.m(…)` calls `m` on `q`. -/
inductive Expr
  | literal (value : Literal)
  | name (path : Path)
  | assign (target : Path) (value : Expr)
  | compound (op : BinaryOp) (target : Path) (value : Expr)
  | increment (op : BinaryOp) (fix : Fixity) (target : Path)
  | binary (op : BinaryOp) (left right : Expr)
  | unary (op : UnaryOp) (operand : Expr)
  | call (method : Path) (args : List Expr)
  | new (className : String) (args : List Expr)
  | array (element : TypeName) (elements : List Expr)
  | void

namespace Expr

/-- The name of an expression's form. -/
def kind : Expr → String
  | literal _ => "Literal"
  | name _ => "ExpressionName"
  | assign .. => "Assignment"
  | compound .. => "Assignment"
  | increment _ .pre _ => "PreIncrementExpression"
  | increment _ .post _ => "PostIncrementExpression"
  | binary .. => "BinaryExpression"
  | unary .. => "UnaryExpression"
  | call .. => "MethodInvocation"
  | new .. => "ClassInstanceCreationExpression"
  | array .. => "ArrayCreationExpression"
  | void => "Void"

/-- The line an expression shows as while it waits to be evaluated. -/
def headline : Expr → String
  | literal l => "Literal " ++ l.text
  | name p => "ExpressionName " ++ p.text
  | call m _ => "MethodInvocation " ++ m.text
  | e => e.kind

end Expr

end StashMachine
