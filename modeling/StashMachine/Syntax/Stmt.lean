import StashMachine.Syntax.Expr

/-!
# StashMachine.Syntax.Stmt — statements
-/

namespace StashMachine

/-- One variable of a declaration, with its initialiser if it has one. -/
structure Declarator where
  name : String
  init : Option Expr

/-- What a group of a `switch` is entered on. -/
inductive Label
  | case (value : Expr)
  | otherwise

/-- A group of a `switch`: its labels and what runs from there on. -/
structure Arm (α : Type) where
  labels : List Label
  body : List α

/-- Whose constructor an explicit constructor call runs. -/
inductive Delegate
  | this | super
deriving DecidableEq

/-- A statement. -/
inductive Stmt
  | block (body : List Stmt)
  | declare (type : TypeName) (vars : List Declarator)
  | expr (value : Expr)
  | ret (value : Option Expr)
  | ite (cond : Expr) (yes : Stmt) (no : Option Stmt)
  | loop (cond : Expr) (body : Stmt)
  | forLoop (init : List Stmt) (cond : Option Expr) (update : List Stmt) (body : Stmt)
  | switch (subject : Expr) (arms : List (Arm Stmt))
  | breakOut
  | continueLoop
  | empty
  | construct (who : Delegate) (args : List Expr)

namespace Label

/-- Whether the label is `default`. -/
def isOtherwise : Label → Bool
  | otherwise => true
  | case _ => false

end Label

namespace Delegate

/-- The keyword of a delegate, which is also the name of the receiver's variable. -/
def text : Delegate → String
  | this => "this"
  | super => "super"

end Delegate

namespace Stmt

/-- The name of a statement's form. -/
def kind : Stmt → String
  | block _ => "Block"
  | declare .. => "LocalVariableDeclarationStatement"
  | expr _ => "ExpressionStatement"
  | ret _ => "ReturnStatement"
  | ite .. => "IfStatement"
  | loop .. => "WhileStatement"
  | forLoop .. => "BasicForStatement"
  | switch .. => "SwitchStatement"
  | breakOut => "BreakStatement"
  | continueLoop => "ContinueStatement"
  | empty => "EmptyStatement"
  | construct .. => "ExplicitConstructorInvocation"

/-- Whether the statement is a `return`. -/
def isRet : Stmt → Bool
  | ret _ => true
  | _ => false

end Stmt

end StashMachine
