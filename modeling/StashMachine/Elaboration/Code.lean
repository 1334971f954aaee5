import StashMachine.Syntax.ClassDecl

/-!
# StashMachine.Elaboration.Code — code made ready to run

* `Stmt.mapParts`: changes every expression and every statement without parts, at any depth.
* `Expr.qualify`, `Stmt.qualify`: bare calls get their qualifier.
* `Stmt.returnThis`: in constructors every plain `return` gives the object back.
-/

namespace StashMachine

/-- The name of the receiver. -/
def thisName : String := "this"

/-- The name of the receiver seen as an object of the superclass. -/
def superName : String := "super"

/-- The name of the method a program starts with. -/
def mainName : String := "main"

namespace Path

/-- Puts a qualifier before a simple name; a dotted name stays. -/
def qualifiedBy (path qualifier : Path) : Path :=
  match path with
  | simple x => field qualifier x
  | field p x => field p x

end Path

namespace Expr

mutual

/-- Puts a qualifier before every bare call. -/
def qualify (q : Path) : Expr → Expr
  | call m args => call (m.qualifiedBy q) (qualifyAll q args)
  | assign t v => assign t (qualify q v)
  | compound op t v => compound op t (qualify q v)
  | binary op l r => binary op (qualify q l) (qualify q r)
  | unary op e => unary op (qualify q e)
  | new c args => new c (qualifyAll q args)
  | array t es => array t (qualifyAll q es)
  | literal l => literal l
  | name p => name p
  | increment op fix t => increment op fix t
  | void => void

/-- Puts a qualifier before every bare call of several expressions. -/
def qualifyAll (q : Path) : List Expr → List Expr
  | [] => []
  | e :: es => qualify q e :: qualifyAll q es

end

/-- The receiver. -/
def this : Expr := name (.simple thisName)

/-- The call of the main method of a class, with one empty text as its argument. -/
def mainCall (className : String) : Expr :=
  call (.field (Path.ofString className) mainName) [array .string [literal (.string "")]]

end Expr

namespace Declarator

/-- Changes the initialiser. -/
def mapInit (f : Expr → Expr) (d : Declarator) : Declarator := { d with init := d.init.map f }

end Declarator

namespace Label

/-- Changes the expression of a label. -/
def mapExpr (f : Expr → Expr) : Label → Label
  | case e => case (f e)
  | otherwise => otherwise

end Label

namespace Stmt

mutual

/-- Rebuilds a statement with `onExpr` applied to the expressions it holds and `onLeaf` to the
statements without parts. -/
def mapParts (onExpr : Expr → Expr) (onLeaf : Stmt → Stmt) : Stmt → Stmt
  | block body => block (mapAll onExpr onLeaf body)
  | declare t vars => declare t (vars.map (Declarator.mapInit onExpr))
  | expr e => expr (onExpr e)
  | ret (some e) => ret (some (onExpr e))
  | ite c yes no => ite (onExpr c) (mapParts onExpr onLeaf yes) (mapOption onExpr onLeaf no)
  | loop c body => loop (onExpr c) (mapParts onExpr onLeaf body)
  | forLoop init c update body =>
    forLoop (mapAll onExpr onLeaf init) (c.map onExpr) (mapAll onExpr onLeaf update)
      (mapParts onExpr onLeaf body)
  | switch e arms => switch (onExpr e) (mapArms onExpr onLeaf arms)
  | construct who args => construct who (args.map onExpr)
  | ret none => onLeaf (ret none)
  | breakOut => onLeaf breakOut
  | continueLoop => onLeaf continueLoop
  | empty => onLeaf empty

/-- `mapParts` on every statement of a list. -/
def mapAll (onExpr : Expr → Expr) (onLeaf : Stmt → Stmt) : List Stmt → List Stmt
  | [] => []
  | s :: ss => mapParts onExpr onLeaf s :: mapAll onExpr onLeaf ss

/-- `mapParts` on a statement that may be missing. -/
def mapOption (onExpr : Expr → Expr) (onLeaf : Stmt → Stmt) : Option Stmt → Option Stmt
  | none => none
  | some s => some (mapParts onExpr onLeaf s)

/-- `mapParts` on the groups of a `switch`. -/
def mapArms (onExpr : Expr → Expr) (onLeaf : Stmt → Stmt) : List (Arm Stmt) → List (Arm Stmt)
  | [] => []
  | ⟨labels, body⟩ :: arms =>
    ⟨labels.map (Label.mapExpr onExpr), mapAll onExpr onLeaf body⟩ :: mapArms onExpr onLeaf arms

end

/-- Puts a qualifier before every bare call of a statement. -/
def qualify (q : Path) (s : Stmt) : Stmt := s.mapParts (Expr.qualify q) id

/-- `return this;` -/
def retThis : Stmt := ret (some Expr.this)

/-- Turns a plain `return` into one that gives the receiver back. -/
def retThisLeaf : Stmt → Stmt
  | ret none => retThis
  | s => s

/-- Turns every plain `return` into one that gives the receiver back. -/
def returnThis (s : Stmt) : Stmt := s.mapParts id retThisLeaf

/-- Adds a statement at the end of a body that does not end with a `return`. -/
def withTrailing (tail : Stmt) (body : List Stmt) : List Stmt :=
  match body.getLast? with
  | some s => if s.isRet then body else body ++ [tail]
  | none => [tail]

end Stmt

end StashMachine
