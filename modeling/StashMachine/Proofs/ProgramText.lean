import StashMachine.Proofs.Rendering
import Mathlib.Data.List.Basic

/-!
# StashMachine.Proofs.ProgramText — programs written as text

* `Stmt.tokens`, `Member.tokens`, `ClassDecl.tokens`, `Program.tokens`: one way to write a program as tokens, and
  `Program.text`: the tokens with a blank between any two of them.
* `Program.exprs`, `Program.hasDouble`: the expressions of a program, and whether one of them holds a double.
* `Stmt.isOpen`: whether an `else` behind a statement would become a part of it.
* `Stmt.Writable`, …, `Program.Writable`: what is read back once it is written.  A statement in front of an `else` is not
  open, a group of a `switch` without statements is the last one, and a constructor begins with no plain call of `this`
  or `super`.
-/

namespace StashMachine

open Grammar

/-! ### Tokens -/

/-- The tokens of a variable of a declaration. -/
def Declarator.tokens (d : Declarator) : List Token := d.name :: d.init.elim [] (fun e => "=" :: e.tokens)

/-- The tokens of a label. -/
def Label.tokens : Label → List Token
  | case e => "case" :: (e.tokens ++ [":"])
  | otherwise => ["default", ":"]

namespace Stmt

/-- The tokens of a declaration or an expression in the header of a `for`. -/
def headTokens : Stmt → List Token
  | declare t vars => t.text :: commas (vars.map Declarator.tokens)
  | expr e => e.tokens
  | _ => []

mutual

/-- The tokens of a statement. -/
def tokens : Stmt → List Token
  | block body => "\x7b" :: (tokensAll body ++ ["\x7d"])
  | declare t vars => t.text :: (commas (vars.map Declarator.tokens) ++ [";"])
  | expr e => e.tokens ++ [";"]
  | ret value => "return" :: (value.elim [] Expr.tokens ++ [";"])
  | ite c yes no => "if" :: (bracketed c.tokens ++ (tokens yes ++ elseTokens no))
  | loop c body => "while" :: (bracketed c.tokens ++ tokens body)
  | forLoop init c update body =>
    "for" :: "(" :: (commas (init.map headTokens) ++ ";" :: (c.elim [] Expr.tokens ++ ";" ::
      (commas (update.map headTokens) ++ ")" :: tokens body)))
  | switch e arms => "switch" :: (bracketed e.tokens ++ "\x7b" :: (armsTokens arms ++ ["\x7d"]))
  | breakOut => ["break", ";"]
  | continueLoop => ["continue", ";"]
  | empty => [";"]
  | construct who args => who.text :: (bracketed (commas (args.map Expr.tokens)) ++ [";"])

/-- The tokens of statements, one after the other. -/
def tokensAll : List Stmt → List Token
  | [] => []
  | s :: ss => tokens s ++ tokensAll ss

/-- The tokens of the branch behind an `else`, which may be missing. -/
def elseTokens : Option Stmt → List Token
  | none => []
  | some s => "else" :: tokens s

/-- The tokens of the groups of a `switch`. -/
def armsTokens : List (Arm Stmt) → List Token
  | [] => []
  | ⟨labels, body⟩ :: arms => labels.flatMap Label.tokens ++ (tokensAll body ++ armsTokens arms)

end

theorem tokensAll_eq (ss : List Stmt) : tokensAll ss = ss.flatMap tokens := by
  induction ss with
  | nil => rfl
  | cons s ss ih => rw [tokensAll, ih, List.flatMap_cons]

end Stmt

/-- The tokens of a formal parameter. -/
def Param.tokens (p : Param) : List Token := [p.type.text, p.name]

/-- The tokens of formal parameters. -/
def paramTokens (ps : List Param) : List Token := bracketed (commas (ps.map Param.tokens))

/-- The tokens of modifiers. -/
def modifierTokens (ms : List Modifier) : List Token := ms.map Modifier.text

/-- The tokens of a field declaration. -/
def FieldDecl.tokens (f : FieldDecl) : List Token :=
  modifierTokens f.modifiers ++ f.type.text :: (commas (f.vars.map Declarator.tokens) ++ [";"])

/-- The tokens of a method declaration. -/
def MethodDecl.tokens (m : MethodDecl) : List Token :=
  modifierTokens m.modifiers ++ m.result.text :: m.name ::
    (paramTokens m.params ++ m.body.elim [";"] (fun body => (Stmt.block body).tokens))

/-- The tokens of a constructor declaration. -/
def ConstructorDecl.tokens (k : ConstructorDecl) : List Token :=
  modifierTokens k.modifiers ++ k.name :: (paramTokens k.params ++ (Stmt.block k.body).tokens)

/-- The tokens of a member of a class. -/
def Member.tokens : Member → List Token
  | field f => f.tokens
  | method m => m.tokens
  | constructor k => k.tokens

/-- The tokens of a class. -/
def ClassDecl.tokens (d : ClassDecl) : List Token :=
  modifierTokens d.modifiers ++ "class" :: d.name :: (d.superclass.elim [] (fun s => ["extends", s]) ++
    "\x7b" :: (d.body.flatMap Member.tokens ++ ["\x7d"]))

/-- The tokens of a program. -/
def Program.tokens (p : Program) : List Token := p.flatMap ClassDecl.tokens

/-- A program as text: its tokens with a blank between any two of them. -/
def Program.text (p : Program) : String := String.intercalate " " p.tokens

/-- Tokens with blanks between them are laid out. -/
theorem laid_intercalate (us : List Token) : Laid us (String.intercalate " " us).toList := by
  induction us with
  | nil => exact .nil
  | cons t us ih =>
    cases us with
    | nil =>
      rw [String.intercalate_singleton]
      exact .last
    | cons u us =>
      have hgap : IsGap " ".toList := ⟨' ', [], rfl, rfl, .nil⟩
      rw [String.intercalate_cons_cons, String.toList_append, String.toList_append, List.append_assoc]
      exact .more hgap ih

/-! ### Expressions of a program -/

/-- The expression that a variable of a declaration begins with. -/
def Declarator.exprs (d : Declarator) : List Expr := d.init.toList

/-- The expression of a label. -/
def Label.exprs : Label → List Expr
  | case e => [e]
  | otherwise => []

namespace Stmt

mutual

/-- The expressions of a statement. -/
def exprs : Stmt → List Expr
  | block body => exprsAll body
  | declare _ vars => vars.flatMap Declarator.exprs
  | expr e => [e]
  | ret value => value.toList
  | ite c yes no => c :: (exprs yes ++ elseExprs no)
  | loop c body => c :: exprs body
  | forLoop init c update body => exprsAll init ++ (c.toList ++ (exprsAll update ++ exprs body))
  | switch e arms => e :: armsExprs arms
  | construct _ args => args
  | breakOut | continueLoop | empty => []

/-- The expressions of statements. -/
def exprsAll : List Stmt → List Expr
  | [] => []
  | s :: ss => exprs s ++ exprsAll ss

/-- The expressions of the branch behind an `else`, which may be missing. -/
def elseExprs : Option Stmt → List Expr
  | none => []
  | some s => exprs s

/-- The expressions of the groups of a `switch`. -/
def armsExprs : List (Arm Stmt) → List Expr
  | [] => []
  | ⟨labels, body⟩ :: arms => labels.flatMap Label.exprs ++ (exprsAll body ++ armsExprs arms)

end

theorem exprsAll_eq (ss : List Stmt) : exprsAll ss = ss.flatMap exprs := by
  induction ss with
  | nil => rfl
  | cons s ss ih => rw [exprsAll, ih, List.flatMap_cons]

end Stmt

/-- The expressions of a member of a class. -/
def Member.exprs : Member → List Expr
  | field f => f.vars.flatMap Declarator.exprs
  | method m => m.body.elim [] Stmt.exprsAll
  | constructor k => Stmt.exprsAll k.body

/-- The expressions of a program. -/
def Program.exprs (p : Program) : List Expr := p.flatMap (fun d => d.body.flatMap Member.exprs)

/-- Whether an expression of a program holds a double. -/
def Program.hasDouble (p : Program) : Bool := p.exprs.any Expr.hasDouble

/-! ### What can be written -/

/-- An expression that can be written: it is proper and holds no double. -/
structure Expr.Writable (e : Expr) : Prop where
  proper : e.Proper
  noDouble : e.hasDouble = false

/-- Whether an expression may stand as a statement. -/
def Expr.isStatement : Expr → Bool
  | assign .. | compound .. | increment .. | call .. | new .. => true
  | _ => false

/-- The type of a variable. -/
structure TypeName.Writable (t : TypeName) : Prop where
  text : IsTypeText t.text.toList
  read : TypeName.ofString t.text = t

/-- A variable of a declaration. -/
structure Declarator.Writable (d : Declarator) : Prop where
  name : Rule.identifier.Spells d.name.toList
  init : ∀ e ∈ d.init, e.Writable

/-- A label. -/
def Label.Writable : Label → Prop
  | case e => e.Writable
  | otherwise => True

namespace Stmt

/-- Whether a statement is a local declaration. -/
def isDeclaration : Stmt → Bool
  | declare .. => true
  | _ => false

/-- Whether a statement is an expression. -/
def isExpr : Stmt → Bool
  | expr _ => true
  | _ => false

/-- Whether a statement is a call that a constructor takes for the call of another one, if it begins with it. -/
def isDelegation : Stmt → Bool
  | expr (.call (.simple x) _) => x == "this" || x == "super"
  | _ => false

mutual

/-- Whether an `else` behind a statement would become a part of it. -/
def isOpen : Stmt → Bool
  | ite _ _ no => isOpenElse no
  | loop _ body | forLoop _ _ _ body => isOpen body
  | _ => false

/-- Whether an `else` behind the branch for the other case would become a part of the statement. -/
def isOpenElse : Option Stmt → Bool
  | none => true
  | some s => isOpen s

end

/-- A statement of a block that can be written. -/
inductive Writable : Stmt → Prop
  | block {body : List Stmt} : (∀ s ∈ body, Writable s) → Writable (.block body)
  | declare {t : TypeName} {vars : List Declarator} : t.Writable → vars ≠ [] → (∀ v ∈ vars, v.Writable) →
    Writable (.declare t vars)
  | expr {e : Expr} : e.Writable → e.isStatement = true → Writable (.expr e)
  | ret {value : Option Expr} : (∀ e ∈ value, e.Writable) → Writable (.ret value)
  | ite {c : Expr} {yes : Stmt} : c.Writable → Writable yes → yes.isDeclaration = false → Writable (.ite c yes none)
  | iteElse {c : Expr} {yes no : Stmt} : c.Writable → Writable yes → yes.isDeclaration = false → yes.isOpen = false →
    Writable no → no.isDeclaration = false → Writable (.ite c yes (some no))
  | loop {c : Expr} {body : Stmt} : c.Writable → Writable body → body.isDeclaration = false → Writable (.loop c body)
  | forLoop {init : List Stmt} {c : Option Expr} {update : List Stmt} {body : Stmt} : (∀ s ∈ init, Writable s) →
    ((∀ s ∈ init, s.isExpr = true) ∨ ∃ s, init = [s] ∧ s.isDeclaration = true) → (∀ e ∈ c, e.Writable) →
    (∀ s ∈ update, Writable s) → (∀ s ∈ update, s.isExpr = true) → Writable body → body.isDeclaration = false →
    Writable (.forLoop init c update body)
  | switch {e : Expr} {arms : List (Arm Stmt)} : e.Writable →
    (∀ arm ∈ arms, arm.labels ≠ [] ∧ ∀ l ∈ arm.labels, l.Writable) → (∀ arm ∈ arms, ∀ s ∈ arm.body, Writable s) →
    (∀ arm ∈ arms.dropLast, arm.body ≠ []) → Writable (.switch e arms)
  | breakOut : Writable .breakOut
  | continueLoop : Writable .continueLoop
  | empty : Writable .empty

end Stmt

/-- A formal parameter. -/
structure Param.Writable (p : Param) : Prop where
  type : p.type.Writable
  name : Rule.identifier.Spells p.name.toList

/-- A field declaration. -/
structure FieldDecl.Writable (f : FieldDecl) : Prop where
  type : f.type.Writable
  some : f.vars ≠ []
  vars : ∀ v ∈ f.vars, v.Writable

/-- A method declaration. -/
structure MethodDecl.Writable (m : MethodDecl) : Prop where
  result : m.result = .void ∨ m.result.Writable
  name : Rule.identifier.Spells m.name.toList
  params : ∀ p ∈ m.params, p.Writable
  body : ∀ body ∈ m.body, ∀ s ∈ body, s.Writable

/-- The body of a constructor: statements, the first of which may call another constructor. -/
inductive Stmt.BodyWritable : List Stmt → Prop
  | plain {body : List Stmt} : (∀ s ∈ body, s.Writable) → (∀ s ∈ body.head?, s.isDelegation = false) → BodyWritable body
  | delegating {who : Delegate} {args : List Expr} {body : List Stmt} : (∀ e ∈ args, e.Writable) →
    (∀ s ∈ body, s.Writable) → BodyWritable (.construct who args :: body)

/-- A constructor declaration. -/
structure ConstructorDecl.Writable (k : ConstructorDecl) : Prop where
  name : Rule.identifier.Spells k.name.toList
  params : ∀ p ∈ k.params, p.Writable
  body : Stmt.BodyWritable k.body

/-- A member of a class. -/
def Member.Writable : Member → Prop
  | field f => f.Writable
  | method m => m.Writable
  | constructor k => k.Writable

/-- A class. -/
structure ClassDecl.Writable (d : ClassDecl) : Prop where
  name : Rule.identifier.Spells d.name.toList
  superclass : ∀ s ∈ d.superclass, Rule.identifier.Spells s.toList
  body : ∀ m ∈ d.body, m.Writable

/-- A program. -/
def Program.Writable (p : Program) : Prop := ∀ d ∈ p, d.Writable

end StashMachine
