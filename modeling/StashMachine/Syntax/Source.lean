import StashMachine.Grammar.Trail
import StashMachine.Syntax.OfTree
import StashMachine.Text.Position

/-!
# StashMachine.Syntax.Source — programs from source text

A source is matched against the grammar and its tree is read.  A source that the grammar rejects is
faulty where it was not understood any further, an accepted one at the first literal out of range.
-/

namespace StashMachine

open Grammar

/-- Why a source is no program. -/
inductive SourceError
  /-- The grammar rejects the source, which it understands up to a place. -/
  | rejected (place : Text.Position)
  /-- A number literal at a place is out of range. -/
  | numberTooLarge (place : Text.Position)

namespace SourceError

/-- What is wrong with an accepted source. -/
def tooLargeText : String := "number too large to fit in target type"

/-- Where a source is faulty. -/
def place : SourceError → Text.Position
  | rejected p => p
  | numberTooLarge p => p

/-- What is wrong with a source. -/
def reason : SourceError → String
  | rejected _ => "not accepted by the grammar"
  | numberTooLarge _ => tooLargeText

/-- The fault of a source that the grammar rejects under a rule. -/
def ofRejection (rule : Rule) (source : String) : SourceError :=
  .rejected (Text.position source (furthest rule source))

/-- The fault of a source whose tree is misread. -/
def ofMisread (source : String) : Misread → SourceError
  | .tooLarge start => .numberTooLarge (Text.position source start)
  | .shape _ => .rejected (Text.position source 0)

end SourceError

/-- Reads a source under a rule. -/
def readSource {α : Type} (rule : Rule) (reading : Tree → Reading α) (source : String) :
    Except SourceError α :=
  match Grammar.parse? rule source with
  | none => .error (.ofRejection rule source)
  | some t => (reading t).mapError (SourceError.ofMisread source)

/-- Reads a program. -/
def Program.parse (source : String) : Except SourceError Program :=
  readSource .compilationUnit Program.ofTree source

/-- Reads a single expression. -/
def Expr.parse (source : String) : Except SourceError Expr :=
  readSource .expressionEntry Expr.ofEntry source

/-- The body of the first constructor of a program. -/
def Program.constructorBody (p : Program) : List Stmt :=
  (p.flatMap ClassDecl.body).findSome? (fun
    | .constructor c => some c.body
    | _ => none) |>.getD []

/-- Reads statements, as the body of a constructor. -/
def Stmt.parse (source : String) : Except SourceError (List Stmt) :=
  (Program.parse ("class S \x7b S() \x7b " ++ source ++ " \x7d \x7d")).map Program.constructorBody

/-- The lines of the parse tree of a program. -/
def Program.treeLines (source : String) : Except SourceError (List String) :=
  match Grammar.parse? .compilationUnit source with
  | none => .error (.ofRejection .compilationUnit source)
  | some t => .ok (t.lines 0)

end StashMachine
