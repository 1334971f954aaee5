import StashMachine.Syntax.Stmt

/-!
# StashMachine.Syntax.ClassDecl — classes as written

Fields, methods and constructors, and the classes that hold them.  A program is a list of classes.
-/

namespace StashMachine

/-- A modifier keyword. -/
inductive Modifier
  | pub | priv | prot | static | final | native | abstract
deriving DecidableEq

namespace Modifier

/-- Every modifier once. -/
def all : List Modifier :=
  [pub, priv, prot, static, final, native, abstract]

/-- The keyword of a modifier. -/
def text : Modifier → String
  | pub => "public"
  | priv => "private"
  | prot => "protected"
  | static => "static"
  | final => "final"
  | native => "native"
  | abstract => "abstract"

/-- The modifier with a given keyword. -/
def ofString? (s : String) : Option Modifier := all.find? (fun m => m.text == s)

/-- A modifier is read back from its keyword. -/
theorem ofString?_text (m : Modifier) : ofString? m.text = some m := by
  cases m <;> rfl

end Modifier

/-- A formal parameter. -/
structure Param where
  type : TypeName
  name : String

/-- A field declaration, which may declare several variables of one type. -/
structure FieldDecl where
  modifiers : List Modifier
  type : TypeName
  vars : List Declarator

/-- A method declaration; a method without a body is native or left open. -/
structure MethodDecl where
  modifiers : List Modifier
  result : TypeName
  name : String
  params : List Param
  body : Option (List Stmt)

/-- A constructor declaration. -/
structure ConstructorDecl where
  modifiers : List Modifier
  name : String
  params : List Param
  body : List Stmt

/-- A member of a class body. -/
inductive Member
  | field (decl : FieldDecl)
  | method (decl : MethodDecl)
  | constructor (decl : ConstructorDecl)

/-- A class as written in source. -/
structure ClassDecl where
  modifiers : List Modifier
  name : String
  superclass : Option String
  body : List Member

/-- A program: its classes in source order. -/
abbrev Program := List ClassDecl

namespace FieldDecl

/-- Whether the field belongs to the class and not to its objects. -/
def isStatic (f : FieldDecl) : Bool := f.modifiers.contains .static

/-- Whether the declaration declares a given name. -/
def declares (f : FieldDecl) (name : String) : Bool := f.vars.any (fun d => d.name == name)

/-- The declaration cut to one of its variables. -/
def only (f : FieldDecl) (d : Declarator) : FieldDecl := { f with vars := [d] }

end FieldDecl

namespace MethodDecl

/-- Whether the method runs without a receiver. -/
def isStatic (m : MethodDecl) : Bool := m.modifiers.contains .static

/-- Whether the method's code is supplied from outside the program. -/
def isNative (m : MethodDecl) : Bool := m.modifiers.contains .native

end MethodDecl

end StashMachine
