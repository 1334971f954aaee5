import StashMachine.Syntax.ClassDecl

/-!
# StashMachine.Class — classes after elaboration

* `ClassInfo`: a class without its ancestors; `Class`: with them, closest first.
* `Class.lineage`, and the searches along it: `findField?`, `hasMethod`, `isSubclassOf`.

Searches go from the class itself to the root, so the closest declaration wins.
-/

namespace StashMachine

/-- The number of a frame of the environment. -/
abbrev FrameId := Nat

/-- A class without its ancestors.  Methods and constructors are the elaborated ones; their closures
live in `frame`. -/
structure ClassInfo where
  name : String
  frame : FrameId
  constructors : List ConstructorDecl
  instanceFields : List FieldDecl
  instanceMethods : List MethodDecl
  staticFields : List FieldDecl
  staticMethods : List MethodDecl

/-- A class with its ancestors, the closest first. -/
structure Class extends ClassInfo where
  ancestors : List ClassInfo

namespace ClassInfo

/-- All methods, instance methods first. -/
def methods (c : ClassInfo) : List MethodDecl := c.instanceMethods ++ c.staticMethods

/-- The instance fields with their types, in the order of declaration. -/
def instanceVars (c : ClassInfo) : List (String × TypeName) :=
  c.instanceFields.flatMap (fun f => f.vars.map (fun d => (d.name, f.type)))

end ClassInfo

/-- Where a field was found. -/
structure FieldInfo where
  owner : ClassInfo
  type : TypeName
  isStatic : Bool

namespace ClassInfo

/-- A field a class declares itself; static fields are searched first. -/
def ownField? (c : ClassInfo) (name : String) : Option FieldInfo :=
  match c.staticFields.find? (fun f => f.declares name) with
  | some f => some ⟨c, f.type, true⟩
  | none => (c.instanceFields.find? (fun f => f.declares name)).map (fun f => ⟨c, f.type, false⟩)

end ClassInfo

namespace Class

/-- The class and its ancestors, most derived first. -/
def lineage (c : Class) : List ClassInfo := c.toClassInfo :: c.ancestors

/-- The superclass, which the root of the hierarchy lacks. -/
def superclass? (c : Class) : Option ClassInfo := c.ancestors.head?

/-- Whether the class is, or descends from, the class of a given name. -/
def isSubclassOf (c : Class) (ancestor : String) : Bool :=
  c.lineage.any (fun d => d.name == ancestor)

/-- The closest declaration of a field, static or not. -/
def findField? (c : Class) (name : String) : Option FieldInfo :=
  c.lineage.findSome? (fun d => d.ownField? name)

/-- Whether some class of the lineage has a method of a given name. -/
def hasMethod (c : Class) (name : String) : Bool :=
  c.lineage.any (fun d => d.methods.any (fun m => m.name == name))

/-- The instance fields of the whole lineage, those of the class itself first. -/
def allInstanceVars (c : Class) : List (String × TypeName) :=
  c.lineage.flatMap ClassInfo.instanceVars

/-- The class with its superclass, for display. -/
def term (c : Class) : String :=
  match c.superclass? with
  | some s => "Class(" ++ c.name ++ " extends " ++ s.name ++ ")"
  | none => "Class(" ++ c.name ++ ")"

end Class

end StashMachine
