import StashMachine.Class
import StashMachine.Elaboration.Code

/-!
# StashMachine.Elaboration.Class — the classes that run

The members a class runs with, made from those it was written with.  A constructor first runs the
constructor of the superclass, unless it delegates to another constructor of its own class; then it
sets the fields of its class, runs its own body, and returns the object on every way out.
-/

namespace StashMachine

/-- The name of the root of the hierarchy. -/
def rootName : String := "Object"

namespace ConstructorDecl

/-- The constructor of a class that declares none. -/
def implicit (className : String) : ConstructorDecl := ⟨[.pub], className, [], []⟩

/-- The statement that sets a field. -/
def setField (name : String) (value : Expr) : Stmt :=
  .expr (.assign (.field (.simple thisName) name) value)

/-- The statements that set the fields of a class, each to its initialiser or else to the default of
its type. -/
def setFields (fields : List FieldDecl) : List Stmt :=
  fields.flatMap (fun f => f.vars.map (fun d =>
    setField d.name (d.init.getD (.literal (Literal.default f.type)))))

/-- A constructor's body before calls are qualified: the explicit or implicit constructor call, the
fields, and the rest. -/
def arrange (fields : List FieldDecl) (hasSuper : Bool) : List Stmt → List Stmt
  | .construct .this args :: rest => .construct .this args :: rest
  | .construct .super args :: rest => .construct .super args :: (setFields fields ++ rest)
  | body => (if hasSuper then [.construct .super []] else []) ++ setFields fields ++ body

/-- The constructor that runs. -/
def elaborate (fields : List FieldDecl) (hasSuper : Bool) (c : ConstructorDecl) : ConstructorDecl :=
  { c with
    body := Stmt.withTrailing Stmt.retThis
      ((arrange fields hasSuper c.body).map (fun s => (s.qualify (.simple thisName)).returnThis)) }

end ConstructorDecl

namespace MethodDecl

/-- The qualifier of the bare calls of a method. -/
def qualifier (m : MethodDecl) (className : String) : Path :=
  if m.isStatic then Path.ofString className else .simple thisName

/-- The method that runs: bare calls qualified, and a `return` at the end. -/
def elaborate (className : String) (m : MethodDecl) : MethodDecl :=
  { m with
    body := m.body.map (fun body =>
      Stmt.withTrailing (.ret none) (body.map (Stmt.qualify (m.qualifier className)))) }

/-- Whether the method is one a program can start with. -/
def isMain (m : MethodDecl) : Bool :=
  m.name == mainName && m.modifiers.contains .pub && m.isStatic && m.result == .void
    && m.params.map Param.type == [.array .string]

end MethodDecl

namespace FieldDecl

/-- The static field that is set up: bare calls qualified. -/
def elaborate (className : String) (f : FieldDecl) : FieldDecl :=
  { f with vars := f.vars.map (Declarator.mapInit (Expr.qualify (Path.ofString className))) }

end FieldDecl

namespace ClassDecl

/-- The fields of a class. -/
def fields (d : ClassDecl) : List FieldDecl :=
  d.body.filterMap (fun | .field f => some f | _ => none)

/-- The methods of a class. -/
def methods (d : ClassDecl) : List MethodDecl :=
  d.body.filterMap (fun | .method m => some m | _ => none)

/-- The constructors of a class, with the implicit one if it declares none. -/
def constructors (d : ClassDecl) : List ConstructorDecl :=
  match d.body.filterMap (fun | .constructor c => some c | _ => none) with
  | [] => [.implicit d.name]
  | cs => cs

/-- Whether a program can start in the class. -/
def declaresMain (d : ClassDecl) : Bool := d.methods.any MethodDecl.isMain

/-- The class at the root of the hierarchy, for programs that do not declare it. -/
def root : ClassDecl := ⟨[.pub], rootName, none, [.constructor (.implicit rootName)]⟩

/-- The name of the superclass; every class but the root has one. -/
def superName? (d : ClassDecl) : Option String :=
  match d.superclass with
  | some s => some s
  | none => if d.name = rootName then none else some rootName

/-- The class that runs, given its frame and its superclass. -/
def elaborate (d : ClassDecl) (frame : FrameId) (superclass : Option Class) : Class :=
  let instanceFields := d.fields.filter (fun f => !f.isStatic)
  { name := d.name
    frame := frame
    constructors := d.constructors.map (.elaborate instanceFields superclass.isSome)
    instanceFields := instanceFields
    instanceMethods := (d.methods.filter (fun m => !m.isStatic)).map (.elaborate d.name)
    staticFields := (d.fields.filter FieldDecl.isStatic).map (.elaborate d.name)
    staticMethods := (d.methods.filter MethodDecl.isStatic).map (.elaborate d.name)
    ancestors := (superclass.map Class.lineage).getD [] }

end ClassDecl

end StashMachine
