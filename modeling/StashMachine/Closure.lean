import StashMachine.Class
import StashMachine.Fault

/-!
# StashMachine.Closure — methods and constructors bound to a class

* `Callable`: a method or a constructor; `Closure`: with the frame and the name of its class.
* `Callable.descriptor`: the name with the parameter types, the key a closure is bound under.
-/

namespace StashMachine

/-- Something that can be invoked. -/
inductive Callable
  | method (decl : MethodDecl)
  | constructor (decl : ConstructorDecl)

namespace Callable

/-- The name all constructors share. -/
def constructorName : String := "<init>"

/-- The name of a callable. -/
def name : Callable → String
  | method m => m.name
  | constructor _ => constructorName

/-- The formal parameters. -/
def params : Callable → List Param
  | method m => m.params
  | constructor c => c.params

/-- The types of the formal parameters. -/
def paramTypes (c : Callable) : List TypeName := c.params.map Param.type

/-- Whether the callable runs without a receiver. -/
def isStatic : Callable → Bool
  | method m => m.isStatic
  | constructor _ => false

/-- The type of the result; a constructor gives an object of its class. -/
def result : Callable → TypeName
  | method m => m.result
  | constructor c => .named c.name

/-- The key a callable is bound under. -/
def descriptor (c : Callable) : String := StashMachine.descriptor c.name c.paramTypes

end Callable

/-- A callable with the frame and the name of its class. -/
structure Closure where
  callable : Callable
  frame : FrameId
  className : String

namespace Closure

/-- The key the closure is bound under. -/
def descriptor (c : Closure) : String := c.callable.descriptor

/-- The class and the key of a closure. -/
def text (c : Closure) : String := c.className ++ "." ++ c.descriptor

/-- The key of the closure's native code: `Class::name(T1,T2): R`. -/
def nativeName (c : Closure) : String :=
  c.className ++ "::" ++ c.descriptor ++ ": " ++ c.callable.result.text

/-- The closure, for display. -/
def term (c : Closure) : String := "Closure(" ++ c.text ++ ")"

end Closure

end StashMachine
