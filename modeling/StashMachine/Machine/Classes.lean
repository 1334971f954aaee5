import StashMachine.Elaboration.Class
import StashMachine.Elaboration.Order
import StashMachine.Machine.Registers

/-!
# StashMachine.Machine.Classes — the steps of programs and classes

A program queues its classes, superclasses first, and then the call of its main method.  A class
registers itself and queues its members.
-/

namespace StashMachine
namespace Step

/-- Queues the classes of a program and the call of the first main method. -/
def start (p : Program) : Step Unit := do
  match p.find? ClassDecl.declaresMain with
  | none => throw .noMain
  | some main => do
    let classes ← ofExcept p.superclassesFirst
    let root := if p.any (fun c => c.name == rootName) then [] else [ClassDecl.root]
    schedule ((root ++ classes).map .classDecl ++ [.expr (.mainCall main.name)])

/-- The superclass of a class, which has to be registered. -/
def superclassOf (d : ClassDecl) : Step (Option Class) := do
  match d.superName? with
  | some s => return some (← ask (fun env => env.findClass s))
  | none => return none

/-- Registers a class in a frame inside that of its superclass, and queues its members: methods and
constructors from last to first, then the static fields, then the way back. -/
def elaborateClass (d : ClassDecl) : Step Unit := do
  let superclass ← superclassOf d
  let previous ← here
  extend ((superclass.map (fun s => s.frame)).getD Environment.global) d.name
  let c := d.elaborate (← here) superclass
  defineClass c
  schedule (c.instanceMethods.reverse.map .method ++ c.staticMethods.reverse.map .method
    ++ c.constructors.reverse.map .constructor ++ c.staticFields.map .field ++ [.restore previous])

/-- Binds a method or constructor in the current frame, which is that of its class. -/
def bindCallable (callable : Callable) : Step Unit := do
  let env := (← get).env
  let k : Closure := ⟨callable, env.current, env.currentName⟩
  defineClosure k

end Step
end StashMachine
