import StashMachine.Elaboration.Code
import StashMachine.Machine.Variables
import StashMachine.Native.Basic
import StashMachine.Resolution.Typing

/-!
# StashMachine.Machine.Dispatch — the steps of calls

A call types its qualifier and arguments, selects a method, evaluates the arguments and invokes the
closure.  The queued invocation takes one argument more as soon as the method turns out to need a
receiver.
-/

namespace StashMachine
namespace Step

/-- Leaves the static type of an expression; the type of a dotted name is found segment by segment. -/
def typeOf : Expr → Step Unit
  | .name (.field p x) => schedule [.typeOf (.name p), .typeOfField x]
  | .name (.simple x) => do push (.type (← ask (fun env => env.nameType x)))
  | e => do push (.type (← ask (fun env => env.staticType e)))

/-- Turns a type into the type of one of its fields. -/
def typeOfField (field : String) : Step Unit := do
  let owner ← popType
  push (.type (← ask (fun env => env.fieldType owner field)))

/-- Gives the invocation a number of items down control one argument more. -/
def addReceiver? : Nat → List Item → Option (List Item)
  | 0, .invoke n :: rest => some (.invoke (n + 1) :: rest)
  | depth + 1, item :: rest => (addReceiver? depth rest).map (item :: ·)
  | _, _ => none

/-- Selects the method of a call.  An instance method also queues the evaluation of its receiver, and
behind it the choice of the receiver's own implementation, unless the qualifier is `super`. -/
def overload (name : String) (arity : Nat) (qualifier : Path) : Step Unit := do
  let types ← popTypes arity
  let owner ← popType
  let k ← ask (fun env => env.resolveMethod owner name types)
  push (.closure k)
  if k.callable.isStatic then return
  let r ← get
  match addReceiver? arity r.control with
  | none => throw (.internal (.noInvocation qualifier.text name))
  | some control => set { r with control := control }
  schedule (.expr (.name qualifier) ::
    if qualifier = .simple superName then [] else [.override])

/-- Replaces a selected method by the implementation of the receiver's class. -/
def override : Step Unit := do
  let receiver ← pop
  let selected ← popClosure
  match receiver with
  | .value (.object c frame) => do
    let k ← ask (fun env => .ok (env.resolveOverride c selected))
    push (.closure k)
    pushValue (.object c frame)
  | .value .null => throw (.nullPointer (.call selected.className selected.descriptor))
  | .cls _ => throw (.typeMismatch (.instanceMethod selected.descriptor))
  | item => throw (.typeMismatch (.receiver selected.descriptor (← describe item)))

/-- Selects a constructor. -/
def overloadConstructor (className : String) (arity : Nat) : Step Unit := do
  let types ← popTypes arity
  push (.closure (← ask (fun env => env.resolveConstructor className types)))

/-- Makes an object with all its fields at their defaults, and leaves it unless a field was refused. -/
def new (className : String) : Step Unit := do
  let c ← ask (fun env => env.findClass className)
  let made ← useEnv (fun env => env.instantiate c)
  pushValue (← ofExcept made)

/-- Splits the receiver off the arguments of a closure. -/
def receiver (k : Closure) (args : List Value) :
    Except Fault (Option (Class × FrameId) × List Value) :=
  if k.callable.isStatic then .ok (none, args)
  else match args with
    | .object c frame :: rest => .ok (some (c, frame), rest)
    | .null :: _ => .error (.nullPointer (.call k.className k.descriptor))
    | v :: _ => .error (.internal (.receiver k.descriptor ("Some(" ++ v.term ++ ")")))
    | [] => .error (.internal (.receiver k.descriptor "None"))

/-- Binds `this`, and `super` if the class has a superclass. -/
def bindReceiver (k : Closure) (object : Class × FrameId) : Step Unit := do
  let value := Value.object object.1 object.2
  let _ ← declare ⟨thisName, .named k.className, some value⟩
  let c ← ask (fun env => env.findClass k.className)
  match c.superclass? with
  | some s => let _ ← declare ⟨superName, .named s.name, some value⟩
  | none => return

/-- Binds parameters to arguments, from left to right. -/
def bindParams : List Param → List Value → Step Unit
  | p :: ps, v :: vs => do
    let v ← ofExcept (v.coerce p.type)
    let _ ← declare ⟨p.name, p.type, some v⟩
    bindParams ps vs
  | _, _ => return

/-- Runs the native code of a closure, after which the call returns. -/
def callNative (natives : Natives) (k : Closure) : Step Unit := do
  schedule [.reset .ret]
  match natives.get? k.nativeName with
  | some native => native.call
  | none => throw (.noNative k.nativeName)

/-- Queues the body of a closure. -/
def enter (natives : Natives) (k : Closure) : Step Unit :=
  match k.callable with
  | .constructor c => schedule [.stmt (.block c.body)]
  | .method m =>
    if m.isNative then callNative natives k
    else match m.body with
      | some body => schedule [.stmt (.block body)]
      | none => throw (.unsupported (.noBody k.className k.descriptor))

/-- Invokes a closure: marks the place to return to, adds a frame inside that of the class or of the
receiver, binds receiver and parameters, and queues the body. -/
def invoke (natives : Natives) (arity : Nat) : Step Unit := do
  let args ← popValues arity
  let k ← popClosure
  let expected := k.callable.params.length + if k.callable.isStatic then 0 else 1
  if args.length ≠ expected then
    throw (.internal (.arity k.className k.descriptor expected args.length))
  schedule [.marker .ret, .restore (← here)]
  let (object, args) ← ofExcept (receiver k args)
  extend ((object.map Prod.snd).getD k.frame) k.callable.name
  match object with
  | some object => bindReceiver k object
  | none => pure ()
  bindParams k.callable.params args
  enter natives k

end Step
end StashMachine
