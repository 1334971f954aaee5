import StashMachine.Closure
import StashMachine.Value.Basic

/-!
# StashMachine.Environment — frames, variables and the current place

* `Frame`: a name, the frames around it (innermost first) and its own bindings.
* `Environment`: the store of frames and variables, and the current frame.
* `lookup?`: a name is looked up along the list of frames, which ends at the global one.

Frames and variables are only ever added, and a binding is never removed or replaced.
-/

namespace StashMachine

/-- The number of a variable of the store. -/
abbrev VarId := Nat

/-- A variable; it has no value until the first assignment. -/
structure Variable where
  name : String
  type : TypeName
  value : Option Value

namespace Variable

/-- Writes a variable with its value. -/
def text (v : Variable) : String :=
  match v.value with
  | some value => v.type.text ++ " " ++ v.name ++ " = " ++ value.text
  | none => v.type.text ++ " " ++ v.name ++ " (unassigned)"

end Variable

/-- What a name stands for. -/
inductive Binding
  | var (id : VarId)
  | closure (closure : Closure)
  | cls (cls : Class)

/-- A frame: its name, the frames around it, and its own bindings. -/
structure Frame where
  name : String
  outer : List FrameId
  bindings : List (String × Binding)

namespace Frame

/-- A frame that is not in the store. -/
def missing : Frame := ⟨"", [], []⟩

/-- The binding of a name in the frame itself. -/
def get? (f : Frame) (name : String) : Option Binding := f.bindings.lookup name

/-- Whether the frame itself binds a name. -/
def has (f : Frame) (name : String) : Bool := (f.get? name).isSome

/-- Adds a binding. -/
def add (f : Frame) (name : String) (b : Binding) : Frame :=
  { f with bindings := (name, b) :: f.bindings }

end Frame

/-- The environment.  `arrays` counts the arrays made so far. -/
structure Environment where
  frames : Array Frame
  vars : Array Variable
  arrays : Nat
  current : FrameId

namespace Environment

/-- The outermost frame. -/
def global : FrameId := 0

/-- The name of the frame of an object. -/
def objectFrame : String := "object"

/-- The name of the frame of a block. -/
def blockFrame : String := "block"

/-- The name of the frame of a `for`. -/
def forFrame : String := "for"

/-- An environment with an empty global frame. -/
def initial : Environment := ⟨#[⟨"global", [], []⟩], #[], 0, global⟩

/-- The frame with a given number. -/
def frame (env : Environment) (id : FrameId) : Frame := env.frames.getD id Frame.missing

/-- The variable with a given number. -/
def var? (env : Environment) (id : VarId) : Option Variable := env.vars[id]?

/-- A frame and the frames around it, the innermost first. -/
def chain (env : Environment) (id : FrameId) : List FrameId := id :: (env.frame id).outer

/-- The name of the current frame. -/
def currentName (env : Environment) : String := (env.frame env.current).name

/-- The closest binding of a name from a frame outwards. -/
def lookupFrom? (env : Environment) (id : FrameId) (name : String) : Option Binding :=
  (env.chain id).findSome? (fun f => (env.frame f).get? name)

/-- The closest binding of a name from the current frame outwards. -/
def lookup? (env : Environment) (name : String) : Option Binding := env.lookupFrom? env.current name

/-- What a name stands for. -/
def findName (env : Environment) (name : String) : Except Fault Binding :=
  match env.lookup? name with
  | some b => .ok b
  | none => .error (.undeclaredName name)

/-- The variable a name stands for. -/
def findVariable (env : Environment) (name : String) : Except Fault VarId :=
  match env.lookup? name with
  | some (.var id) => .ok id
  | _ => .error (.undeclaredVariable name)

/-- The class of a given name.  Classes are bound in the global frame. -/
def findClass (env : Environment) (name : String) : Except Fault Class :=
  match (env.frame global).get? name with
  | some (.cls c) => .ok c
  | _ => .error (.undeclaredClass name)

/-- The closure a class binds under a descriptor in its own frame. -/
def ownClosure? (env : Environment) (c : ClassInfo) (descriptor : String) : Option Closure :=
  match (env.frame c.frame).get? descriptor with
  | some (.closure k) => some k
  | _ => none

/-- The variable a class binds under a name in its own frame. -/
def ownVariable? (env : Environment) (c : ClassInfo) (name : String) : Option VarId :=
  match (env.frame c.frame).get? name with
  | some (.var id) => some id
  | _ => none

/-- The value of a variable. -/
def value (env : Environment) (id : VarId) : Except Fault Value :=
  match env.var? id with
  | some ⟨_, _, some v⟩ => .ok v
  | some ⟨name, _, none⟩ => .error (.unassigned name)
  | none => .error (.unassigned "")

/-- Adds a frame inside another one and makes it current. -/
def extend (env : Environment) (around : FrameId) (name : String) : Environment :=
  let id := env.frames.size
  let outer := env.chain around
  { env with frames := env.frames.push ⟨name, outer, []⟩, current := id }

/-- Makes a frame current. -/
def restore (env : Environment) (id : FrameId) : Environment := { env with current := id }

/-- The number of the variable added last. -/
def newestVariable (env : Environment) : VarId := env.vars.size - 1

/-- Adds a variable that no frame binds. -/
def allocate (env : Environment) (v : Variable) : Environment :=
  { env with vars := env.vars.push v }

/-- Adds a binding to a frame. -/
def addBinding (env : Environment) (id : FrameId) (name : String) (b : Binding) : Environment :=
  { env with frames := env.frames.modify id (fun f => f.add name b) }

/-- Whether the current frame itself binds a name. -/
def bindsHere (env : Environment) (name : String) : Bool := (env.frame env.current).has name

/-- Adds a variable and binds it in the current frame. -/
def addVariable (env : Environment) (v : Variable) : Environment :=
  let here := env.current
  let id := env.vars.size
  (env.allocate v).addBinding here v.name (.var id)

/-- Adds several variables and binds them in the current frame. -/
def addVariables (env : Environment) (vs : List Variable) : Environment :=
  vs.foldl addVariable env

/-- Refuses a name that the current frame binds already; the fault shows the name in full. -/
def checkFree (env : Environment) (name shown : String) : Except Fault Unit :=
  if env.bindsHere name then .error (.redeclaration shown) else .ok ()

/-- Refuses the name of a class that is registered already. -/
def checkNewClass (env : Environment) (name : String) : Except Fault Unit :=
  if (env.frame global).has name then .error (.redeclaration name) else .ok ()

/-- Binds a closure in the current frame. -/
def addClosure (env : Environment) (k : Closure) : Environment :=
  env.addBinding env.current k.descriptor (.closure k)

/-- Binds a class in the global frame. -/
def addClass (env : Environment) (c : Class) : Environment := env.addBinding global c.name (.cls c)

/-- Binds a new variable in the current frame. -/
def declare (env : Environment) (v : Variable) : Except Fault Environment := do
  env.checkFree v.name v.name
  return env.addVariable v

/-- Binds a new closure in the current frame. -/
def defineClosure (env : Environment) (k : Closure) : Except Fault Environment := do
  env.checkFree k.descriptor k.text
  return env.addClosure k

/-- Registers a new class. -/
def defineClass (env : Environment) (c : Class) : Except Fault Environment := do
  env.checkNewClass c.name
  return env.addClass c

/-- Stores a value in a variable. -/
def assign (env : Environment) (id : VarId) (v : Value) : Environment :=
  { env with vars := env.vars.modify id (fun x => { x with value := some v }) }

/-- Adds the frame of a new object of a class and makes it current. -/
def createObject (env : Environment) (c : Class) : Value × Environment :=
  let inside := env.extend c.frame objectFrame
  (.object c inside.current, inside)

/-- A field of a new object, at its default value. -/
def freshField (field : String × TypeName) : Variable :=
  ⟨field.1, field.2, some (Value.default field.2)⟩

/-- Binds new variables in the current frame one by one, up to the first that is refused; those before it
stay bound. -/
def declareAll (env : Environment) : List Variable → Except Fault Unit × Environment
  | [] => (.ok (), env)
  | v :: vs =>
    match env.declare v with
    | .ok env => env.declareAll vs
    | .error e => (.error e, env)

/-- Makes an object of a class and goes into its frame to bind the fields at their defaults.  Whether they
are all bound or one is refused, it then goes back to where it was. -/
def instantiate (env : Environment) (c : Class) : Except Fault Value × Environment :=
  let here := env.current
  let (object, inside) := env.createObject c
  let (fields, filled) := inside.declareAll (c.allInstanceVars.map freshField)
  (fields.map (fun _ => object), filled.restore here)

/-- Makes an array. -/
def createArray (env : Environment) (element : TypeName) (elements : List Value) :
    Value × Environment :=
  let array := .array env.arrays element elements
  (array, { env with arrays := env.arrays + 1 })

/-- The value of a static field that a class declares itself. -/
def staticField (env : Environment) (className field : String) : Except Fault Value :=
  match env.findClass className with
  | .error e => .error e
  | .ok c =>
    match env.ownVariable? c.toClassInfo field with
    | some id => env.value id
    | none => .error (.undeclaredVariable (className ++ "." ++ field))

/-- The environment, for display. -/
def term (env : Environment) : String := "Environment(current: " ++ env.currentName ++ ")"

/-- A frame, for display. -/
def frameTerm (env : Environment) (id : FrameId) : String := "EnvNode(" ++ (env.frame id).name ++ ")"

end Environment

end StashMachine
