import StashMachine.Control
import StashMachine.Stash

/-!
# StashMachine.Machine.Registers — the registers, and what steps are made of

A step changes control, the stash and the environment, or stops with a fault; a faulty step keeps what
it did before the fault.
-/

namespace StashMachine

/-- The registers of the machine, both stacks with their tops in front, and the lines that native code
has printed, the last one first. -/
structure Registers where
  control : List Item
  stash : List StashItem
  env : Environment
  output : List String

/-- A step or a part of one. -/
abbrev Step := EStateM Fault Registers

namespace Registers

/-- Empty stacks over an empty environment. -/
def initial : Registers := ⟨[], [], .initial, []⟩

/-- Empties both stacks and goes back to the global frame. -/
def clear (r : Registers) : Registers :=
  { r with control := [], stash := [], env := r.env.restore Environment.global }

end Registers

namespace Step

/-- Stops with a fault if a computation does. -/
def ofExcept {α : Type} : Except Fault α → Step α
  | .ok a => return a
  | .error e => throw e

/-- Asks the environment. -/
def ask {α : Type} (f : Environment → Except Fault α) : Step α := do
  ofExcept (f (← get).env)

/-- Changes the environment. -/
def changeEnv (f : Environment → Environment) : Step Unit :=
  modify (fun r => { r with env := f r.env })

/-- Changes the environment and gives what the change gives. -/
def useEnv {α : Type} (f : Environment → α × Environment) : Step α :=
  fun ⟨control, stash, env, output⟩ =>
    match f env with
    | (a, env) => .ok a ⟨control, stash, env, output⟩

/-- Queues items so that the first runs next. -/
def schedule (items : List Item) : Step Unit :=
  modify (fun r => { r with control := items ++ r.control })

/-- Puts an item on the stash. -/
def push (item : StashItem) : Step Unit :=
  modify (fun r => { r with stash := item :: r.stash })

/-- Puts a value on the stash. -/
def pushValue (v : Value) : Step Unit := push (.value v)

/-- The current frame. -/
def here : Step FrameId := return (← get).env.current

/-- Writes an item of the stash. -/
def describe (item : StashItem) : Step String := return item.text (← get).env

/-- Takes the top of the stash. -/
def pop : Step StashItem := do
  let r ← get
  match r.stash with
  | [] => throw (.internal .emptyStash)
  | item :: rest => do
    set { r with stash := rest }
    return item

/-- Takes a value. -/
def popValue : Step Value := do
  match ← pop with
  | .value v => return v
  | item => throw (.internal (.expected .value (← describe item)))

/-- Takes a type. -/
def popType : Step TypeName := do
  match ← pop with
  | .type t => return t
  | item => throw (.internal (.expected .type (← describe item)))

/-- Takes a closure. -/
def popClosure : Step Closure := do
  match ← pop with
  | .closure k => return k
  | item => throw (.internal (.expected .closure (← describe item)))

/-- Takes a variable that is to be assigned. -/
def popTarget : Step VarId := do
  match ← pop with
  | .var id => return id
  | item => throw (.typeMismatch (.target (← describe item)))

/-- Repeats a move that takes something, and gives what was taken in the order it was put down. -/
def popMany {α : Type} (take : Step α) : Nat → List α → Step (List α)
  | 0, taken => return taken
  | n + 1, taken => do
    let a ← take
    popMany take n (a :: taken)

/-- Takes a number of values. -/
def popValues (n : Nat) : Step (List Value) := popMany popValue n []

/-- Takes a number of types. -/
def popTypes (n : Nat) : Step (List TypeName) := popMany popType n []

/-- The declared type of a variable. -/
def typeOfVar (id : VarId) : Step TypeName :=
  return (((← get).env.var? id).map Variable.type).getD .void

/-- Adds a variable that no frame binds. -/
def fresh (v : Variable) : Step VarId := do
  changeEnv (fun env => env.allocate v)
  return (← get).env.newestVariable

/-- Binds a new variable in the current frame. -/
def declare (v : Variable) : Step VarId := do
  ask (fun env => env.checkFree v.name v.name)
  changeEnv (fun env => env.addVariable v)
  return (← get).env.newestVariable

/-- Binds a new closure in the current frame. -/
def defineClosure (k : Closure) : Step Unit := do
  ask (fun env => env.checkFree k.descriptor k.text)
  changeEnv (fun env => env.addClosure k)

/-- Registers a new class. -/
def defineClass (c : Class) : Step Unit := do
  ask (fun env => env.checkNewClass c.name)
  changeEnv (fun env => env.addClass c)

/-- Adds a frame inside another one and goes there. -/
def extend (around : FrameId) (name : String) : Step Unit :=
  changeEnv (fun env => env.extend around name)

/-- Adds a line to what native code has printed. -/
def print (line : String) : Step Unit :=
  modify (fun r => { r with output := line :: r.output })

end Step

end StashMachine
