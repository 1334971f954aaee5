import StashMachine.Native.Basic

/-!
# StashMachine.Native.Stock — a small set of native methods

A small set of native methods: constants, printing, and looks at the frame of the call.
-/

namespace StashMachine
namespace Native

/-- The value of the variable a name stands for, if it has one. -/
def variableValue (name : String) : Step (Option Value) := do
  let id ← Step.ask (fun env => env.findVariable name)
  return ((← get).env.var? id).bind Variable.value

/-- The values of several variables, from left to right. -/
def variableValues : List String → Step (List (Option Value))
  | [] => return []
  | x :: xs => do
    let v ← variableValue x
    let vs ← variableValues xs
    return v :: vs

/-- Leaves the number 42. -/
def answer : Native := ⟨.builtIn, Step.pushValue (.int 42)⟩

/-- Leaves a given value. -/
def const (v : Value) : Native := ⟨.plugin, Step.pushValue v⟩

/-- Prints the values of the named variables that have one, on one line. -/
def print (names : List String) : Native :=
  ⟨.plugin, do
    let values ← variableValues names
    Step.print (Text.join " " (values.filterMap (fun v => v.map Value.text)))
    Step.pushValue .void⟩

/-- Leaves twice the number of the variable `n`, as an `int` that wraps around. -/
def twice : Native :=
  ⟨.plugin, do
    match ← variableValue "n" with
    | some (.number n) => Step.pushValue (.int (n.toInt64.toInt32 * 2))
    | _ => Step.pushValue (.int 0)⟩

/-- Leaves the value of a variable. -/
def get (name : String) : Native :=
  ⟨.plugin, do Step.pushValue ((← variableValue name).getD .void)⟩

/-- Leaves the name of the current frame. -/
def frame : Native :=
  ⟨.plugin, do Step.pushValue (.string (← MonadState.get).env.currentName)⟩

/-- Queues an expression, which leaves the result. -/
def expr (e : Expr) : Native := ⟨.plugin, Step.schedule [.expr e]⟩

/-- Does nothing. -/
def nothing : Native := ⟨.plugin, return⟩

/-- Stops with a given reason. -/
def fail (reason : String) : Native := ⟨.plugin, throw (.unsupported (.other reason))⟩

end Native
end StashMachine
