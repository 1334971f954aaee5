import StashMachine.Budget
import StashMachine.Machine.Run
import StashMachine.Stack
import StashMachine.Syntax.Source

/-!
# StashMachine.Machine.Program — from source text to a finished run
-/

namespace StashMachine

/-- Why a run gave no result. -/
inductive RunError
  | source (error : SourceError)
  | fault (fault : Fault)

namespace Machine

/-- Runs a machine, keeping it only if no step is faulty. -/
def finish (natives : Natives) (budget : Budget) (m : Machine) : Except RunError Machine :=
  match evaluate natives budget.target m with
  | .ok _ m => .ok m
  | .error e _ => .error (.fault e)

/-- Reads a program and runs it on a new machine. -/
def runProgram (source : String) (budget : Budget) (natives : Natives) : Except RunError Machine :=
  match Program.parse source with
  | .ok p => (initial.loadProgram p).finish natives budget
  | .error e => .error (.source e)

/-- Reads an expression and runs it on a new machine.  The result is the value on top of the stash, or
`void` if there is none. -/
def runExpr (source : String) (budget : Budget) : Except RunError (Value × Machine) :=
  match Expr.parse source with
  | .ok e =>
    ((initial.loadExpr e).finish Natives.empty budget).map (fun m =>
      (((m.top?.bind StashItem.value?).getD .void), m))
  | .error e => .error (.source e)

/-- Control as numbered lines, the next item first. -/
def controlText (m : Machine) : String :=
  Stack.render (fun i => i.text m.registers.env) m.registers.control

/-- The stash as numbered lines, its top first. -/
def stashText (m : Machine) : String :=
  Stack.render (fun i => i.text m.registers.env) m.registers.stash

/-- The static fields of a registered class with their values, or the fault of reading them. -/
def staticFields (m : Machine) (className : String) : List (String × Except Fault Value) :=
  match m.registers.env.findClass className with
  | .ok c =>
    (c.staticFields.flatMap FieldDecl.vars).map (fun d =>
      (d.name, m.registers.env.staticField className d.name))
  | .error _ => []

end Machine

end StashMachine
