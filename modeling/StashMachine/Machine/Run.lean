import StashMachine.Machine.Classes
import StashMachine.Machine.Dispatch
import StashMachine.Machine.Statements

/-!
# StashMachine.Machine.Run — running the machine

* `Step.perform`: does what one item of control says.
* `Machine.evaluate`: takes items off control until it is empty, a number of steps is done, or a step is
  faulty.  A faulty step is not counted, and its item is gone.
-/

namespace StashMachine

/-- Does what an item of control says. -/
def Step.perform (natives : Natives) : Item → Step Unit
  | .program p => start p
  | .classDecl d => elaborateClass d
  | .method d => bindCallable (.method d)
  | .constructor d => bindCallable (.constructor d)
  | .field f => declareStatic f
  | .stmt s => execute s
  | .expr e => evaluate e
  | .assign => assign
  | .compoundAssign op => compoundAssign op
  | .increment op fix => increment op fix
  | .load => load
  | .binary op => do
    let r ← popValue
    let l ← popValue
    pushValue (← ofExcept (Value.binary op l r))
  | .unary op => do pushValue (← ofExcept (Value.unary op (← popValue)))
  | .pop => do let _ ← pop
  | .find p => find p
  | .deref => deref
  | .select field => select field
  | .arrayOf element size => arrayOf element size
  | .restore frame => changeEnv (fun env => env.restore frame)
  | .marker _ => return
  | .reset jump => reset jump
  | .branch yes no => branch yes no
  | .whileRound c body => whileRound c body
  | .forRound c update body => forRound c update body
  | .switch arms => switch arms
  | .typeOf e => typeOf e
  | .typeOfField field => typeOfField field
  | .overload name arity qualifier => overload name arity qualifier
  | .override => override
  | .overloadConstructor c arity => overloadConstructor c arity
  | .new c => new c
  | .invoke arity => invoke natives arity

/-- The machine: its registers and the number of steps done. -/
structure Machine where
  registers : Registers
  steps : Nat

namespace Machine

/-- A machine with nothing to do. -/
def initial : Machine := ⟨.initial, 0⟩

/-- Queues a program. -/
def loadProgram (m : Machine) (p : Program) : Machine :=
  { m with registers := { m.registers with control := .program p :: m.registers.control } }

/-- Queues an expression. -/
def loadExpr (m : Machine) (e : Expr) : Machine :=
  { m with registers := { m.registers with control := .expr e :: m.registers.control } }

/-- Whether control is empty. -/
def isFinished (m : Machine) : Bool := m.registers.control.isEmpty

/-- The top of the stash. -/
def top? (m : Machine) : Option StashItem := m.registers.stash.head?

/-- Runs until control is empty or a number of steps is done. -/
def evaluate (natives : Natives) : Nat → EStateM Fault Machine Unit
  | 0, m => .ok () m
  | _ + 1, ⟨⟨[], stash, env, output⟩, steps⟩ => .ok () ⟨⟨[], stash, env, output⟩, steps⟩
  | n + 1, ⟨⟨item :: control, stash, env, output⟩, steps⟩ =>
    match Step.perform natives item ⟨control, stash, env, output⟩ with
    | .ok _ r => evaluate natives n ⟨r, steps + 1⟩
    | .error e r => .error e ⟨r, steps⟩

end Machine

end StashMachine
