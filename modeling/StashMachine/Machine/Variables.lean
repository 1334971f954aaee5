import StashMachine.Machine.Registers
import StashMachine.Value.Conversion
import StashMachine.Value.Operators

/-!
# StashMachine.Machine.Variables — the steps of variables and fields

The steps that store, read and find variables.
-/

namespace StashMachine
namespace Step

/-- Stores a value after coercing it to the variable's type, and leaves what was stored. -/
def assign : Step Unit := do
  let v ← popValue
  let x ← popTarget
  let v ← ofExcept (v.coerce (← typeOfVar x))
  changeEnv (fun env => env.assign x v)
  pushValue v

/-- Combines the old value with a new operand, casts the result to the variable's type, stores it and
leaves it. -/
def compoundAssign (op : BinaryOp) : Step Unit := do
  let v ← popValue
  let old ← popValue
  let x ← popTarget
  let type ← typeOfVar x
  let v ← ofExcept (Value.binary op old v)
  let v ← ofExcept (v.narrow type)
  changeEnv (fun env => env.assign x v)
  pushValue v

/-- Moves a variable by one, and leaves its new value for a prefix increment, else its old one. -/
def increment (op : BinaryOp) (fix : Fixity) : Step Unit := do
  let x ← popTarget
  let type ← typeOfVar x
  if !type.isNumeric then throw (.typeMismatch (.step op type))
  let old ← ask (fun env => env.value x)
  let moved ← ofExcept (Value.binary op old (.int 1))
  let new ← ofExcept (moved.narrow type)
  changeEnv (fun env => env.assign x new)
  pushValue (match fix with
    | .pre => new
    | .post => old)

/-- Leaves the value of the variable on top above it. -/
def load : Step Unit := do
  match (← get).stash with
  | [] => throw (.internal .emptyStash)
  | .var x :: _ => pushValue (← ask (fun env => env.value x))
  | item :: _ => throw (.typeMismatch (.target (← describe item)))

/-- Leaves the variable or class of a name; a field is found after what it belongs to. -/
def find : Path → Step Unit
  | .field p x => schedule [.find p, .select x]
  | .simple x => do
    match ← ask (fun env => env.findName x) with
    | .var id => push (.var id)
    | .cls c => push (.cls c)
    | .closure k => throw (.typeMismatch (.methodAsVariable k.descriptor))

/-- Turns a variable into its value; anything else stays. -/
def deref : Step Unit := do
  match ← pop with
  | .var x => pushValue (← ask (fun env => env.value x))
  | item => push item

/-- The variable of a static field of a class or of one of its ancestors. -/
def staticField (c : Class) (field : String) : Step VarId := do
  match c.findField? field with
  | none => throw (.undeclaredVariable (c.name ++ "." ++ field))
  | some info =>
    if !info.isStatic then throw (.typeMismatch (.instanceVariable field))
    match (← get).env.ownVariable? info.owner field with
    | some id => return id
    | none => throw (.internal (.unboundField info.owner.name field))

/-- The length of an array as a variable of its own. -/
def arrayLength (qualifier : String) (field : String) (value : Option Value) : Step VarId :=
  if field = "length" then
    match value with
    | some (.array _ _ elements) =>
      fresh ⟨"length", .primitive .int, some (.int (Int32.ofNat elements.length))⟩
    | some .null => throw (.nullPointer (.length qualifier))
    | none => throw (.unassigned qualifier)
    | _ => throw (.undeclaredVariable (qualifier ++ "." ++ field))
  else throw (.undeclaredVariable (qualifier ++ "." ++ field))

/-- The variable of an instance field of what a qualifier holds. -/
def instanceField (qualifier : String) (value : Option Value) (field : String) : Step VarId := do
  match value with
  | some (.object c frame) =>
    match ((← get).env.frame frame).get? field with
    | some (.var id) => return id
    | _ => throw (.internal (.lostField (Value.objectText c frame) field))
  | some .null => throw (.nullPointer (.field field qualifier))
  | some v => throw (.typeMismatch (.fieldless v.type))
  | none => throw (.unassigned qualifier)

/-- The variable of a field, reached through a qualifier of a declared type that holds a value.  Static
fields depend on the declared type only, so `null` has them too. -/
def fieldOf (qualifier : String) (declared : TypeName) (value : Option Value) (field : String) :
    Step VarId := do
  match declared with
  | .array _ => arrayLength qualifier field value
  | .primitive _ => throw (.typeMismatch (.fieldless declared))
  | _ =>
    let c ← ask (fun env => env.findClass declared.text)
    match c.findField? field with
    | none => throw (.undeclaredVariable (declared.text ++ "." ++ field))
    | some info =>
      if info.isStatic then staticField c field else instanceField qualifier value field

/-- Turns a class, a variable or a value into the variable of one of its fields. -/
def select (field : String) : Step Unit := do
  match ← pop with
  | .cls c => push (.var (← staticField c field))
  | .var x =>
    match (← get).env.var? x with
    | some v => push (.var (← fieldOf v.name v.type v.value field))
    | none => throw (.internal (.fieldOf field ""))
  | .value v => push (.var (← fieldOf v.type.text v.type (some v) field))
  | item => throw (.internal (.fieldOf field (← describe item)))

/-- Coerces values to an element type, from first to last. -/
def coerceAll (element : TypeName) : List Value → Except Fault (List Value)
  | [] => .ok []
  | v :: vs => do
    let w ← v.coerce element
    let ws ← coerceAll element vs
    return w :: ws

/-- Gathers values into an array. -/
def arrayOf (element : TypeName) (size : Nat) : Step Unit := do
  let values ← popValues size
  let values ← ofExcept (coerceAll element values)
  pushValue (← useEnv (fun env => env.createArray element values))

end Step
end StashMachine
