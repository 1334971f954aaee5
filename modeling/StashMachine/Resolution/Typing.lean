import StashMachine.Resolution.Overload

/-!
# StashMachine.Resolution.Typing — static types

`staticType` finds the type of an expression in an environment without evaluating anything.
-/

namespace StashMachine
namespace Environment

/-- The type of a simple name: the declared type of a variable, or the class itself. -/
def nameType (env : Environment) (name : String) : Except Fault TypeName := do
  match ← env.findName name with
  | .var id => return ((env.var? id).map Variable.type).getD .void
  | .cls c => return .named c.name
  | .closure k => .error (.typeMismatch (.methodAsValue k.descriptor))

/-- The declared type of a field of a type. -/
def fieldType (env : Environment) (owner : TypeName) (field : String) : Except Fault TypeName :=
  if owner.element?.isSome ∧ field = "length" then .ok (.primitive .int)
  else do
    let c ← env.findClass owner.text
    match c.findField? field with
    | some info => return info.type
    | none => .error (.undeclaredVariable (owner.text ++ "." ++ field))

/-- The type of a dotted name. -/
def pathType (env : Environment) : Path → Except Fault TypeName
  | .simple x => env.nameType x
  | .field p x => do env.fieldType (← pathType env p) x

/-- The type of a binary operation on operands of given types. -/
def binaryType (op : BinaryOp) (left right : TypeName) : Except Fault TypeName :=
  if op = .add ∧ (left = .string ∨ right = .string) then .ok .string
  else if op.isArithmetic then
    if left.isNumeric && right.isNumeric then .ok (left.promote right)
    else .error (.typeMismatch (.operands op left right))
  else .ok (.primitive .boolean)

/-- The type of a unary operation on an operand of a given type. -/
def unaryType (op : UnaryOp) (operand : TypeName) : Except Fault TypeName :=
  match op with
  | .not => .ok (.primitive .boolean)
  | _ =>
    if operand.isNumeric then .ok (operand.promote (.primitive .int))
    else .error (.typeMismatch (.operand operand))

mutual

/-- The static type of an expression. -/
def staticType (env : Environment) : Expr → Except Fault TypeName
  | .literal l => .ok l.type
  | .name p => env.pathType p
  | .assign target _ => env.pathType target
  | .compound _ target _ => env.pathType target
  | .increment _ _ target => env.pathType target
  | .binary op l r => do
    let left ← staticType env l
    let right ← staticType env r
    binaryType op left right
  | .unary op e => do unaryType op (← staticType env e)
  | .call (.simple m) _ => .error (.undeclaredMethod m)
  | .call (.field q m) args => do
    let qualifier ← env.pathType q
    let types ← staticTypes env args
    let k ← env.resolveMethod qualifier m types
    return k.callable.result
  | .new c _ => .ok (.named c)
  | .array t _ => .ok (.array t)
  | .void => .ok .void

/-- The static types of several expressions, from left to right. -/
def staticTypes (env : Environment) : List Expr → Except Fault (List TypeName)
  | [] => .ok []
  | e :: es => do
    let t ← staticType env e
    let ts ← staticTypes env es
    return t :: ts

end

end Environment
end StashMachine
