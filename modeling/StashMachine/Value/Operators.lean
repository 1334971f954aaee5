import StashMachine.Fault
import StashMachine.Value.Basic

/-!
# StashMachine.Value.Operators — operators on values

Arithmetic promotes its operands to `int`, `long` or `double`; integers wrap around, and division cuts
toward zero.  Addition joins texts as soon as one operand is a text.  Texts are equal by content.
-/

namespace StashMachine

/-- Arithmetic on `int`. -/
def BinaryOp.applyInt (op : BinaryOp) (a b : Int32) : Except Fault Int32 :=
  if b == 0 && (op == .div || op == .rem) then .error .divisionByZero
  else .ok (match op with
    | .add => a + b
    | .sub => a - b
    | .mul => a * b
    | .div => a / b
    | _ => a % b)

/-- Arithmetic on `long`. -/
def BinaryOp.applyLong (op : BinaryOp) (a b : Int64) : Except Fault Int64 :=
  if b == 0 && (op == .div || op == .rem) then .error .divisionByZero
  else .ok (match op with
    | .add => a + b
    | .sub => a - b
    | .mul => a * b
    | .div => a / b
    | _ => a % b)

/-- Arithmetic on doubles, which never fails. -/
def BinaryOp.applyDouble (op : BinaryOp) (a b : Float) : Float :=
  match op with
  | .add => a + b
  | .sub => a - b
  | .mul => a * b
  | .div => a / b
  | _ => Binary.remainder a b

namespace Number

/-- Arithmetic in the widest kind of its operands. -/
def arithmetic (op : BinaryOp) (a b : Number) : Except Fault Number :=
  if a.isDouble || b.isDouble then .ok (double (op.applyDouble a.toFloat b.toFloat))
  else if a.isLong || b.isLong then (op.applyLong a.toInt64 b.toInt64).map long
  else (op.applyInt a.toInt32 b.toInt32).map int

/-- A comparison; what is no number compares false with everything. -/
def compare (op : BinaryOp) (a b : Number) : Bool :=
  if a.isDouble || b.isDouble then
    let (x, y) := (a.toFloat, b.toFloat)
    match op with
    | .lt => x < y
    | .le => x ≤ y
    | .gt => y < x
    | _ => y ≤ x
  else
    let (x, y) := (a.toInt64, b.toInt64)
    match op with
    | .lt => x < y
    | .le => x ≤ y
    | .gt => y < x
    | _ => y ≤ x

/-- The number with its sign turned. -/
def negate : Number → Number
  | int n => int (-n)
  | long n => long (-n)
  | double x => double (-x)

end Number

namespace Value

/-- The `==` of the language: numbers after promotion, everything else by identity or content. -/
def equal (a b : Value) : Bool :=
  match a.number?, b.number? with
  | some m, some n => m.equal n
  | _, _ => a.same b

/-- Whether the value is a text. -/
def isString : Value → Bool
  | string _ => true
  | _ => false

/-- The fault of a binary operator on the wrong operands. -/
def badOperands (op : BinaryOp) (a b : Value) : Fault :=
  .typeMismatch (.operands op a.type b.type)

/-- Applies a function to two numbers. -/
def onNumbers (op : BinaryOp) (a b : Value) (f : Number → Number → Except Fault Value) :
    Except Fault Value :=
  match a.number?, b.number? with
  | some m, some n => f m n
  | _, _ => .error (badOperands op a b)

/-- Applies a binary operator. -/
def binary (op : BinaryOp) (a b : Value) : Except Fault Value :=
  match op with
  | .add =>
    if a.isString || b.isString then .ok (string (a.text ++ b.text))
    else onNumbers op a b (fun m n => (Number.arithmetic op m n).map number)
  | .sub | .mul | .div | .rem =>
    onNumbers op a b (fun m n => (Number.arithmetic op m n).map number)
  | .lt | .le | .gt | .ge => onNumbers op a b (fun m n => .ok (boolean (Number.compare op m n)))
  | .eq => .ok (boolean (a.equal b))
  | .ne => .ok (boolean (!a.equal b))
  | .and =>
    match a, b with
    | boolean x, boolean y => .ok (boolean (x && y))
    | _, _ => .error (badOperands op a b)
  | .or =>
    match a, b with
    | boolean x, boolean y => .ok (boolean (x || y))
    | _, _ => .error (badOperands op a b)

/-- Applies a unary operator. -/
def unary (op : UnaryOp) (v : Value) : Except Fault Value :=
  let mismatch := .error (.typeMismatch (.operand v.type))
  match op with
  | .not =>
    match v with
    | boolean b => .ok (boolean (!b))
    | _ => mismatch
  | .minus =>
    match v.number? with
    | some n => .ok (number n.negate)
    | none => mismatch
  | .plus =>
    match v.number? with
    | some n => .ok (number n)
    | none => mismatch

end Value

end StashMachine
