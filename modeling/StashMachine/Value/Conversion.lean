import StashMachine.Fault
import StashMachine.Value.Basic

/-!
# StashMachine.Value.Conversion — conversions

* `Value.coerce`: converts a value for a variable of a declared type: the widening conversions, and from
  `int` to `char` where the code is a character.
* `Value.narrow`: the cast of compound assignments and increments, which cuts numbers to the width of
  the declared type.
-/

namespace StashMachine
namespace Value

/-- The character with a given code, if there is one. -/
def charOf? (n : Nat) : Option Char :=
  if n.isValidChar then some (Char.ofNat n) else none

/-- Converts a value for a variable of a primitive type. -/
def coercePrimitive (v : Value) (p : Primitive) : Except Fault Value :=
  let mismatch := .error (.typeMismatch (.conversion v.type (.primitive p)))
  match p with
  | .boolean =>
    match v with
    | boolean _ => .ok v
    | _ => mismatch
  | .char =>
    match v with
    | char _ => .ok v
    | number (.int n) =>
      match charOf? n.toUInt32.toNat with
      | some c => .ok (char c)
      | none => mismatch
    | _ => mismatch
  | .long =>
    match v.number? with
    | some (.int n) => .ok (long n.toInt64)
    | some (.long n) => .ok (long n)
    | _ => mismatch
  | .float | .double =>
    match v.number? with
    | some n => .ok (double n.toFloat)
    | none => mismatch
  | .byte | .short | .int =>
    match v.number? with
    | some (.int n) => .ok (int n)
    | _ => mismatch

/-- Converts a value for a variable of a declared type.  Only primitive types convert or refuse. -/
def coerce (v : Value) (declared : TypeName) : Except Fault Value :=
  match declared with
  | .primitive p => v.coercePrimitive p
  | _ => .ok v

/-- Cuts a number to the width of a numeric type. -/
def castNumber (n : Number) (p : Primitive) : Except Fault Value :=
  match p with
  | .byte => .ok (int n.toInt32.toInt8.toInt32)
  | .short => .ok (int n.toInt32.toInt16.toInt32)
  | .char =>
    match charOf? n.toInt32.toInt16.toUInt16.toNat with
    | some c => .ok (char c)
    | none => .error (.typeMismatch (.notAChar n))
  | .int => .ok (int n.toInt32)
  | .long => .ok (long n.toInt64)
  | .float | .double | .boolean => .ok (double n.toFloat)

/-- Casts a value to a declared type.  Numbers are cut to a numeric type; everything else, characters
included, is coerced. -/
def narrow (v : Value) (declared : TypeName) : Except Fault Value :=
  match v, declared with
  | number n, .primitive p => if p.isNumeric then castNumber n p else v.coerce declared
  | _, _ => v.coerce declared

end Value
end StashMachine
