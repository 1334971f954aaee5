import StashMachine.Jump
import StashMachine.Signature
import StashMachine.Syntax.Operator
import StashMachine.Value.Number

/-!
# StashMachine.Fault — everything that can go wrong in a run

Faults are kept by cause; `Fault.message` holds all the wording.
-/

namespace StashMachine

/-- What was asked of `null`. -/
inductive NullUse
  | length (qualifier : String)
  | field (name qualifier : String)
  | call (className method : String)

/-- A use of something of the wrong type. -/
inductive Mismatch
  | conversion (found wanted : TypeName)
  | notAChar (n : Number)
  | operands (op : BinaryOp) (left right : TypeName)
  | operand (type : TypeName)
  | step (op : BinaryOp) (type : TypeName)
  | target (item : String)
  | methodAsVariable (method : String)
  | methodAsValue (method : String)
  | instanceVariable (name : String)
  | instanceMethod (method : String)
  | fieldless (type : TypeName)
  | receiver (method item : String)

/-- Something the machine does not do. -/
inductive Unsupported
  | bareCall (name : String)
  | labelNotConstant
  | noBody (className method : String)
  | other (reason : String)

/-- What a step looked for on the stash. -/
inductive Wanted
  | value | type | closure

/-- A state that the machine does not reach by itself. -/
inductive Defect
  | emptyStash
  | expected (wanted : Wanted) (item : String)
  | unboundField (className name : String)
  | lostField (object name : String)
  | fieldOf (name item : String)
  | noInvocation (qualifier name : String)
  | noClosure (className method : String)
  | arity (className method : String) (expected found : Nat)
  | receiver (method value : String)

/-- A fault of a run. -/
inductive Fault
  | undeclaredName (name : String)
  | undeclaredVariable (name : String)
  | undeclaredClass (name : String)
  | undeclaredMethod (name : String)
  | redeclaration (name : String)
  | cyclicInheritance (name : String)
  | unassigned (name : String)
  | noOverload (call : Signature)
  | ambiguous (call : Signature)
  | noConstructor (call : Signature)
  | nullPointer (use : NullUse)
  | noMain
  | divisionByZero
  | typeMismatch (cause : Mismatch)
  | noNative (name : String)
  | noMarker (jump : Jump)
  | unsupported (what : Unsupported)
  | internal (defect : Defect)

namespace NullUse

/-- The wording of a use of `null`. -/
def text : NullUse → String
  | length q => "cannot read the array length because " ++ q ++ " is null"
  | field f q => "cannot read field " ++ f ++ " because " ++ q ++ " is null"
  | call c m => "cannot invoke " ++ c ++ "." ++ m ++ " on null"

end NullUse

namespace Mismatch

/-- The wording of a mismatch. -/
def text : Mismatch → String
  | conversion found wanted => found.text ++ " cannot be converted to " ++ wanted.text
  | notAChar n => n.text ++ " is not a representable char"
  | operands op l r =>
    "bad operand types " ++ l.text ++ " and " ++ r.text ++ " for binary operator " ++ op.symbol
  | operand t => "bad operand type " ++ t.text ++ " for unary operator"
  | step op t => "bad operand type " ++ t.text ++ " for " ++ op.symbol ++ op.symbol
  | target item => "cannot assign to " ++ item
  | methodAsVariable m => m ++ " is a method, not a variable"
  | methodAsValue m => m ++ " is a method, not a value"
  | instanceVariable x => "non-static variable " ++ x ++ " cannot be referenced from a static context"
  | instanceMethod m => "non-static method " ++ m ++ " cannot be referenced from a static context"
  | fieldless t => t.text ++ " cannot be dereferenced"
  | receiver m item => "cannot invoke " ++ m ++ " on " ++ item

end Mismatch

namespace Unsupported

/-- The wording of what is not supported. -/
def text : Unsupported → String
  | bareCall name => "unqualified call to " ++ name ++ " outside of a class"
  | labelNotConstant => "case labels must be constant expressions"
  | noBody c m => c ++ "." ++ m ++ " has no body"
  | other reason => reason

end Unsupported

namespace Wanted

/-- The wording of what was looked for. -/
def text : Wanted → String
  | value => "a value"
  | type => "a type"
  | closure => "a closure"

end Wanted

namespace Defect

/-- The wording of a defect. -/
def text : Defect → String
  | emptyStash => "stash is empty"
  | expected w item => "expected " ++ w.text ++ ", found " ++ item
  | unboundField c x => c ++ "." ++ x ++ " is not bound"
  | lostField o x => o ++ " has no field " ++ x
  | fieldOf x item => "cannot resolve field " ++ x ++ " on " ++ item
  | noInvocation q x => "no pending invocation for " ++ q ++ "." ++ x
  | noClosure c m => c ++ "." ++ m ++ " has no closure"
  | arity c m wanted found =>
    c ++ "." ++ m ++ " expects " ++ toString wanted ++ " arguments, got " ++ toString found
  | receiver m v => "bad receiver for " ++ m ++ ": " ++ v

end Defect

namespace Fault

/-- The wording of a fault. -/
def message : Fault → String
  | undeclaredName x => "cannot find symbol: " ++ x
  | undeclaredVariable x => "cannot find variable: " ++ x
  | undeclaredClass x => "cannot find class: " ++ x
  | undeclaredMethod x => "cannot find method: " ++ x
  | redeclaration x => x ++ " is already defined"
  | cyclicInheritance x => "cyclic inheritance involving " ++ x
  | unassigned x => "variable " ++ x ++ " might not have been initialized"
  | noOverload s => "no suitable method found for " ++ s.text
  | ambiguous s => "reference to " ++ s.text ++ " is ambiguous"
  | noConstructor s => "no suitable constructor found for " ++ s.text
  | nullPointer use => "null pointer: " ++ use.text
  | noMain => "no class declares public static void main(String[] args)"
  | divisionByZero => "/ by zero"
  | typeMismatch cause => "type mismatch: " ++ cause.text
  | noNative x => "no native implementation registered for " ++ x
  | noMarker jump => jump.keyword ++ " outside of an enclosing construct"
  | unsupported what => "unsupported: " ++ what.text
  | internal defect => "internal error: " ++ defect.text

end Fault

end StashMachine
