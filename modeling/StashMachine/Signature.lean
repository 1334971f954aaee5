import StashMachine.Syntax.TypeName
import StashMachine.Text.Quoted

/-!
# StashMachine.Signature — how calls are written about

* `descriptor`: the key `name(T1,T2)` that methods and constructors are bound under.
* `Signature`: a call with the class it was looked up in.
-/

namespace StashMachine

/-- A call as it is written about: the class it was looked up in, if any, its name, and the types of
its arguments. -/
structure Signature where
  owner : Option String
  name : String
  types : List TypeName

/-- The text `name(T1,T2)` of a name and the types behind it. -/
def descriptor (name : String) (types : List TypeName) : String :=
  name ++ "(" ++ Text.join "," (types.map TypeName.text) ++ ")"

/-- Writes a signature. -/
def Signature.text (s : Signature) : String :=
  match s.owner with
  | some owner => owner ++ "." ++ descriptor s.name s.types
  | none => descriptor s.name s.types

end StashMachine
