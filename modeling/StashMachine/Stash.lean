import StashMachine.Environment

/-!
# StashMachine.Stash — intermediate results

What lies on the stash: values, variables that wait to be read or assigned, classes named as
qualifiers, closures that wait for their arguments, and static types.
-/

namespace StashMachine

/-- An item of the stash. -/
inductive StashItem
  | value (v : Value)
  | var (id : VarId)
  | cls (c : Class)
  | closure (c : Closure)
  | type (t : TypeName)

namespace StashItem

/-- Writes an item of the stash. -/
def text (env : Environment) : StashItem → String
  | value v => v.text
  | var id => ((env.var? id).map Variable.text).getD ""
  | cls c => "class " ++ c.name
  | closure c => c.text
  | type t => "<" ++ t.text ++ ">"

/-- The value of an item that is one. -/
def value? : StashItem → Option Value
  | value v => some v
  | _ => none

end StashItem

end StashMachine
