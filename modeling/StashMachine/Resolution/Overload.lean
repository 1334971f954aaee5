import StashMachine.Environment

/-!
# StashMachine.Resolution.Overload — assignability and the choice of methods

* `assignable`: where a value of one static type can be passed for another.
* `resolveMethod`: of the methods that accept the static types of the arguments, the one that is more
  specific than all the others.  A descriptor declared in several classes of a lineage counts for the
  closest class only.
* `resolveOverride`: the implementation in the class of the receiver, chosen afterwards.
-/

namespace StashMachine
namespace Environment

/-- Whether a value of one static type can be passed where another is expected: the type itself, a
primitive widening, `null` for any reference, a subclass for its superclass, and any reference for
`Object`. -/
def assignable (env : Environment) (target source : TypeName) : Bool :=
  if target = source then true
  else match target, source with
    | .primitive p, .primitive q => q.widenings.contains p
    | .primitive _, _ => false
    | _, .primitive _ => false
    | _, _ =>
      if source = .null ∨ target = .object then target.isReference && source != .void
      else match env.findClass source.text with
        | .ok c => c.isSubclassOf target.text
        | .error _ => false

/-- Whether parameters accept arguments of given types. -/
def applicable (env : Environment) : List TypeName → List TypeName → Bool
  | [], [] => true
  | p :: ps, a :: as => env.assignable p a && applicable env ps as
  | _, _ => false

/-- Whether every parameter of the second closure accepts the corresponding one of the first. -/
def moreSpecific (env : Environment) (c d : Closure) : Bool :=
  env.applicable d.callable.paramTypes c.callable.paramTypes

/-- What comes of choosing among the applicable closures. -/
inductive Choice
  | one (closure : Closure)
  | none
  | ambiguous

/-- The closure that is more specific than all others. -/
def mostSpecific (env : Environment) (candidates : List Closure) : Choice :=
  match candidates with
  | [] => .none
  | [c] => .one c
  | _ =>
    match candidates.filter (fun c => candidates.all (fun d => env.moreSpecific c d)) with
    | [c] => .one c
    | _ => .ambiguous

/-- A declared method or constructor together with the class that declares it. -/
structure Declared where
  owner : ClassInfo
  callable : Callable

/-- The key it is bound under. -/
def Declared.descriptor (d : Declared) : String := d.callable.descriptor

/-- Keeps the first of several callables with one descriptor. -/
def firstOfEach (seen : List String) : List Declared → List Declared
  | [] => []
  | d :: ds =>
    if seen.contains d.descriptor then firstOfEach seen ds
    else d :: firstOfEach (d.descriptor :: seen) ds

/-- The methods of a lineage with a given name and number of parameters, one for each descriptor. -/
def overloads (c : Class) (name : String) (arity : Nat) : List Declared :=
  firstOfEach [] (c.lineage.flatMap (fun d =>
    (d.methods.filter (fun m => m.name == name && m.params.length == arity)).map (⟨d, .method ·⟩)))

/-- The constructors of a class itself. -/
def constructors (c : Class) : List Declared := c.constructors.map (⟨c.toClassInfo, .constructor ·⟩)

/-- The closure a class binds under a descriptor, which elaboration put there. -/
def boundClosure (env : Environment) (c : ClassInfo) (descriptor : String) : Except Fault Closure :=
  match env.ownClosure? c descriptor with
  | some k => .ok k
  | none => .error (.internal (.noClosure c.name descriptor))

/-- The closures of the declared callables that accept arguments of given types. -/
def candidates (env : Environment) (types : List TypeName) :
    List Declared → Except Fault (List Closure)
  | [] => .ok []
  | d :: ds =>
    if env.applicable d.callable.paramTypes types then do
      let k ← env.boundClosure d.owner d.descriptor
      let ks ← candidates env types ds
      return k :: ks
    else candidates env types ds

/-- The method of a given name for arguments of given types, searched in a class and its ancestors. -/
def resolveMethod (env : Environment) (qualifier : TypeName) (name : String)
    (types : List TypeName) : Except Fault Closure := do
  let c ← env.findClass qualifier.text
  let call : Signature := ⟨some qualifier.text, name, types⟩
  if c.hasMethod name then
    match env.mostSpecific (← env.candidates types (overloads c name types.length)) with
    | .one k => .ok k
    | .none => .error (.noOverload call)
    | .ambiguous => .error (.ambiguous call)
  else .error (.undeclaredMethod call.text)

/-- The constructor of a class for arguments of given types.  Constructors are not inherited. -/
def resolveConstructor (env : Environment) (className : String) (types : List TypeName) :
    Except Fault Closure := do
  let c ← env.findClass className
  let call : Signature := ⟨none, className, types⟩
  match env.mostSpecific (← env.candidates types (constructors c)) with
  | .one k => .ok k
  | .none => .error (.noConstructor call)
  | .ambiguous => .error (.ambiguous call)

/-- The implementation of a selected method for an object of a class: the first one that is not static
along the lineage, or the selected one itself. -/
def resolveOverride (env : Environment) (c : Class) (selected : Closure) : Closure :=
  ((c.lineage.filterMap (fun d => env.ownClosure? d selected.descriptor)).find?
    (fun k => !k.callable.isStatic)).getD selected

end Environment
end StashMachine
