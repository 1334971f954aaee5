import StashMachine.Fault
import StashMachine.Syntax.ClassDecl

/-!
# StashMachine.Elaboration.Order — the order of elaboration

`Program.superclassesFirst` keeps source order, except that the superclasses a program declares come
before the classes that extend them.
-/

namespace StashMachine
namespace Program

/-- The number of the class a name refers to: of several classes with one name, the last. -/
def indexOf? (p : Program) (name : String) : Option Nat :=
  (p.zipIdx.reverse.find? (fun (c, _) => c.name == name)).map Prod.snd

/-- The number of the superclass of a class, if the program declares it. -/
def superIndex? (p : Program) (i : Nat) : Option Nat := do
  let c ← p[i]?
  let s ← c.superclass
  p.indexOf? s

/-- The classes that have to be placed before going on, the furthest ancestor first: from a class up to
the first ancestor that is placed already or not declared here.  `room` bounds the length of the walk;
a walk longer than the number of classes meets a class twice. -/
def climb (p : Program) (placed : List Nat) : Nat → List Nat → Option Nat → Except Fault (List Nat)
  | 0, chain, _ => .ok chain
  | _ + 1, chain, none => .ok chain
  | room + 1, chain, some i =>
    if placed.contains i then .ok chain
    else if chain.contains i then
      .error (.cyclicInheritance ((p[i]?.map ClassDecl.name).getD ""))
    else climb p placed room (i :: chain) (p.superIndex? i)

/-- Places the classes with the given numbers, each after its superclasses. -/
def place (p : Program) (placed : List Nat) : List Nat → Except Fault (List Nat)
  | [] => .ok placed
  | i :: rest =>
    match p.climb placed (p.length + 1) [] (some i) with
    | .ok chain => place p (placed ++ chain) rest
    | .error e => .error e

/-- The classes in the order of elaboration. -/
def superclassesFirst (p : Program) : Except Fault Program :=
  match p.place [] (List.range p.length) with
  | .ok order => .ok (order.filterMap (fun i => p[i]?))
  | .error e => .error e

end Program
end StashMachine
