import StashMachine.Text.Quoted

/-!
# StashMachine.Stack — stacks as lists, top first

A stack is a list with its top in front.
-/

namespace StashMachine

/-- A stack, top first. -/
abbrev Stack (α : Type) := List α

namespace Stack

variable {α : Type}

/-- Puts an item on top. -/
def push (s : Stack α) (a : α) : Stack α := a :: s

/-- Puts items on top in the given order, so that the last ends on top. -/
def pushAll (s : Stack α) (items : List α) : Stack α := items.reverse ++ s

/-- The top and what is below it. -/
def pop? : Stack α → Option (α × Stack α)
  | [] => none
  | a :: s => some (a, s)

/-- The item a number of places below the top. -/
def peek? (s : Stack α) (depth : Nat) : Option α := s[depth]?

/-- Replaces the item a number of places below the top. -/
def setAt (s : Stack α) (depth : Nat) (a : α) : Stack α := s.set depth a

/-- The items, bottom first. -/
def fromBottom (s : Stack α) : List α := s.reverse

/-- The items as numbered lines, top first. -/
def render (text : α → String) (s : Stack α) : String :=
  String.join (s.zipIdx.map (fun (a, i) => Text.column4 i ++ ": " ++ text a ++ "\n"))

end Stack

end StashMachine
