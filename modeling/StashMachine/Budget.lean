/-!
# StashMachine.Budget — step budgets
-/

namespace StashMachine

/-- How many steps a run may take; `none` is no limit. -/
structure Budget where
  limit : Option Nat
deriving DecidableEq

namespace Budget

/-- The budget of a run that asks for none. -/
def standard : Budget := ⟨some 1000000⟩

/-- The budget of a run that goes on until control is empty. -/
def unlimited : Budget := ⟨none⟩

/-- A budget of a number of steps. -/
def ofSteps (n : Nat) : Budget := ⟨some n⟩

/-- The largest number of steps that can be asked for. -/
def most : Nat := Nat.pow 2 64 - 1

/-- The number of steps to run for. -/
def target (b : Budget) : Nat := b.limit.getD most

/-- The budget, for display. -/
def term (b : Budget) : String :=
  let limit := match b.limit with
    | some n => "Some(" ++ toString n ++ ")"
    | none => "None"
  "MachineConfig \x7b step_limit: " ++ limit ++ " \x7d"

/-- Reads a number of steps: decimal digits, perhaps after a plus sign, up to the largest number. -/
def steps? (s : String) : Option Nat :=
  let digits := match s.toList with
    | '+' :: rest => rest
    | cs => cs
  if digits.isEmpty || !digits.all Char.isDigit then none
  else
    let n := digits.foldl (fun n c => 10 * n + (c.toNat - '0'.toNat)) 0
    if n ≤ most then some n else none

end Budget

end StashMachine
