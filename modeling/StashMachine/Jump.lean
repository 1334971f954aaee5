/-!
# StashMachine.Jump — the three ways out of a construct
-/

namespace StashMachine

/-- What a jump looks for. -/
inductive Jump
  | ret | brk | cont
deriving DecidableEq

namespace Jump

/-- The keyword of a jump. -/
def keyword : Jump → String
  | ret => "return"
  | brk => "break"
  | cont => "continue"

/-- The name of a jump. -/
def label : Jump → String
  | ret => "Return"
  | brk => "Break"
  | cont => "Continue"

end Jump

end StashMachine
