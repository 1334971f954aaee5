import StashMachine.CommandLine

/-!
# StashMachine.Main — the program
-/

namespace StashMachine

open CommandLine

/-- The wording of a failure of the operating system, whose number may come with its sign turned. -/
def failureText (code : UInt32) (name : String) : String :=
  let number := if code < 0x80000000 then code.toNat else (0 - code).toNat
  match Obstacle.ofNumber? number with
  | some obstacle => obstacle.text
  | none => Obstacle.wording name number

/-- Why a file cannot be read. -/
def reasonOf : IO.Error → String
  | .noFileOrDirectory _ code name | .inappropriateType _ code name
  | .permissionDenied _ code name | .invalidArgument _ code name
  | .resourceExhausted _ code name | .otherError code name => failureText code name
  | .userError _ => "stream did not contain valid UTF-8"
  | e => toString e

/-- Reads the file of a command, if it needs one, and carries the command out. -/
def reportOf (command : Command) : IO Report := do
  match command.file? with
  | none => return command.report ""
  | some file =>
    try
      return command.report (← IO.FS.readFile file)
    catch e =>
      return Command.unreadable file (reasonOf e)

end StashMachine

/-- Carries out the command of the arguments. -/
def main (args : List String) : IO UInt32 := do
  let report ← StashMachine.reportOf (StashMachine.CommandLine.ofArgs args)
  IO.print report.out
  IO.eprint report.err
  return UInt32.ofNat report.exit
