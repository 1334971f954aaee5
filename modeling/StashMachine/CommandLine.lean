import StashMachine.Directory
import StashMachine.Machine.Program

/-!
# StashMachine.CommandLine — the command line as a function

* `ofArgs`: arguments to a `Command`.
* `Command.report`: a command and the content of its file to a `Report`: what to print where, and the
  exit code.

Nothing here reads or writes.
-/

namespace StashMachine
namespace CommandLine

/-- What the arguments ask for. -/
structure Options where
  budget : Budget := .standard
  trace : Bool := false
  tokens : Bool := false
  file : Option String := none
  expr : Option String := none

/-- A request. -/
inductive Command
  | help
  | refuse (reason : String)
  | tokens (file : String)
  | run (file : String) (budget : Budget) (trace : Bool)
  | eval (source : String) (budget : Budget) (trace : Bool)

/-- What a command leaves behind. -/
structure Report where
  exit : Nat
  out : String
  err : String

namespace Options

/-- The request of a complete set of options. -/
def command (o : Options) : Command :=
  match o.file, o.expr with
  | some file, none => if o.tokens then .tokens file else .run file o.budget o.trace
  | none, some source =>
    if o.tokens then .refuse "--tokens needs a file" else .eval source o.budget o.trace
  | _, _ => .refuse "expected a file or -e"

end Options

/-- Reads arguments from left to right; later options replace earlier ones. -/
def parse (o : Options) : List String → Command
  | [] => o.command
  | arg :: rest =>
    if arg = "-h" ∨ arg = "--help" then .help
    else if arg = "-e" ∨ arg = "--eval" then
      match rest with
      | source :: rest => parse { o with expr := some source } rest
      | [] => .refuse "-e needs an expression"
    else if arg = "--steps" then
      match rest with
      | n :: rest =>
        match Budget.steps? n with
        | some n => parse { o with budget := .ofSteps n } rest
        | none => .refuse "--steps needs a number"
      | [] => .refuse "--steps needs a number"
    else if arg = "--trace" then parse { o with trace := true } rest
    else if arg = "--tokens" then parse { o with tokens := true } rest
    else if o.file.isNone && arg.toList.head? != some '-' then
      parse { o with file := some arg } rest
    else .refuse ("unexpected argument '" ++ arg ++ "'")

/-- The command some arguments ask for. -/
def ofArgs (args : List String) : Command := parse {} args

/-- How the program is used, line by line. -/
def usageLines : List String :=
  ["jcse - CSE machine for a Java subset",
   "",
   "Usage:",
   "  jcse <File.java>            Run a program from its main method",
   "  jcse -e \"expr\"              Evaluate an expression",
   "  jcse --tokens <File.java>   Print the parse tree of a file",
   "",
   "Options:",
   "  --steps N                   Stop after N machine steps",
   "  --trace                     Print the final control and stash"]

/-- How the program is used. -/
def usage : String := String.join (usageLines.map (fun line => line ++ "\n"))

/-- Where and why a source is faulty; the arrow is set in by the width of the line number. -/
def sourceReport (e : SourceError) : String :=
  let line := toString e.place.line
  String.ofList (List.replicate line.length ' ') ++ "--> " ++ line ++ ":"
    ++ toString e.place.column ++ ": " ++ e.reason

/-- The report of a failure. -/
def failure (reason : String) : Report := ⟨1, "", "Error: " ++ reason ++ "\n"⟩

/-- The wording of a failed run. -/
def runErrorText : RunError → String
  | .source e => "parse error: " ++ sourceReport e
  | .fault e => e.message

/-- The registers at the end of a run. -/
def traceText (m : Machine) : String :=
  "steps: " ++ toString m.steps ++ "\ncontrol:\n" ++ m.controlText ++ "\nstash:\n" ++ m.stashText
    ++ "\n"

namespace Command

/-- The file a command needs. -/
def file? : Command → Option String
  | tokens file => some file
  | run file _ _ => some file
  | _ => none

/-- Carries out a command on a source, which is the content of its file if it needs one. -/
def report (source : String) : Command → Report
  | help => ⟨0, "", usage⟩
  | refuse reason => ⟨1, "", "Error: " ++ reason ++ "\n" ++ usage⟩
  | tokens _ =>
    match Program.treeLines source with
    | .ok lines => ⟨0, Text.join "\n" lines ++ "\n", ""⟩
    | .error e => failure (sourceReport e)
  | run _ budget trace =>
    match Machine.runProgram source budget Natives.empty with
    | .ok m =>
      ⟨0, if trace then traceText m else "",
        if m.isFinished then "" else "Stopped after " ++ toString m.steps ++ " steps\n"⟩
    | .error e => failure (runErrorText e)
  | eval code budget trace =>
    match Machine.runExpr code budget with
    | .ok (v, m) => ⟨0, v.text ++ "\n" ++ (if trace then traceText m else ""), ""⟩
    | .error e => failure (runErrorText e)

/-- The report of a command whose file cannot be read, with the reason. -/
def unreadable (file reason : String) : Report :=
  ⟨1, "", "Error reading file '" ++ file ++ "': " ++ reason ++ "\n"⟩

end Command

/-- Carries out the command of some arguments in a working directory. -/
def perform (args : List String) (files : Directory) : Report :=
  let command := ofArgs args
  match command.file? with
  | none => command.report ""
  | some path =>
    match files.read path with
    | .ok source => command.report source
    | .error obstacle => Command.unreadable path obstacle.text

end CommandLine
end StashMachine
