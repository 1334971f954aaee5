/-!
# StashMachine.Directory — reading a file by its path

* `Directory`: the files below the working directory, each with the names that lead to it.
* `Directory.read`: follows a path name by name to the content of a file, or to the obstacle on the way.

A name that a file's path begins with is a directory.  Of what lies outside the working directory only
the directories on the way up are known.
-/

namespace StashMachine

/-- The files below the working directory, with the names that lead to them. -/
abbrev Directory := List (List String × String)

/-- Why a path leads to no file. -/
inductive Obstacle
  | missing
  | notDirectory
  | isDirectory
  | nameTooLong
deriving DecidableEq

namespace Obstacle

/-- Every obstacle once. -/
def all : List Obstacle := [missing, notDirectory, isDirectory, nameTooLong]

/-- What an obstacle is called. -/
def name : Obstacle → String
  | missing => "No such file or directory"
  | notDirectory => "Not a directory"
  | isDirectory => "Is a directory"
  | nameTooLong => "File name too long"

/-- The number an obstacle goes by in the operating system. -/
def number : Obstacle → Nat
  | missing => 2
  | notDirectory => 20
  | isDirectory => 21
  | nameTooLong => 36

/-- The obstacle with a given number. -/
def ofNumber? (n : Nat) : Option Obstacle := all.find? (fun o => o.number == n)

/-- The wording of a failure with a name and a number. -/
def wording (name : String) (number : Nat) : String :=
  name ++ " (os error " ++ toString number ++ ")"

/-- The wording of an obstacle. -/
def text (o : Obstacle) : String := wording o.name o.number

/-- An obstacle is known by its number. -/
theorem ofNumber?_number (o : Obstacle) : ofNumber? o.number = some o := by
  cases o <;> rfl

end Obstacle

namespace Directory

/-- Where a path has led so far. -/
inductive Place
  /-- A file. -/
  | file (content : String)
  /-- The directory that some names lead to. -/
  | inside (names : List String)
  /-- A directory that is not below the working directory. -/
  | outside

/-- The number of bytes a name may have. -/
def longestName : Nat := 255

/-- The number of bytes a path may have. -/
def longestPath : Nat := 4095

/-- What some names lead to. -/
def entry (files : Directory) (names : List String) : Except Obstacle Place :=
  match files.lookup names with
  | some content => .ok (.file content)
  | none =>
    if files.any (fun f => names.isPrefixOf f.1) then .ok (.inside names) else .error .missing

/-- The directory around a directory. -/
def around : List String → Place
  | [] => .outside
  | names => .inside names.dropLast

/-- Follows one name.  An empty name stands between two slashes and leads nowhere else, as a dot does. -/
def follow (files : Directory) : Place → String → Except Obstacle Place
  | .file _, _ => .error .notDirectory
  | .inside names, name =>
    if name = "" ∨ name = "." then .ok (.inside names)
    else if name = ".." then .ok (around names)
    else if name.utf8ByteSize > longestName then .error .nameTooLong
    else files.entry (names ++ [name])
  | .outside, name =>
    if name = "" ∨ name = "." ∨ name = ".." then .ok .outside
    else if name.utf8ByteSize > longestName then .error .nameTooLong
    else .error .missing

/-- Where a path begins: a leading slash leaves the working directory. -/
def origin (path : String) : Place :=
  if path.toList.head? = some '/' then .outside else .inside []

/-- The content of the file that a path leads to. -/
def read (files : Directory) (path : String) : Except Obstacle String :=
  if path = "" then .error .missing
  else if path.utf8ByteSize > longestPath then .error .nameTooLong
  else
    match (path.splitOn "/").foldlM files.follow (origin path) with
    | .ok (.file content) => .ok content
    | .ok _ => .error .isDirectory
    | .error obstacle => .error obstacle

end Directory

end StashMachine
