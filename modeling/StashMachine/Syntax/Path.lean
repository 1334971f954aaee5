/-!
# StashMachine.Syntax.Path — dotted names

A name such as `a.b.c` is a simple name followed by fields.  Every text is the text of a path
(`text_ofString`): the dots separate the segments, and a segment may be empty.
-/

namespace StashMachine

/-- A simple name, or a field reached through a path. -/
inductive Path
  | simple (name : String)
  | field (owner : Path) (name : String)
deriving DecidableEq

namespace Path

/-- The first segment and the ones after it, cut at the dots. -/
def cut : List Char → List Char × List (List Char)
  | [] => ([], [])
  | c :: rest =>
    let (first, more) := cut rest
    if c = '.' then ([], first :: more) else (c :: first, more)

/-- Reads a dotted name. -/
def ofString (s : String) : Path :=
  let (first, more) := cut s.toList
  more.foldl (fun path segment => .field path (String.ofList segment)) (.simple (String.ofList first))

/-- Writes a dotted name. -/
def text : Path → String
  | simple name => name
  | field owner name => owner.text ++ "." ++ name

/-- The part before the last dot, `none` for a simple name. -/
def owner? : Path → Option Path
  | simple _ => none
  | field owner _ => some owner

/-- The part after the last dot. -/
def last : Path → String
  | simple name => name
  | field _ name => name

@[simp] theorem text_simple (x : String) : (simple x).text = x := rfl

@[simp] theorem text_field (p : Path) (x : String) : (field p x).text = p.text ++ "." ++ x := rfl

/-- Cutting loses only the dots. -/
theorem cut_join (cs : List Char) :
    (cut cs).1 ++ (cut cs).2.flatMap (fun segment => '.' :: segment) = cs := by
  induction cs with
  | nil => rfl
  | cons c rest ih => by_cases h : c = '.' <;> simp [cut, h, ih]

theorem text_foldl_field (more : List (List Char)) (p : Path) :
    (more.foldl (fun path segment => field path (String.ofList segment)) p).text
      = p.text ++ String.ofList (more.flatMap (fun segment => '.' :: segment)) := by
  induction more generalizing p with
  | nil => simp
  | cons s more ih => simp [ih, String.append_assoc, ← String.ofList_append]

/-- Reading a dotted name loses nothing of its text. -/
theorem text_ofString (s : String) : (ofString s).text = s := by
  have h := cut_join s.toList
  simp only [ofString, text_foldl_field, text_simple, ← String.ofList_append, h]
  simp

end Path

end StashMachine
