import StashMachine.Grammar.Rule

/-!
# StashMachine.Grammar.Cursor — places in a source

A cursor is what is left of a source together with how much was read.  `Cursor.skip` passes over the
gap between two tokens: white space and comments, as many as there are.
-/

namespace StashMachine
namespace Grammar

/-- A place in a source: the characters and the bytes before it, and the characters after it. -/
structure Cursor where
  index : Nat
  offset : Nat
  rest : List Char

namespace Cursor

/-- The place before the first character. -/
def start (source : String) : Cursor := ⟨0, 0, source.toList⟩

/-- The place after one character more, which is `c`, when `rest` is left. -/
def past (here : Cursor) (c : Char) (rest : List Char) : Cursor :=
  ⟨here.index + 1, here.offset + c.utf8Size, rest⟩

/-- The text from one place to a later one. -/
def textTo (a b : Cursor) : String := String.ofList (a.rest.take (b.index - a.index))

/-- Reads the given characters. -/
def accept? (wanted : List Char) (here : Cursor) : Option Cursor :=
  match wanted with
  | [] => some here
  | w :: more =>
    match here.rest with
    | c :: rest => if c = w then accept? more (here.past c rest) else none
    | [] => none

/-- Reads one character that passes a test. -/
def satisfy? (test : Char → Bool) (here : Cursor) : Option Cursor :=
  match here.rest with
  | c :: rest => if test c then some (here.past c rest) else none
  | [] => none

/-- What a reader of a gap is inside of.  An open block comment remembers where it began, since one
that is never closed is no gap. -/
inductive Gap
  | blank
  | line
  | block (opened : Cursor)

/-- White space: blank, tab and the two line ends. -/
def isSpace (c : Char) : Bool := c == ' ' || c == '\t' || c == '\r' || c == '\n'

/-- Passes over a gap, given what it is inside of and the numbers of characters and bytes read. -/
def skipFrom : Gap → Nat → Nat → List Char → Cursor
  | .blank, i, o, '/' :: '/' :: rest => skipFrom .line (i + 2) (o + 2) rest
  | .blank, i, o, '/' :: '*' :: rest =>
    skipFrom (.block ⟨i, o, '/' :: '*' :: rest⟩) (i + 2) (o + 2) rest
  | .blank, i, o, c :: rest =>
    if isSpace c then skipFrom .blank (i + 1) (o + c.utf8Size) rest else ⟨i, o, c :: rest⟩
  | .line, i, o, c :: rest =>
    if c = '\n' then skipFrom .blank (i + 1) (o + 1) rest
    else skipFrom .line (i + 1) (o + c.utf8Size) rest
  | .block _, i, o, '*' :: '/' :: rest => skipFrom .blank (i + 2) (o + 2) rest
  | .block opened, i, o, c :: rest => skipFrom (.block opened) (i + 1) (o + c.utf8Size) rest
  | .blank, i, o, [] => ⟨i, o, []⟩
  | .line, i, o, [] => ⟨i, o, []⟩
  | .block opened, _, _, [] => opened

/-- Passes over white space and comments. -/
def skip (here : Cursor) : Cursor := skipFrom .blank here.index here.offset here.rest

/-- Passes over a gap where gaps are allowed. -/
def skipUnder (gaps : Spacing) (here : Cursor) : Cursor := if gaps = .free then here.skip else here

end Cursor

end Grammar
end StashMachine
