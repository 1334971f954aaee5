import StashMachine.Grammar.Cursor
import StashMachine.Grammar.Tree

/-!
# StashMachine.Grammar.Pattern — parsing expressions

* `Pattern`: patterns with ordered choice; `Outcome`: what comes of matching one.
* `Pattern.run`: matching, given how rules match and how gaps are treated.

Where gaps are allowed, white space and comments are passed over between the parts of a sequence, also
in front of an optional part that then matches nothing, and between the rounds of a repetition; a gap
in front of a round that fails is given back.
-/

namespace StashMachine
namespace Grammar

/-- A parsing expression. -/
inductive Pattern
  /-- These characters. -/
  | text (chars : List Char)
  /-- One character that passes a test. -/
  | char (test : Char → Bool)
  /-- A rule. -/
  | rule (rule : Rule)
  /-- One pattern and then another. -/
  | seq (first second : Pattern)
  /-- The first of two patterns that matches. -/
  | alt (first second : Pattern)
  /-- A pattern or nothing. -/
  | opt (body : Pattern)
  /-- A pattern as often as it matches. -/
  | many (body : Pattern)
  /-- Nothing, where a pattern does not match. -/
  | avoid (body : Pattern)
  /-- A pattern without gaps, which leaves no nodes. -/
  | tight (body : Pattern)
  /-- The beginning of the source. -/
  | start
  /-- The end of the source. -/
  | stop

/-- What comes of matching: a match with what is left and the nodes found, a mismatch, or a nesting
deeper than the matcher was given room for. -/
inductive Outcome
  | matched (rest : Cursor) (trees : List Tree)
  | failed
  | exhausted

namespace Outcome

/-- A match that leaves no nodes, or a mismatch. -/
def ofCursor? : Option Cursor → Outcome
  | some c => matched c []
  | none => failed

/-- Goes on after a match. -/
def andThen (o : Outcome) (next : Cursor → List Tree → Outcome) : Outcome :=
  match o with
  | matched c ts => next c ts
  | failed => failed
  | exhausted => exhausted

/-- Goes on after a mismatch. -/
def orElse (o : Outcome) (other : Unit → Outcome) : Outcome :=
  match o with
  | failed => other ()
  | o => o

/-- A match becomes a mismatch, and a mismatch a match of nothing. -/
def inverted (here : Cursor) : Outcome → Outcome
  | matched _ _ => failed
  | failed => matched here []
  | exhausted => exhausted

/-- A match without its nodes. -/
def bare (o : Outcome) : Outcome := o.andThen (fun c _ => matched c [])

/-- Adds nodes in front of those of a match. -/
def after (ts : List Tree) (o : Outcome) : Outcome :=
  o.andThen (fun c us => matched c (ts ++ us))

end Outcome

namespace Pattern

/-- Matches one round after the other until one fails.  Every round reads at least a character, so the
number of characters left bounds the number of rounds. -/
def rounds (round : Cursor → Outcome) : Nat → Cursor → List Tree → Outcome
  | 0, c, ts => .matched c ts
  | n + 1, c, ts =>
    match round c with
    | .matched d us => rounds round n d (ts ++ us)
    | .failed => .matched c ts
    | .exhausted => .exhausted

/-- Matches a pattern, given how rules match and how gaps are treated. -/
def run (call : Spacing → Rule → Cursor → Outcome) : Pattern → Spacing → Cursor → Outcome
  | text chars, _, c => .ofCursor? (c.accept? chars)
  | char test, _, c => .ofCursor? (c.satisfy? test)
  | rule r, gaps, c => call gaps r c
  | seq p q, gaps, c =>
    (run call p gaps c).andThen (fun d ts => (run call q gaps (d.skipUnder gaps)).after ts)
  | alt p q, gaps, c => (run call p gaps c).orElse (fun _ => run call q gaps c)
  | opt p, gaps, c => (run call p gaps c).orElse (fun _ => .matched c [])
  | many p, gaps, c =>
    match run call p gaps c with
    | .matched d ts => rounds (fun e => run call p gaps (e.skipUnder gaps)) d.rest.length d ts
    | .failed => .matched c []
    | .exhausted => .exhausted
  | avoid p, gaps, c => (run call p gaps c).inverted c
  | tight p, _, c => (run call p .atomic c).bare
  | start, _, c => if c.index = 0 then .matched c [] else .failed
  | stop, _, c => if c.rest.isEmpty then .matched c [] else .failed

/-- These characters, written as a text. -/
def lit (s : String) : Pattern := text s.toList

/-- Patterns one after the other. -/
def inOrder : List Pattern → Pattern
  | [] => text []
  | [p] => p
  | p :: ps => seq p (inOrder ps)

/-- The first pattern of a list that matches. -/
def oneOf : List Pattern → Pattern
  | [] => avoid (text [])
  | [p] => p
  | p :: ps => alt p (oneOf ps)

/-- A pattern once or more. -/
def plus (p : Pattern) : Pattern := seq p (many p)

/-- A pattern once or more, with a separator between two rounds. -/
def separated (separator : String) (p : Pattern) : Pattern :=
  seq p (many (seq (lit separator) p))

end Pattern

end Grammar
end StashMachine
