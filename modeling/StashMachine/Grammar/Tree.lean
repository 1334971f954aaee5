import StashMachine.Grammar.Rule
import StashMachine.Text.Quoted

/-!
# StashMachine.Grammar.Tree — parse trees

A node holds its rule, the byte it starts at, the text it covers and the nodes inside it.
`Tree.lines` shows a tree, one node a line.
-/

namespace StashMachine
namespace Grammar

/-- A parse tree. -/
inductive Tree
  | node (rule : Rule) (start : Nat) (text : String) (children : List Tree)

namespace Tree

/-- The rule of the root. -/
def rule : Tree → Rule
  | node r _ _ _ => r

/-- The byte the tree starts at. -/
def start : Tree → Nat
  | node _ s _ _ => s

/-- The text the tree covers. -/
def text : Tree → String
  | node _ _ t _ => t

/-- The nodes inside the root. -/
def children : Tree → List Tree
  | node _ _ _ ts => ts

/-- The line of one node: its rule, its first byte and the byte after its last, and its text. -/
def headline (indent : Nat) (rule : Rule) (start : Nat) (text : String) : String :=
  String.ofList (List.replicate indent ' ') ++ rule.label ++ " => (" ++ toString start ++ ","
    ++ toString (start + text.utf8ByteSize) ++ ") #" ++ Text.quoted text

mutual

/-- The lines of a tree, indented by two blanks a level. -/
def lines (indent : Nat) : Tree → List String
  | node rule start text children =>
    headline indent rule start text :: linesAll (indent + 2) children

/-- The lines of several trees, one after the other. -/
def linesAll (indent : Nat) : List Tree → List String
  | [] => []
  | t :: ts => lines indent t ++ linesAll indent ts

end

end Tree

end Grammar
end StashMachine
