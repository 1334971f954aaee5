import StashMachine.Text.Shapeless

/-!
# StashMachine.Text.Quoted — quoted text

Texts and characters between quotes, with everything escaped that would be invisible or would end the
quotation: the usual letters after a backslash, and `\u{…}` with the code point in hexadecimal for
characters without a shape of their own.
-/

namespace StashMachine
namespace Text

/-- One character inside quotes; `quote` is the mark that ends the quotation. -/
def escape (quote : Char) (c : Char) : List Char :=
  if c = '\t' then ['\\', 't']
  else if c = '\r' then ['\\', 'r']
  else if c = '\n' then ['\\', 'n']
  else if c = Char.ofNat 0 then ['\\', '0']
  else if c = '\\' then ['\\', '\\']
  else if c = quote then ['\\', quote]
  else if isShapeless c then
    ['\\', 'u', '\x7b'] ++ Nat.toDigits 16 c.toNat ++ ['\x7d']
  else [c]

/-- A text in double quotes. -/
def quoted (s : String) : String :=
  String.ofList ('"' :: s.toList.flatMap (escape '"') ++ ['"'])

/-- A character in single quotes. -/
def quotedChar (c : Char) : String :=
  String.ofList ('\'' :: escape '\'' c ++ ['\''])

/-- Right-aligns a number in four columns. -/
def column4 (n : Nat) : String :=
  let digits := Nat.toDigits 10 n
  String.ofList (List.replicate (4 - digits.length) ' ' ++ digits)

/-- Joins texts with a separator between them. -/
def join (separator : String) : List String → String
  | [] => ""
  | [s] => s
  | s :: t :: rest => s ++ separator ++ join separator (t :: rest)

end Text
end StashMachine
