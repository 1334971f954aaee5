import StashMachine.Class
import StashMachine.Text.Quoted
import StashMachine.Value.Number

/-!
# StashMachine.Value.Basic — values

What a variable can hold.  An object is known by its frame and an array by its number; both are
compared by identity, everything else by content.
-/

namespace StashMachine

/-- A value. -/
inductive Value
  | void
  | null
  | boolean (b : Bool)
  | char (c : Char)
  | number (n : Number)
  | string (s : String)
  | object (cls : Class) (frame : FrameId)
  | array (id : Nat) (element : TypeName) (elements : List Value)

namespace Value

/-- An `int`. -/
def int (n : Int32) : Value := number (.int n)

/-- A `long`. -/
def long (n : Int64) : Value := number (.long n)

/-- A double. -/
def double (x : Float) : Value := number (.double x)

/-- The value of a literal. -/
def ofLiteral : Literal → Value
  | .int n => int n
  | .long n => long n
  | .double x => double x
  | .boolean b => boolean b
  | .char c => char c
  | .string s => string s
  | .null => null

/-- What a field of a type holds before it is assigned. -/
def default (t : TypeName) : Value := ofLiteral (Literal.default t)

/-- The number a value counts as; a character counts as its code. -/
def number? : Value → Option Number
  | number n => some n
  | char c => some (.int (Int32.ofNat c.toNat))
  | _ => none

/-- The type of a value as the run shows it. -/
def type : Value → TypeName
  | void => .void
  | null => .null
  | boolean _ => .primitive .boolean
  | char _ => .primitive .char
  | number n => n.type
  | string _ => .string
  | object c _ => .named c.name
  | array _ element _ => .array element

/-- Whether two values are one and the same. -/
def same : Value → Value → Bool
  | void, void => true
  | null, null => true
  | boolean a, boolean b => a == b
  | char a, char b => a == b
  | number a, number b => a.same b
  | string a, string b => a == b
  | object _ f, object _ g => f == g
  | array i _ _, array j _ _ => i == j
  | _, _ => false

/-- A number as eight hexadecimal digits. -/
def hex8 (n : Nat) : String :=
  let digits := Nat.toDigits 16 (n % Nat.pow 2 32)
  String.ofList (List.replicate (8 - digits.length) '0' ++ digits)

/-- Writes an object: its class and a number that no other object shares. -/
def objectText (c : Class) (frame : FrameId) : String := c.name ++ "@" ++ hex8 frame

/-- Writes a truth value. -/
def boolText (b : Bool) : String := if b then "true" else "false"

mutual

/-- Writes a value. -/
def text : Value → String
  | void => "void"
  | null => "null"
  | boolean b => boolText b
  | char c => c.toString
  | number n => n.text
  | string s => s
  | object c f => objectText c f
  | array _ _ elements => "[" ++ Text.join ", " (texts elements) ++ "]"

/-- Writes several values. -/
def texts : List Value → List String
  | [] => []
  | v :: vs => text v :: texts vs

end

mutual

/-- Writes a value with its kind, quoted where it is text. -/
def term : Value → String
  | void => "Void"
  | null => "Null"
  | boolean b => "Boolean(" ++ boolText b ++ ")"
  | char c => "Char(" ++ Text.quotedChar c ++ ")"
  | number n => "Number(" ++ n.term ++ ")"
  | string s => "String(" ++ Text.quoted s ++ ")"
  | object c f =>
    "Object(Object \x7b id: " ++ hex8 f ++ ", class: " ++ Text.quoted c.name ++ " \x7d)"
  | array _ element elements =>
    "Array(ArrayValue \x7b element_type: " ++ Text.quoted element.text ++ ", elements: ["
      ++ Text.join ", " (terms elements) ++ "] \x7d)"

/-- Writes several values with their kinds. -/
def terms : List Value → List String
  | [] => []
  | v :: vs => term v :: terms vs

end

end Value

end StashMachine
