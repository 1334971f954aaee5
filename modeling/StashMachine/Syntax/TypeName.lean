/-!
# StashMachine.Syntax.TypeName — types as written

`int`, `String[]`, `Parent`, and `void` for results; `null` is the type of the null literal.  A type is
read from its text by taking off the `[]` suffixes first, and nothing of the text is lost
(`text_ofString`).
-/

namespace StashMachine

/-- The primitive types. -/
inductive Primitive
  | byte | short | char | int | long | float | double | boolean
deriving DecidableEq

namespace Primitive

/-- Every primitive type once. -/
def all : List Primitive := [byte, short, char, int, long, float, double, boolean]

/-- The keyword of a primitive type. -/
def text : Primitive → String
  | byte => "byte" | short => "short" | char => "char" | int => "int"
  | long => "long" | float => "float" | double => "double" | boolean => "boolean"

/-- The primitive type with a given keyword. -/
def ofString? (s : String) : Option Primitive := all.find? (fun p => p.text == s)

/-- All primitive types but `boolean`. -/
def isNumeric : Primitive → Bool
  | boolean => false
  | _ => true

/-- The primitive types a value of a type widens to, the type itself left out. -/
def widenings : Primitive → List Primitive
  | byte => [short, int, long, float, double]
  | short => [int, long, float, double]
  | char => [int, long, float, double]
  | int => [long, float, double]
  | long => [float, double]
  | float => [double]
  | double => []
  | boolean => []

/-- A primitive type is read back from its keyword. -/
theorem ofString?_text (p : Primitive) : ofString? p.text = some p := by
  cases p <;> rfl

end Primitive

/-- A type: primitive, one of the two special types, a class by name, or an array of elements. -/
inductive TypeName
  | primitive (p : Primitive)
  | void
  | null
  | named (name : String)
  | array (element : TypeName)
deriving DecidableEq

namespace TypeName

/-- The type of texts. -/
def string : TypeName := named "String"

/-- The type every reference converts to. -/
def object : TypeName := named "Object"

/-- Reads a type that has no `[]` suffix. -/
def ofWord (s : String) : TypeName :=
  match Primitive.ofString? s with
  | some p => primitive p
  | none => if s = "void" then void else if s = "null" then null else named s

/-- Reads a type from its characters, last one first. -/
def ofReversed : List Char → TypeName
  | ']' :: '[' :: rest => array (ofReversed rest)
  | rest => ofWord (String.ofList rest.reverse)

/-- Reads a type. -/
def ofString (s : String) : TypeName := ofReversed s.toList.reverse

/-- Writes a type. -/
def text : TypeName → String
  | primitive p => p.text
  | void => "void"
  | null => "null"
  | named s => s
  | array t => t.text ++ "[]"

theorem text_ofWord (s : String) : (ofWord s).text = s := by
  unfold ofWord
  split
  · rename_i p h
    have := List.find?_some h
    simpa [text] using this
  · split
    · simp_all [text]
    · split <;> simp_all [text]

theorem text_ofReversed (cs : List Char) : (ofReversed cs).text = String.ofList cs.reverse := by
  fun_induction ofReversed cs with
  | case1 rest ih => simp [text, ih]
  | case2 rest h => simp [text_ofWord]

/-- Reading a type loses nothing of its text. -/
theorem text_ofString (s : String) : (ofString s).text = s := by
  simp [ofString, text_ofReversed]

/-- Whether the type is primitive. -/
def isPrimitive : TypeName → Bool
  | primitive _ => true
  | _ => false

/-- Whether values of the type are references: everything but the primitive types and `void`. -/
def isReference : TypeName → Bool
  | primitive _ => false
  | void => false
  | _ => true

/-- Whether the type takes part in arithmetic. -/
def isNumeric : TypeName → Bool
  | primitive p => p.isNumeric
  | _ => false

/-- The type of the elements of an array type. -/
def element? : TypeName → Option TypeName
  | array t => some t
  | _ => none

/-- Binary numeric promotion: floating point wins over `long`, and `long` over the rest. -/
def promote (left right : TypeName) : TypeName :=
  if left = primitive .double ∨ right = primitive .double
      ∨ left = primitive .float ∨ right = primitive .float then primitive .double
  else if left = primitive .long ∨ right = primitive .long then primitive .long
  else primitive .int

end TypeName

end StashMachine
