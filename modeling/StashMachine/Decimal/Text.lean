import StashMachine.Decimal.Shortest

/-!
# StashMachine.Decimal.Text — doubles written and read

* `text`: the shortest digits, laid out by `plain`, which holds what is a matter of taste: where
  positional writing ends and how the special values are spelled.
* `ofString?`: reads a double in any of the usual spellings.
-/

namespace StashMachine
namespace Decimal

/-- The choices of a way to write doubles. -/
structure Layout where
  /-- The least exponent of the leading digit that is written positionally. -/
  least : Int
  /-- The first exponent above `least` that no longer is. -/
  limit : Int
  mark : String
  nan : String
  infinity : String

/-- Positional from a ten thousandth up to below ten to the sixteenth, always with a fraction; else one
digit before the point and a bare exponent. -/
def plain : Layout := ⟨-4, 16, "e", "NaN", "inf"⟩

/-- Digits with the point after the first `point` of them. -/
def positional (digits : List Char) (point : Int) : List Char :=
  if point ≤ 0 then '0' :: '.' :: (List.replicate (-point).toNat '0' ++ digits)
  else
    let n := point.toNat
    if digits.length ≤ n then digits ++ List.replicate (n - digits.length) '0' ++ ['.', '0']
    else digits.take n ++ '.' :: digits.drop n

/-- Digits with the point after the first one, and an exponent. -/
def scientific (layout : Layout) (digits : List Char) (exponent : Int) : List Char :=
  let front := match digits with
    | d :: e :: rest => d :: '.' :: e :: rest
    | short => short
  front ++ layout.mark.toList ++ (toString exponent).toList

/-- Writes a positive decimal. -/
def Scientific.chars (layout : Layout) (d : Scientific) : List Char :=
  let digits := Nat.toDigits 10 d.digits
  let point := d.exponent + digits.length
  if layout.least ≤ point - 1 ∧ point - 1 < layout.limit then positional digits point
  else scientific layout digits (point - 1)

/-- Writes a double in a given way. -/
def format (layout : Layout) (x : Float) : String :=
  match Binary.ofFloat x with
  | .nan => layout.nan
  | .infinite negative => (if negative then "-" else "") ++ layout.infinity
  | .finite negative m e =>
    let magnitude := if m = 0 then ['0', '.', '0'] else (shortest m e).chars layout
    (if negative then "-" else "") ++ String.ofList magnitude

/-- Writes a double. -/
def text (x : Float) : String := format plain x

/-- The number a list of decimal digits spells. -/
def value (digits : List Char) : Nat :=
  digits.foldl (fun n c => 10 * n + (c.toNat - '0'.toNat)) 0

/-- The double nearest to `digits * 10 ^ exponent`.  Beyond the reach of doubles the answer is known
without arithmetic. -/
def nearest (digits : Nat) (exponent : Int) : Float :=
  let size := exponent + (Nat.toDigits 10 digits).length
  if digits = 0 then 0
  else if 310 < size then 1.0 / 0.0
  else if size < -330 then 0
  else Float.ofScientific digits (exponent < 0) exponent.natAbs

/-- Reads the digits after an exponent mark, with a sign if there is one. -/
def exponent? : List Char → Option Int
  | '-' :: ds => if ds ≠ [] ∧ ds.all Char.isDigit then some (-(value ds : Int)) else none
  | '+' :: ds => if ds ≠ [] ∧ ds.all Char.isDigit then some (value ds) else none
  | ds => if ds ≠ [] ∧ ds.all Char.isDigit then some (value ds) else none

/-- Reads a number without sign: digits, perhaps with a point among or around them, and perhaps an
exponent. -/
def magnitude? (cs : List Char) : Option Float :=
  let whole := cs.takeWhile Char.isDigit
  let afterWhole := cs.dropWhile Char.isDigit
  let (fraction, tail) := match afterWhole with
    | '.' :: r => (r.takeWhile Char.isDigit, r.dropWhile Char.isDigit)
    | r => ([], r)
  let digits := whole ++ fraction
  if digits = [] then none
  else match tail with
    | [] => some (nearest (value digits) (-(fraction.length : Int)))
    | c :: r =>
      if c = 'e' ∨ c = 'E' then
        (exponent? r).map (fun e => nearest (value digits) (e - fraction.length))
      else none

/-- Reads a double without sign, the special values in any case included. -/
def unsigned? (cs : List Char) : Option Float :=
  let word := String.ofList (cs.map Char.toLower)
  if word = "inf" ∨ word = "infinity" then some (1.0 / 0.0)
  else if word = "nan" then some (0.0 / 0.0)
  else magnitude? cs

/-- Reads a double. -/
def ofString? (s : String) : Option Float :=
  match s.toList with
  | '-' :: cs => (unsigned? cs).map (fun x => -x)
  | '+' :: cs => unsigned? cs
  | cs => unsigned? cs

end Decimal
end StashMachine
