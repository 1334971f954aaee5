import StashMachine.Decimal.Binary

/-!
# StashMachine.Decimal.Shortest — the shortest decimal of a double

* `shortest`: the decimal with the fewest digits that reads back as a given double, and of those the
  nearest one; a tie goes up.

All comparisons are between natural numbers: the double and the two ends of the interval that rounds
to it are put over one denominator (`Interval.around`), and for each number of digits the two
neighbours of the double on that decimal grid are tried (`Interval.withDigits?`).
-/

namespace StashMachine
namespace Decimal

/-- A decimal `digits * 10 ^ exponent`. -/
structure Scientific where
  digits : Nat
  exponent : Int
deriving DecidableEq

/-- A positive double with the interval of numbers that round to it: `low`, `mid` and `high` over
`den`.  The ends belong to the interval when `closed`. -/
structure Interval where
  low : Nat
  mid : Nat
  high : Nat
  den : Nat
  closed : Bool

namespace Interval

/-- The interval around `mantissa * 2 ^ exponent`: half way to each neighbour. -/
def around (mantissa : Nat) (exponent : Int) : Interval :=
  let up := Nat.pow 2 (exponent - 2).toNat
  let below := if mantissa = Binary.hiddenBit then 1 else 2
  { low := (4 * mantissa - below) * up
    mid := 4 * mantissa * up
    high := (4 * mantissa + 2) * up
    den := Nat.pow 2 (2 - exponent).toNat
    closed := mantissa % 2 == 0 }

/-- Whether `n * 10 ^ k` lies in the interval; `k` is given as the quotient `num / den` of two powers
of ten. -/
def contains (i : Interval) (n num den : Nat) : Bool :=
  let x := n * num * i.den
  if i.closed then i.low * den ≤ x && x ≤ i.high * den
  else i.low * den < x && x < i.high * den

/-- The exponent of the leading decimal digit of `mid / den`. -/
def leading (i : Interval) : Int :=
  if i.den ≤ i.mid then ((Nat.toDigits 10 (i.mid / i.den)).length : Int) - 1
  else
    let j := (Nat.toDigits 10 (i.den / i.mid)).length
    if i.den ≤ i.mid * Nat.pow 10 (j - 1) then 1 - (j : Int) else -(j : Int)

/-- The best decimal with `n` digits in the interval, if there is one. -/
def withDigits? (i : Interval) (n : Nat) : Option Scientific :=
  let k := i.leading - n + 1
  let num := Nat.pow 10 k.toNat
  let den := Nat.pow 10 (-k).toNat
  let f := i.mid * den / (i.den * num)
  let down := i.contains f num den
  let up := i.contains (f + 1) num den
  if up && (!down || (2 * f + 1) * num * i.den ≤ 2 * i.mid * den) then some ⟨f + 1, k⟩
  else if down then some ⟨f, k⟩
  else none

end Interval

/-- Takes the zeros off the end of the digits. -/
def Scientific.trim : Nat → Scientific → Scientific
  | 0, d => d
  | fuel + 1, d =>
    if d.digits % 10 = 0 ∧ d.digits ≠ 0 then trim fuel ⟨d.digits / 10, d.exponent + 1⟩ else d

/-- The shortest decimal of `mantissa * 2 ^ exponent`, which is positive.  Seventeen digits always
suffice. -/
def shortest (mantissa : Nat) (exponent : Int) : Scientific :=
  let i := Interval.around mantissa exponent
  let found := (List.range 17).findSome? (fun n => i.withDigits? (n + 1))
  (found.getD ⟨mantissa, exponent⟩).trim 20

end Decimal
end StashMachine
