/-!
# StashMachine.Decimal.Binary — doubles as integers times powers of two

`Binary.ofFloat` takes a double apart into `mantissa * 2 ^ exponent`.  Everything exact about doubles
in this library (shortest decimals, remainders) is computed on these two integers.
-/

namespace StashMachine

/-- A double taken apart: not a number, infinite, or `± mantissa * 2 ^ exponent`. -/
inductive Binary
  | nan
  | infinite (negative : Bool)
  | finite (negative : Bool) (mantissa : Nat) (exponent : Int)

namespace Binary

/-- The smallest exponent of a double. -/
def leastExponent : Int := -1074

/-- The mantissa of a power of two, where the doubles below lie twice as close as those above. -/
def hiddenBit : Nat := Nat.pow 2 52

/-- Takes apart the 64 bits of a double: one sign bit, eleven of exponent, 52 of fraction. -/
def ofBits (bits : Nat) : Binary :=
  let negative := bits / Nat.pow 2 63 % 2 == 1
  let biased := bits / hiddenBit % 2048
  let fraction := bits % hiddenBit
  if biased = 2047 then
    if fraction = 0 then infinite negative else nan
  else if biased = 0 then finite negative fraction leastExponent
  else finite negative (hiddenBit + fraction) (biased - 1 + leastExponent)

/-- Takes a double apart. -/
def ofFloat (x : Float) : Binary := ofBits x.toBits.toNat

/-- The numerators of two magnitudes over their common power of two, and that power. -/
def align (m : Nat) (p : Int) (n : Nat) (q : Int) : Nat × Nat × Int :=
  let e := min p q
  (m * Nat.pow 2 (p - e).toNat, n * Nat.pow 2 (q - e).toNat, e)

/-- The remainder of a division that rounds toward zero: exact, with the sign of the dividend.  It is
not a number when the dividend is infinite or the divisor zero, and an infinite divisor leaves the
dividend as it is. -/
def remainder (x y : Float) : Float :=
  match ofFloat x, ofFloat y with
  | finite negative m p, finite _ n q =>
    if n = 0 then 0.0 / 0.0
    else if m = 0 then x
    else
      let (a, b, e) := align m p n q
      let r := Float.scaleB (Float.ofNat (a % b)) e
      if negative then -r else r
  | finite .., infinite _ => x
  | _, _ => 0.0 / 0.0

end Binary

end StashMachine
