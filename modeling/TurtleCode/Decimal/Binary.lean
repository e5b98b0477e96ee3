/-!
# Floating-point numbers as exact fractions

A finite floating-point number is a whole number times a power of two.

* `Binary` is such a number without its sign, and `Binary.ofFloat` takes a number apart.
* `Binary.roundedTo` rounds it to a number of decimal places, halves to the even neighbour.
-/

namespace TurtleCode.Decimal

/-- The number `mantissa * 2 ^ exponent`. -/
structure Binary where
  mantissa : Nat
  exponent : Int
deriving DecidableEq, Repr

namespace Binary

/-- The absolute value of a finite number. -/
def ofFloat (x : Float) : Binary :=
  let bits : Nat := x.toBits.toNat
  let fraction : Nat := bits % Nat.pow 2 52
  let power : Nat := bits / Nat.pow 2 52 % Nat.pow 2 11
  if power = 0 then ⟨fraction, -1074⟩ else ⟨fraction + Nat.pow 2 52, (power : Int) - 1075⟩

def fraction (b : Binary) : Nat × Nat :=
  match b.exponent with
  | .ofNat e => (b.mantissa * Nat.pow 2 e, 1)
  | .negSucc e => (b.mantissa, Nat.pow 2 (e + 1))

/-- The whole number nearest to a fraction, halves to the even one. -/
def nearest (numerator denominator : Nat) : Nat :=
  let whole := numerator / denominator
  let twice := 2 * (numerator % denominator)
  if twice < denominator then whole
  else if denominator < twice then whole + 1
  else whole + whole % 2

def roundedTo (b : Binary) (places : Nat) : Nat :=
  nearest (b.fraction.1 * Nat.pow 10 places) b.fraction.2

end Binary

end TurtleCode.Decimal
