import TurtleCode.Json.Flaw

/-!
# Numbers in JSON text

A number as it is written, and what it means.  A number without fraction and exponent is an integer
if it fits a 64-bit word; minus zero is not an integer.  Any other number is floating point.

A floating-point number is not always the one nearest to what is written.  As many digits as fit an
unsigned 64-bit word are kept, further whole digits only raise the exponent, and further digits of
the fraction are dropped.  The digits are then multiplied or divided by a power of ten, and each of
these steps rounds.

* `Number.meaning` is what a number means.
-/

namespace TurtleCode.Json

/-- A number as it is written: the digits before and after the point, and the exponent with whether
it is negative. -/
structure Number where
  negative : Bool := false
  whole : List Nat := []
  fraction : List Nat := []
  exponent : Option (Bool × List Nat) := none
deriving DecidableEq

inductive Numeric
  | integer (n : Int)
  | real (x : Float)

namespace Number

def ofDigits (digits : List Nat) : Nat := digits.foldl (fun n d => 10 * n + d) 0

/-- Adds digits to a number while it is below a bound, and gives the digits left over. -/
def accumulate (bound : Nat) : Nat → List Nat → Nat × List Nat
  | n, [] => (n, [])
  | n, d :: rest =>
    if 10 * n + d < bound then accumulate bound (10 * n + d) rest else (n, d :: rest)

def power (k : Nat) : Float := Float.ofScientific 1 false k

/-- Divides by a power of ten, in steps of the largest that there is. -/
def scaleDown (x : Float) (k : Nat) : Float :=
  if k ≤ 308 then x / power k
  else if x == 0 then x
  else scaleDown (x / power 308) (k - 308)
termination_by k

def scale (digits : Nat) : Int → Except Flaw Float
  | .ofNat k =>
    let x := digits.toUInt64.toFloat
    if k ≤ 308 then
      if (x * power k).isInf then .error .numberTooLarge else .ok (x * power k)
    else if x == 0 then .ok x
    else .error .numberTooLarge
  | .negSucc k => .ok (scaleDown digits.toUInt64.toFloat (k + 1))

def magnitude (n : Number) : Except Flaw Float := do
  let (first, wholeLeft) := accumulate UInt64.size 0 n.whole
  let (digits, fractionLeft) := accumulate UInt64.size first n.fraction
  let shift : Int := wholeLeft.length - (n.fraction.length - fractionLeft.length)
  match n.exponent with
  | none => scale digits shift
  | some (down, exponent) =>
    match accumulate (UInt32.size / 2) 0 exponent with
    | (k, []) =>
      let sum : Int := if down then shift - k else shift + k
      scale digits (max Int32.minValue.toInt (min Int32.maxValue.toInt sum))
    -- an exponent beyond all bounds makes the number too large, or as good as zero
    | (_, _ :: _) => if digits ≠ 0 ∧ !down then .error .numberTooLarge else .ok 0

def meaning (n : Number) : Except Flaw Numeric := do
  let digits := ofDigits n.whole
  if n.fraction.isEmpty && n.exponent.isNone && !n.negative && decide (digits < UInt64.size) then
    return .integer digits
  else if n.fraction.isEmpty && n.exponent.isNone && n.negative
      && decide (1 ≤ digits ∧ digits ≤ UInt64.size / 2) then
    return .integer (-digits)
  else
    let x ← n.magnitude
    return .real (if n.negative then -x else x)

end Number

end TurtleCode.Json
