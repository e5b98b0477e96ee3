import TurtleCode.Decimal.Binary

/-!
# Shortest decimals

The decimal text of a floating-point number with the fewest digits that read back as that number; of
several such, the nearest.  Numbers from 1e-5 on and below 1e16 are written with a point and others
with an exponent, which has a sign.

* `shortest` finds the digits.
* `text` writes them.
-/

namespace TurtleCode.Decimal

/-- The decimal number `digits * 10 ^ exponent`. -/
structure Scaled where
  digits : Nat
  exponent : Int
deriving DecidableEq, Repr

def timesTen (numerator denominator : Nat) : Int → Nat × Nat
  | .ofNat k => (numerator * Nat.pow 10 k, denominator)
  | .negSucc k => (numerator, denominator * Nat.pow 10 (k + 1))

/-- The number of digits before the point of a fraction, less one for each zero right after the
point if there are none. -/
def decade (numerator denominator : Nat) : Int :=
  if denominator ≤ numerator then (Nat.toDigits 10 (numerator / denominator)).length
  else
    match (List.range 400).find? fun k => decide (denominator ≤ numerator * Nat.pow 10 (k + 1)) with
    | some k => -k
    | none => 0

/-- Whether a decimal number reads back as `b`: it is between the middles to the neighbours of `b`,
which belong to `b` if its mantissa is even. -/
def readsBack (b : Binary) (s : Scaled) : Bool :=
  let below := if b.mantissa = Nat.pow 2 52 ∧ -1074 < b.exponent then 1 else 2
  let low := Binary.fraction ⟨4 * b.mantissa - below, b.exponent - 2⟩
  let high := Binary.fraction ⟨4 * b.mantissa + 2, b.exponent - 2⟩
  let value := timesTen s.digits 1 s.exponent
  if b.mantissa % 2 = 0 then
    decide (low.1 * value.2 ≤ value.1 * low.2 ∧ value.1 * high.2 ≤ high.1 * value.2)
  else
    decide (low.1 * value.2 < value.1 * low.2 ∧ value.1 * high.2 < high.1 * value.2)

/-- The nearest decimal number of `count` digits that reads back as `b`, if there is one. -/
def candidate? (b : Binary) (count : Nat) : Option Scaled :=
  let (numerator, denominator) := b.fraction
  let exponent := decade numerator denominator - count
  let (n, d) := timesTen numerator denominator (-exponent)
  let near := Binary.nearest n d
  let down := n / d
  [near, down, down + 1].map (⟨·, exponent⟩) |>.find? (readsBack b)

def trim (digits : Nat) (exponent : Int) : Scaled :=
  if 0 < digits ∧ digits % 10 = 0 then trim (digits / 10) (exponent + 1) else ⟨digits, exponent⟩
termination_by digits

def shortest (b : Binary) : Scaled :=
  match (List.range 17).findSome? fun k => candidate? b (k + 1) with
  | some s => trim s.digits s.exponent
  | none => ⟨0, 0⟩

def exponentText (e : Int) : List Char :=
  (if e < 0 then '-' else '+') :: Nat.toDigits 10 e.natAbs

def Scaled.text (s : Scaled) : String :=
  let digits := Nat.toDigits 10 s.digits
  let point := digits.length + s.exponent
  let zeroes (k : Int) := List.replicate k.toNat '0'
  String.ofList <|
    if 0 ≤ s.exponent ∧ point ≤ 16 then digits ++ zeroes s.exponent ++ ['.', '0']
    else if 0 < point ∧ point ≤ 16 then
      digits.take point.toNat ++ '.' :: digits.drop point.toNat
    else if -5 < point ∧ point ≤ 0 then '0' :: '.' :: zeroes (-point) ++ digits
    else
      digits.take 1 ++ (if digits.length = 1 then [] else '.' :: digits.drop 1)
        ++ 'e' :: exponentText (point - 1)

def text (x : Float) : String :=
  let b := Binary.ofFloat x
  (if x.toBits.toNat < UInt64.size / 2 then "" else "-")
    ++ if b.mantissa = 0 then "0.0" else (shortest b).text

end TurtleCode.Decimal
