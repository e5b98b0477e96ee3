import TurtleCode.Fault

/-!
# Arithmetic on cells and addresses

Cells are counted in signed 64-bit words and lines in unsigned ones.  An operation whose exact
result does not fit is a fault.

* `Cell.add`, `Cell.sub` and `Cell.mul` work on cells; `fit_eq_ok_iff` says what they answer.
* `Address.add` works on line addresses, which are kept as natural numbers.
-/

namespace TurtleCode

/-- The word of value `n`.  If `n` does not fit, the operation overflowed. -/
def fit (operation : Arithmetic) (n : Int) : Result Int64 :=
  if Int64.minValue.toInt ≤ n ∧ n ≤ Int64.maxValue.toInt then .ok (Int64.ofInt n)
  else .error (.overflow operation)

theorem fit_eq_ok_iff {operation : Arithmetic} {n : Int} {w : Int64} :
    fit operation n = .ok w ↔ w.toInt = n := by
  unfold fit
  constructor
  · intro h
    split at h
    · next hn =>
      cases h
      exact Int64.toInt_ofInt_of_le hn.1 (Int.lt_of_le_of_lt hn.2 (by decide))
    · cases h
  · intro h
    have lower := w.le_toInt
    have upper : w.toInt ≤ Int64.maxValue.toInt := Int.le_of_lt_add_one w.toInt_lt
    subst h
    rw [if_pos ⟨lower, upper⟩, Int64.ofInt_toInt]

namespace Cell

def add (a b : Int64) : Result Int64 := fit .add (a.toInt + b.toInt)

def sub (a b : Int64) : Result Int64 := fit .subtract (a.toInt - b.toInt)

def mul (a b : Int64) : Result Int64 := fit .multiply (a.toInt * b.toInt)

end Cell

namespace Address

/-- A line address, if it is one: it has to fit an unsigned word. -/
def check (n : Nat) : Result Nat :=
  if n < UInt64.size then .ok n else .error (.overflow .add)

def add (a b : Nat) : Result Nat := check (a + b)

def operand (n : Nat) : Int64 := Int64.ofNat n

end Address

end TurtleCode
