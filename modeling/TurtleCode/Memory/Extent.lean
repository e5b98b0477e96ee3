import TurtleCode.Tree.Variable

/-!
# Extents

How many cells a variable takes.  A string has a header of three cells (pointer, most characters,
characters now) before its characters, an array one of two cells (pointer, count) before its
elements.

* `Variable.storageLength` is the length of a part of a variable that starts at some dimension.
* `Variable.length` is what a variable takes in its routine's region.
* `Variable.total` adds lengths from left to right.
-/

namespace TurtleCode.Variable

def stringHeader : Int64 := 3

def arrayHeader : Int64 := 2

/-- The cells of an innermost element: a whole string, or one cell. -/
def scalarLength (v : Variable) : Result Int64 :=
  if v.ty = .string then Cell.add v.stringLength.toInt64 stringHeader else .ok 1

/-- The cells of an array with the given dimensions whose innermost elements are those of `v`. -/
def lengthOver (v : Variable) : List Bounds → Result Int64
  | [] => v.scalarLength
  | bounds :: inner => do
    let count ← bounds.count
    let each ← lengthOver v inner
    Cell.add (← Cell.mul count each) arrayHeader

/-- The cells of the part of `v` that starts at dimension `depth`; past the last dimension this is
one innermost element. -/
def storageLength (v : Variable) (depth : Nat) : Result Int64 :=
  v.lengthOver (v.dimensions.drop depth)

def elementLength (v : Variable) (depth : Nat) : Result Int64 := v.storageLength (depth + 1)

def length (v : Variable) : Result Int64 :=
  match v.kind with
  | .reference | .pointer => .ok 1
  | .turtle _ => .ok 0
  | .value => v.storageLength 0

def advance : Int64 → List Variable → Result Int64
  | cell, [] => .ok cell
  | cell, v :: rest => do
    let each ← v.length
    advance (← Cell.add cell each) rest

def total (declarations : List Variable) : Result Int64 := advance 0 declarations

end TurtleCode.Variable
