import TurtleCode.Memory.Extent
import TurtleCode.Word

/-!
# Headers of strings and arrays

Storage starts with a pointer to the next cell.  After it comes the number of elements of an array,
or the most characters that a string can have and the number it has now.  Arrays of arrays and
arrays of strings have headers in every element.

* `Region` is where storage is: among the globals or in a frame.
* `Region.headers` writes the headers of one variable, `Region.allHeaders` those of a list laid out
  one after another.
-/

namespace TurtleCode

/-- Where storage is kept: among the globals, or in the frame whose pointer is in a cell. -/
inductive Region
  | globals
  | frame (pointer : Int64)
deriving DecidableEq

namespace Region

def store (cell : Int64) : Region → Line
  | .globals => instr .stvg [cell]
  | .frame pointer => instr .stvv [pointer, cell]

def address (cell : Int64) : Region → Line
  | .globals => instr .ldag [cell]
  | .frame pointer => instr .ldav [pointer, cell]

def elements (code : Int64 → Result Line) (start length i : Int64) : Nat → Result Line
  | 0 => .ok []
  | count + 1 => do
    let first ← Cell.add start 2
    let distance ← Cell.mul i length
    let here ← code (← Cell.add first distance)
    let more ← elements code start length (i + 1) count
    return here ++ more

/-- Writes the headers of the part of `v` with the given dimensions left, whose storage starts at
`start`.  In memory that is already `zeroed` a string's length now needs no store. -/
def headersOver (region : Region) (v : Variable) (zeroed : Bool) :
    List Bounds → Int64 → Result Line
  | [], start => do
    let next ← Cell.add start 1
    let fixed := region.address next ++ region.store start
      ++ instr .ldin [v.stringLength.toInt64] ++ region.store next
    if zeroed then return fixed else
      return fixed ++ instr .ldin [0] ++ region.store (← Cell.add start 2)
  | bounds :: inner, start => do
    let next ← Cell.add start 1
    let count ← bounds.count
    let fixed := region.address next ++ region.store start
      ++ instr .ldin [count] ++ region.store next
    -- elements that are single cells have no headers
    if inner.isEmpty && decide (v.ty ≠ .string) then return fixed else
      let length ← v.lengthOver inner
      let nested ← elements (region.headersOver v zeroed inner) start length 0 count.toInt.toNat
      return fixed ++ nested

def headers (region : Region) (v : Variable) (zeroed : Bool) (start : Int64) : Result Line :=
  region.headersOver v zeroed v.dimensions start

/-- Writes the headers of those variables of a list that are `wanted`, the list being laid out from
a cell on. -/
def allHeaders (region : Region) (zeroed : Bool) (wanted : Variable → Bool) :
    Int64 → List Variable → Result Line
  | _, [] => .ok []
  | cell, v :: rest => do
    let here ← if wanted v then region.headers v zeroed cell else .ok []
    let length ← v.length
    let more ← region.allHeaders zeroed wanted (← Cell.add cell length) rest
    return here ++ more

end Region

end TurtleCode
