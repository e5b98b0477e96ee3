import TurtleCode.Arithmetic

/-!
# Variables

Declared variables and how they are referred to.  A variable is named by its routine's index and its
place among that routine's declarations.

* `Bounds.count` is the number of elements between inclusive bounds.
* `Variable.ownsStorage` tells strings and arrays that hold their own storage from variables that
  hold an address of someone else's.
-/

namespace TurtleCode

/-- A declared variable: the index of its routine, and its place among the declarations there. -/
structure VariableId where
  routine : UInt64
  slot : UInt64
deriving DecidableEq

inductive TurtleProperty
  | x
  | y
  | direction
  | angles
  | thickness
  | colour
deriving DecidableEq, Repr

namespace TurtleProperty

def all : List TurtleProperty := [.x, .y, .direction, .angles, .thickness, .colour]

def name : TurtleProperty → String
  | .x => "X"
  | .y => "Y"
  | .direction => "Direction"
  | .angles => "Angles"
  | .thickness => "Thickness"
  | .colour => "Colour"

def variableName : TurtleProperty → String
  | .x => "turtx"
  | .y => "turty"
  | .direction => "turtd"
  | .angles => "turta"
  | .thickness => "turtt"
  | .colour => "turtc"

def offset : TurtleProperty → Int64
  | .x => 1
  | .y => 2
  | .direction => 3
  | .angles => 4
  | .thickness => 5
  | .colour => 6

end TurtleProperty

/-- How the cell of a variable is read: as the value itself, as a property of the turtle, or as an
address that reads and writes go through. -/
inductive VariableKind
  | value
  | turtle (property : TurtleProperty)
  | reference
  | pointer
deriving DecidableEq

/-- Inclusive bounds of one array dimension. -/
structure Bounds where
  first : Int64
  last : Int64
deriving DecidableEq

namespace Bounds

def zeroBased (count : Int64) : Result Bounds := do
  return ⟨0, ← Cell.sub count 1⟩

/-- The number of elements.  It is not positive when the bounds are the wrong way round. -/
def count (bounds : Bounds) : Result Int64 := do
  Cell.add (← Cell.sub bounds.last bounds.first) 1

end Bounds

/-- A declared variable.  For an array, `ty` is the type of the innermost elements and `dimensions`
are its bounds, outermost first.  `stringLength` is the most characters that a string can have. -/
structure Variable where
  name : String
  ty : Ty
  kind : VariableKind := .value
  parameter : Bool := false
  stringLength : UInt64 := 32
  dimensions : List Bounds := []
deriving DecidableEq

namespace Variable

def turtle (property : TurtleProperty) : Variable :=
  { name := property.variableName, ty := .integer, kind := .turtle property }

def asParameter (v : Variable) : Variable := { v with parameter := true }

def asReference (v : Variable) : Variable := { v with parameter := true, kind := .reference }

def asPointer (v : Variable) : Variable := { v with kind := .pointer }

def isArray (v : Variable) : Bool := !v.dimensions.isEmpty

def isTurtle (v : Variable) : Bool :=
  match v.kind with
  | .turtle _ => true
  | _ => false

/-- Whether the variable holds the storage of a string or an array itself. -/
def ownsStorage (v : Variable) : Bool :=
  decide (v.kind = .value) && (v.isArray || decide (v.ty = .string))

end Variable

end TurtleCode
