import TurtleCode.Code.Header
import TurtleCode.Code.Access

/-!
# Code that runs first

The first line sets up the turtle, the canvas and the key buffer.  A second line writes the headers
of the globals, if there are any to write.
-/

namespace TurtleCode.Setting

def keyBufferSize : Int64 := 32

/-- What the properties of the turtle are at the start: it is in the middle of the canvas. -/
def turtleStart (s : Setting) : List (TurtleProperty × Int64) :=
  let middle := s.options.canvasSize / 2
  [(.x, middle), (.y, middle), (.direction, 0), (.angles, 360), (.thickness, 2), (.colour, 0)]

def setTurtle (s : Setting) (base : Int64) : List (TurtleProperty × Int64) → Result Line
  | [] => .ok []
  | (property, value) :: rest => do
    let stored ← s.turtle .stvg .stvv base property.offset
    let more ← s.setTurtle base rest
    return instr .ldin [value] ++ stored ++ more

def setCanvas (size : Int64) : Line :=
  instr .ldin [0] ++ instr .ldin [0] ++ instr .ldin [size] ++ instr .ldin [size] ++ instr .canv []
    ++ instr .ldin [size] ++ instr .ldin [size] ++ instr .reso []

def setKeyBuffer : Line :=
  instr .ldin [keyBufferSize] ++ instr .bufr [] ++ instr .stvg [MemoryMap.keyBufferPointer]

def startup (s : Setting) : Result (List Line) := do
  let base ← s.map.turtleBase
  let properties ← s.setTurtle base s.turtleStart
  let setup := instr .ldin [base] ++ instr .stvg [MemoryMap.turtlePointer] ++ properties
    ++ setCanvas s.options.canvasSize ++ if s.options.keyBuffer then setKeyBuffer else []
  let cell ← s.map.globalsBase
  let headers ← Region.allHeaders .globals true Variable.ownsStorage cell s.map.program.declarations
  return if headers.isEmpty then [setup] else [setup, headers]

end TurtleCode.Setting
