import TurtleCode.Memory.Extent
import TurtleCode.Tree.Routine

/-!
# The memory map

Where the variables of a program are kept.

| cell | content |
|---|---|
| 0 | the turtle pointer |
| 1 | the key buffer pointer |
| 1 + i | the frame pointer of subroutine i |
| next | the result cell, if some subroutine returns a value |
| turtle base | the turtle's header, then its six properties |
| turtle base + 7 | the globals in the order of their declaration |

A local is addressed by the cell of its frame pointer and an offset, just as the properties of the
turtle are addressed through cell 0.

* `MemoryMap.location` says where a variable is.
* `MemoryMap.frameCell`, `resultCell`, `turtleBase` and `globalsBase` are the fixed cells.
-/

namespace TurtleCode

inductive Location
  | turtle (base offset : Int64)
  | global (cell : Int64)
  | frame (pointer offset : Int64)
deriving DecidableEq

/-- A program with its subroutines by ascending index. -/
structure MemoryMap where
  program : Program
  subroutines : List Subroutine

namespace MemoryMap

def of (p : Program) : MemoryMap := ⟨p, p.allSubroutines⟩

def turtlePointer : Int64 := 0

def keyBufferPointer : Int64 := 1

def reservedCells : Int64 := 2

/-- The turtle's header and its properties. -/
def turtleCells : Int64 := 7

def subroutineCount (m : MemoryMap) : Int64 := Int64.ofNat m.subroutines.length

/-- The first subroutine of that index. -/
def subroutine (m : MemoryMap) (index : UInt64) : Result Subroutine :=
  match m.subroutines.find? fun s => decide (s.index = index) with
  | some s => .ok s
  | none => .error (.unknownSubroutine index)

/-- The routine of that index; 0 is the program. -/
def routine (m : MemoryMap) (index : UInt64) : Result Routine :=
  if index = 0 then .ok (.program m.program) else do
    return .subroutine (← m.subroutine index)

def declared (m : MemoryMap) (id : VariableId) : Result Variable := do
  let routine ← m.routine id.routine
  match routine.declarations[id.slot.toNat]? with
  | some v => .ok v
  | none => .error (.unknownVariable id.routine id.slot)

def frameCell (index : UInt64) : Result Int64 := do
  -- subroutines are numbered from one on
  Cell.sub (← Cell.add reservedCells index.toInt64) 1

def returnsSome (m : MemoryMap) : Bool := m.subroutines.any (·.returns.isSome)

/-- The cell through which functions hand back their values, if there are any. -/
def resultCell (m : MemoryMap) : Result (Option Int64) :=
  if m.returnsSome then some <$> Cell.add reservedCells m.subroutineCount else .ok none

def turtleBase (m : MemoryMap) : Result Int64 := do
  let cell ← m.resultCell
  Cell.add (← Cell.add reservedCells m.subroutineCount) (if cell.isSome then 1 else 0)

def globalsBase (m : MemoryMap) : Result Int64 := do
  Cell.add (← m.turtleBase) turtleCells

def globalsLength (m : MemoryMap) : Result Int64 := Variable.total m.program.declarations

def frameLength (s : Subroutine) : Result Int64 := Variable.total s.declarations

def location (m : MemoryMap) (id : VariableId) : Result Location := do
  let v ← m.declared id
  match v.kind with
  | .turtle property => return .turtle (← m.turtleBase) property.offset
  | _ =>
    let routine ← m.routine id.routine
    let offset ← Variable.total (routine.declarations.take id.slot.toNat)
    if routine.isProgram then
      return .global (← Cell.add (← m.globalsBase) offset)
    else
      return .frame (← frameCell id.routine) offset

end MemoryMap

end TurtleCode
