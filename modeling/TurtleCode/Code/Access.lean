import TurtleCode.Memory.Map
import TurtleCode.Options

/-!
# Code that reads and writes variables

A `Setting` is all that code depends on besides the tree itself: the memory map of the program and
the options.

* `Setting.load` pushes what a variable's cell means: a value, or the pointer of a string or array.
* `Setting.store` pops the top of the stack into a variable.
* `Setting.addressOf` pushes the address of a variable's cell; for a reference that is the address
  it holds.
-/

namespace TurtleCode

structure Setting where
  map : MemoryMap
  options : Options

namespace Setting

def of (p : Program) (options : Options) : Setting := ⟨MemoryMap.of p, options⟩

def language (s : Setting) : Language := s.map.program.language

/-- An instruction on a property of the turtle: on its cell if properties are globals, and through
the turtle pointer otherwise. -/
def turtle (s : Setting) (direct indirect : Opcode) (base offset : Int64) : Result Line :=
  if s.options.turtleAsGlobals then do
    return instr direct [← Cell.add base offset]
  else
    return instr indirect [MemoryMap.turtlePointer, offset]

def load (s : Setting) (id : VariableId) : Result Line := do
  let v ← s.map.declared id
  match ← s.map.location id, v.kind with
  | .turtle base offset, _ => s.turtle .ldvg .ldvv base offset
  | .global cell, .value => return instr .ldvg [cell]
  | .global cell, _ => return instr .ldvg [cell] ++ instr .lptr []
  | .frame pointer offset, .reference => return instr .ldvr [pointer, offset]
  | .frame pointer offset, .pointer => return instr .ldvv [pointer, offset] ++ instr .lptr []
  | .frame pointer offset, _ => return instr .ldvv [pointer, offset]

def store (s : Setting) (id : VariableId) : Result Line := do
  let v ← s.map.declared id
  match ← s.map.location id, v.kind with
  | .turtle base offset, _ => s.turtle .stvg .stvv base offset
  | .global cell, .value => return instr .stvg [cell]
  | .global cell, _ => return instr .ldvg [cell] ++ instr .sptr []
  | .frame pointer offset, .reference => return instr .stvr [pointer, offset]
  | .frame pointer offset, .pointer => return instr .ldvv [pointer, offset] ++ instr .sptr []
  | .frame pointer offset, _ => return instr .stvv [pointer, offset]

/-- Code that pushes the address of a variable's cell, or the address that a reference holds. -/
def addressOf (s : Setting) (id : VariableId) : Result Line := do
  let v ← s.map.declared id
  match ← s.map.location id, v.kind with
  | .turtle base offset, _ => s.turtle .ldag .ldav base offset
  | .global cell, .reference => return instr .ldvg [cell]
  | .global cell, _ => return instr .ldag [cell]
  | .frame pointer offset, .reference => return instr .ldvv [pointer, offset]
  | .frame pointer offset, _ => return instr .ldav [pointer, offset]

end Setting

end TurtleCode
