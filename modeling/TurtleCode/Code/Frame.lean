import TurtleCode.Code.Header
import TurtleCode.Code.Value

/-!
# Entering and leaving a subroutine

* `Setting.prologue` claims the frame, writes the headers of local storage and moves the arguments
  from the stack into the parameters.  The last argument is on top, so parameters are filled from
  the last to the first.
* `Setting.epilogue` puts a function's value into the result cell, gives the frame back and returns.
-/

namespace TurtleCode

def Subroutine.parameterSlots (s : Subroutine) : List (Variable × Nat) :=
  s.declarations.zipIdx.filter fun entry => entry.1.parameter

/-- Whether a local gets its headers when the frame is claimed.  The pointer of an array that is a
parameter comes from the caller. -/
def Variable.headedInFrame (v : Variable) : Bool :=
  v.ownsStorage && !(v.parameter && v.isArray)

namespace Setting

def localCell (s : Setting) (id : VariableId) : Result (Int64 × Int64) := do
  match ← s.map.location id with
  | .frame pointer offset => return (pointer, offset)
  | _ => .error (.unknownVariable id.routine id.slot)

/-- Pops an argument into its parameter.  A string is copied into the parameter's own storage. -/
def receive (s : Setting) (id : VariableId) (v : Variable) : Result Line :=
  if v.kind = .value ∧ v.ty = .string ∧ v.dimensions = [] then do
    let pointer ← s.load id
    return pointer ++ instr .cstr []
  else do
    let (pointer, offset) ← s.localCell id
    return instr .stvv [pointer, offset]

def receiveAll (s : Setting) (routine : UInt64) : List (Variable × Nat) → Result Line
  | [] => .ok []
  | (v, slot) :: rest => do
    let here ← s.receive ⟨routine, slot.toUInt64⟩ v
    let more ← s.receiveAll routine rest
    return here ++ more

/-- Claims a frame of `length` cells and, if locals are to be cleared, zeroes it. -/
def claimFrame (s : Setting) (pointer length : Int64) : Line :=
  instr .memc [pointer, length]
    ++ if s.options.clearLocals ∧ 0 < length then
        instr .ldvg [pointer] ++ instr .ldin [length] ++ instr .zptr []
      else []

def prologue (s : Setting) (sub : Subroutine) : Result Line := do
  let pointer ← MemoryMap.frameCell sub.index
  let length ← MemoryMap.frameLength sub
  let headers ← Region.allHeaders (.frame pointer) s.options.clearLocals Variable.headedInFrame
    0 sub.declarations
  -- the last argument is on top of the stack
  let received ← s.receiveAll sub.index sub.parameterSlots.reverse
  return s.claimFrame pointer length ++ headers ++ received

/-- Puts the value of a function's result variable into the result cell.  There is nothing to do for
procedures and for functions without a result variable. -/
def copyResult (s : Setting) (sub : Subroutine) : Result Line := do
  match sub.returns, sub.resultVariable, ← s.map.resultCell with
  | some _, some slot, some cell =>
    let value ← s.load ⟨sub.index, slot⟩
    return value ++ instr .stvg [cell]
  | _, _, _ => return []

def releaseFrame (sub : Subroutine) : Result Line := do
  let pointer ← MemoryMap.frameCell sub.index
  return instr .memr [pointer] ++ instr .retn []

def epilogue (s : Setting) (sub : Subroutine) : Result Line := do
  let result ← s.copyResult sub
  let released ← releaseFrame sub
  return result ++ released

end Setting

end TurtleCode
