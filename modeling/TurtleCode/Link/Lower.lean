import TurtleCode.Pcode
import TurtleCode.Word

/-!
# Lowering

Words become integers: an opcode its number, an operand itself.  A call placeholder has none.
-/

namespace TurtleCode

def lowerLine (address : Nat) : Line → Result (List Int64)
  | [] => .ok []
  | .op code :: rest => do return code.value :: (← lowerLine address rest)
  | .int n :: rest => do return n :: (← lowerLine address rest)
  | .call index :: _ => .error (.unlinkedWord address index)

def lowerFrom (address : Nat) : List Line → Result (List (List Int64))
  | [] => .ok []
  | line :: rest => do
    let here ← lowerLine address line
    let more ← lowerFrom (address + 1) rest
    return here :: more

def lower (lines : List Line) : Result Pcode := do return ⟨← lowerFrom 0 lines⟩

end TurtleCode
