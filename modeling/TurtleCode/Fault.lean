import TurtleCode.Opcode
import TurtleCode.Tree.Types

/-!
# Faults

The ways in which making, linking or decoding code can fail, and the wording of each.

* `Fault` lists the causes; `Fault.message` words them.
* `Result` is a computation that may end in a fault.
-/

namespace TurtleCode

inductive Arithmetic
  | add
  | subtract
  | multiply
deriving DecidableEq, Repr

inductive LineFlaw
  | notAnOpcode (value : Int64)
  | negativeLength (length : Int64)
  | missingOperands (op : Opcode)
  | strayCall (index : UInt64)
deriving DecidableEq

/-- What was asked to be passed by reference and has no address. -/
inductive Unaddressable
  | literal
  | input
  | constant
  | colour
  | address
  | callResult
  | operation
  | cast
  | index (position : Nat) (name : String)
deriving DecidableEq

/-- Why no code could be made, linked or decoded. -/
inductive Fault
  | unresolvedCall (index : UInt64)
  | unknownSubroutine (index : UInt64)
  | unknownVariable (routine slot : UInt64)
  | illegalCast (source target : Ty)
  | notAddressable (what : Unaddressable)
  | unlinkedWord (address : Nat) (index : UInt64)
  | invalidTarget (address : Nat) (op : Opcode) (target : Int64) (lines : Nat)
  | emptyLine (address : Nat)
  | malformedLine (address : Nat) (flaw : LineFlaw)
  | overflow (operation : Arithmetic)
deriving DecidableEq

abbrev Result := Except Fault

def Arithmetic.verb : Arithmetic → String
  | .add => "add"
  | .subtract => "subtract"
  | .multiply => "multiply"

def LineFlaw.message : LineFlaw → String
  | .notAnOpcode value => s!"{value.toInt} is not an opcode"
  | .negativeLength length => s!"negative string length {length.toInt}"
  | .missingOperands op => s!"{op.mnemonic} is missing operands"
  | .strayCall index => s!"call to subroutine {index.toNat} outside a SUBR operand"

def Unaddressable.message : Unaddressable → String
  | .literal => "a literal"
  | .input => "an input value"
  | .constant => "a constant"
  | .colour => "a colour constant"
  | .address => "an address"
  | .callResult => "a call result"
  | .operation => "an operation"
  | .cast => "a cast"
  | .index position name => s!"index {position} of '{name}'"

def Fault.message : Fault → String
  | .unresolvedCall index =>
    s!"internal error: call to subroutine {index.toNat} could not be resolved"
  | .unknownSubroutine index => s!"internal error: no subroutine with index {index.toNat}"
  | .unknownVariable routine slot =>
    s!"internal error: routine {routine.toNat} has no variable in slot {slot.toNat}"
  | .illegalCast source target => s!"internal error: cannot cast {source.label} to {target.label}"
  | .notAddressable what => s!"internal error: {what.message} cannot be passed by reference"
  | .unlinkedWord address index =>
    s!"internal error: line {address} still holds an unresolved call to subroutine {index.toNat}"
  | .invalidTarget address op target lines =>
    s!"internal error: line {address}: {op.mnemonic} targets line {target.toInt}, " ++
      s!"outside 0..{lines}"
  | .emptyLine address => s!"internal error: line {address} is empty"
  | .malformedLine address flaw => s!"internal error: line {address} is malformed: {flaw.message}"
  | .overflow operation => s!"attempt to {operation.verb} with overflow"

end TurtleCode
