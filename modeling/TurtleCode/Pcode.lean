import TurtleCode.Fault

/-!
# Linked programs

A linked program is lines of integers.  Each line is a sequence of instructions: the number of an
opcode and its operands.  A string constant has its length as an operand and then that many
character codes.

* `decodeLine` splits a line into instructions.
* `Pcode.instructions` decodes all lines.
* `Pcode.check` also looks at every target of a jump or a call.
-/

namespace TurtleCode

structure Pcode where
  lines : List (List Int64)
deriving DecidableEq

structure Instruction where
  op : Opcode
  operands : List Int64
deriving DecidableEq

def Instruction.values (i : Instruction) : List Int64 := i.op.value :: i.operands

/-- How many integers after its opcode belong to an instruction, `rest` being what follows the
opcode. -/
def operandsTaken (op : Opcode) (rest : List Int64) : Except LineFlaw Nat :=
  if op = .lstr then
    -- a length that is not there counts as zero here, and is then missed as an operand
    match (rest.headD 0).toInt with
    | .ofNat length => .ok (op.operandCount + length)
    | .negSucc _ => .error (.negativeLength (rest.headD 0))
  else .ok op.operandCount

def decodeOne (value : Int64) (rest : List Int64) : Except LineFlaw (Instruction × List Int64) :=
  match Opcode.ofValue? value with
  | none => .error (.notAnOpcode value)
  | some op =>
    match operandsTaken op rest with
    | .error flaw => .error flaw
    | .ok count =>
      if (rest.take count).length < count then .error (.missingOperands op)
      else .ok (⟨op, rest.take count⟩, rest.drop count)

theorem decodeOne_rest_length {value : Int64} {rest after : List Int64} {i : Instruction}
    (h : decodeOne value rest = .ok (i, after)) : after.length ≤ rest.length := by
  unfold decodeOne at h
  repeat' split at h
  all_goals cases h
  simp

def decode (line : List Int64) : Except LineFlaw (List Instruction) :=
  match line with
  | [] => .ok []
  | value :: rest =>
    match h : decodeOne value rest with
    | .error flaw => .error flaw
    | .ok (i, after) =>
      have : after.length < (value :: rest).length :=
        Nat.lt_succ_of_le (decodeOne_rest_length h)
      do return i :: (← decode after)
termination_by line.length
decreasing_by exact this

def decodeLine (address : Nat) (line : List Int64) : Result (List Instruction) :=
  match decode line with
  | .ok instructions => .ok instructions
  | .error flaw => .error (.malformedLine address flaw)

def decodeFrom (address : Nat) : List (List Int64) → Result (List (List Instruction))
  | [] => .ok []
  | line :: rest => do
    let here ← decodeLine address line
    let more ← decodeFrom (address + 1) rest
    return here :: more

namespace Pcode

def size (p : Pcode) : Nat := p.lines.length

def instructions (p : Pcode) : Result (List (List Instruction)) := decodeFrom 0 p.lines

def target? (i : Instruction) : Option Int64 :=
  if i.op.takesAddress then i.operands.head? else none

def inRange (size : Nat) (target : Int64) : Bool :=
  decide (0 ≤ target.toInt ∧ target.toInt < size)

def checkTargets (size address : Nat) : List Instruction → Result Unit
  | [] => .ok ()
  | i :: rest =>
    match target? i with
    | some target =>
      if inRange size target then checkTargets size address rest
      else .error (.invalidTarget address i.op target size)
    | none => checkTargets size address rest

def checkFrom (size address : Nat) : List (List Int64) → Result Unit
  | [] => .ok ()
  | [] :: _ => .error (.emptyLine address)
  | line :: rest => do
    let instructions ← decodeLine address line
    checkTargets size address instructions
    checkFrom size (address + 1) rest

/-- Passes a program whose lines are not empty and decode, and whose jumps and calls go to lines of
the program. -/
def check (p : Pcode) : Result Unit := checkFrom p.size 0 p.lines

end Pcode

end TurtleCode
