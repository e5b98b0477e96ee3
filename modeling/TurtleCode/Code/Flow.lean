import TurtleCode.Code.Frame

/-!
# Code for statements

Statements become lines, and jumps go to line addresses, so the code of a statement depends on the
address at which it starts.

* `Setting.statements` are the lines of a list of statements placed at an address.
* `Setting.assignment` is the one line of an assignment: the value, then the store.

A condition stands at the end of its line with a jump that is taken when it fails.  The change of a
counting loop shares its line with the jump back to the test.
-/

namespace TurtleCode.Setting

/-- The line of an assignment.  A whole string is copied into the storage of its target. -/
def assignment (s : Setting) (a : Assignment) : Result Line := do
  let v ← s.map.declared a.target
  let value ← s.expression false a.value
  let copies := decide (v.ty = .string ∧ a.indexes.length = v.dimensions.length)
  if a.indexes.isEmpty then
    if copies then
      return value ++ (← s.load a.target) ++ instr .cstr []
    else
      return value ++ (← s.store a.target)
  else
    let address ← s.element a.target a.indexes
    return value ++ address ++ if copies then instr .lptr [] ++ instr .cstr [] else instr .sptr []

/-- The line of a return: a program halts; a subroutine leaves its value, if it has one, in the
result cell and gives its frame back. -/
def returnLine (s : Setting) (value : Option Expression) : Routine → Result Line
  | .program _ => .ok (instr .halt [])
  | .subroutine sub => do
    let result ← match value, ← s.map.resultCell with
      | some e, some cell => do
        let code ← s.expression false e
        pure (code ++ instr .stvg [cell])
      | _, _ => s.copyResult sub
    let released ← releaseFrame sub
    return result ++ released

def jumpTo (address : Nat) : Line := instr .jump [Address.operand address]

def unlessJumpTo (address : Nat) : Line := instr .ifno [Address.operand address]

mutual

/-- The lines of a statement whose first line is at `start`. -/
def statement (s : Setting) (routine : Routine) (start : Nat) : Statement → Result (List Line)
  | .assign a => do return [← s.assignment a]
  | .call c => do return [← s.call c]
  | .ifElse condition thenBody elseBody => do
    let test ← s.expression false condition
    let thenLines ← s.statements routine (← Address.add start 1) thenBody
    let afterThen ← Address.add (start + 1) thenLines.length
    if elseBody.isEmpty then
      return (test ++ unlessJumpTo afterThen) :: thenLines
    else
      let elseStart ← Address.add afterThen 1
      let elseLines ← s.statements routine elseStart elseBody
      let afterElse ← Address.add elseStart elseLines.length
      return (test ++ unlessJumpTo elseStart) :: thenLines ++ jumpTo afterElse :: elseLines
  | .whileDo condition body => do
    let test ← s.expression false condition
    let lines ← s.statements routine (← Address.add start 1) body
    let after ← Address.add (← Address.add (start + 1) lines.length) 1
    return (test ++ unlessJumpTo after) :: lines ++ [jumpTo start]
  | .repeatUntil condition body => do
    let lines ← s.statements routine start body
    let test ← s.expression false condition
    return lines ++ [test ++ unlessJumpTo start]
  | .forLoop initial condition change body => do
    let first ← s.assignment initial
    let testAddress ← Address.add start 1
    let test ← s.expression false condition
    let bodyStart ← Address.add testAddress 1
    let lines ← s.statements routine bodyStart body
    let after ← Address.add (← Address.add bodyStart lines.length) 1
    let step ← s.assignment change
    return first :: (test ++ unlessJumpTo after) :: lines ++ [step ++ jumpTo testAddress]
  | .ret value => do return [← s.returnLine value routine]
  | .pass => .ok []

def statements (s : Setting) (routine : Routine) (start : Nat) :
    List Statement → Result (List Line)
  | [] => .ok []
  | head :: rest => do
    let here ← s.statement routine (← Address.check start) head
    let more ← s.statements routine (start + here.length) rest
    return here ++ more

end

end TurtleCode.Setting
