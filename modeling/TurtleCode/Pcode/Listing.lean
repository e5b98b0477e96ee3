import TurtleCode.Arithmetic
import TurtleCode.Pcode
import TurtleCode.Text.Decimal
import TurtleCode.Text.Quoted
import Std.Data.HashSet

/-!
# Listings

A linked program as text, a line of text for each line of the program.  A line that some jump or
call goes to has an arrow, and a rule above it.

* `Pcode.listing` is the text of a program.
* `Pcode.targets` are the addresses that jumps and calls go to.
-/

namespace TurtleCode

namespace Instruction

/-- The character of a code; a question mark if it is no character's. -/
def character (code : Int64) : Char :=
  match code.toInt with
  | .ofNat n => if n.isValidChar then Char.ofNat n else '?'
  | .negSucc _ => '?'

def text (i : Instruction) : String :=
  if i.op = .lstr then
    i.op.mnemonic ++ " " ++ String.ofList (Text.quote (i.operands.tail.map character))
  else if i.op.takesAddress then
    i.op.mnemonic ++ " (→ " ++ Text.zeroFilled 4 (i.operands.headD 0).toInt ++ ")"
  else
    i.operands.foldl (fun text n => text ++ " " ++ Text.decimal n.toInt) i.op.mnemonic

end Instruction

namespace Pcode

def targets (lines : List (List Instruction)) : List Int64 :=
  lines.flatMap fun line => line.filterMap target?

/-- The rule above a line that is a target. -/
def rule : String := "      ┌──────────────────────────────────\n"

def lineText (isTarget : Bool) (address : Nat) (line : List Instruction) : String :=
  (if isTarget then rule else "") ++ Text.zeroFilled 4 address ++ " "
    ++ (if isTarget then "► " else "  ")
    ++ "  ".intercalate (line.map Instruction.text) ++ "\n"

/-- The texts of lines with their addresses, those in `marked` being targets. -/
def lineTexts (marked : Std.HashSet Int64) (lines : List (List Instruction × Nat)) : List String :=
  lines.map fun (line, address) =>
    lineText (marked.contains (Address.operand address)) address line

def listing (p : Pcode) : Result String := do
  let lines ← p.instructions
  return String.join (lineTexts (.ofList (targets lines)) lines.zipIdx)

end Pcode

end TurtleCode
