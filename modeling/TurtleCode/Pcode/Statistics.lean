import TurtleCode.Decimal.Binary
import TurtleCode.Pcode
import TurtleCode.Text.Decimal

/-!
# Statistics

How often each opcode occurs in a linked program, the ten most frequent first.  Opcodes that occur
equally often are in the order of their mnemonics.
-/

namespace TurtleCode.Pcode

/-- The opcodes that occur, with how often they do: the most frequent first. -/
def opcodeCounts (lines : List (List Instruction)) : List (String × Nat) :=
  let used := lines.flatten.map (·.op)
  let counts := Opcode.all.filterMap fun op =>
    if used.contains op then some (op.mnemonic, used.count op) else none
  counts.mergeSort fun a b => decide (b.2 < a.2 ∨ b.2 = a.2 ∧ a.1 ≤ b.1)

def percentage (count total : Nat) : String :=
  let share := count.toFloat / total.toFloat * 100.0
  let tenths := (Decimal.Binary.ofFloat share).roundedTo 1
  toString (tenths / 10) ++ "." ++ toString (tenths % 10)

def countText (total : Nat) (entry : String × Nat) : String :=
  "  " ++ Text.fillRight 14 entry.1 ++ " " ++ Text.fillLeft ' ' 4 (toString entry.2) ++ " ("
    ++ Text.fillLeft ' ' 5 (percentage entry.2 total) ++ "%)\n"

def statistics (p : Pcode) : Result String := do
  let lines ← p.instructions
  let counts := opcodeCounts lines
  let total := (counts.map (·.2)).foldl (· + ·) 0
  return "=== PCODE STATISTICS ===\n\n"
    ++ "Lines:            " ++ toString p.size ++ "\n"
    ++ "Instructions:     " ++ toString total ++ "\n\n"
    ++ "Op frequency:\n" ++ String.join ((counts.take 10).map (countText total))

end TurtleCode.Pcode
