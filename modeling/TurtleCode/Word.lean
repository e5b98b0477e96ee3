import TurtleCode.Opcode

/-!
# Words and lines

Code under construction is a list of lines, each a list of words.  A line's place in the finished
program is its address.  A word is an opcode, an integer operand, or a call placeholder: the index
of a subroutine whose address is not known yet.

* `instr op operands` is one instruction as words.
* `Line.opcodes` are the opcodes of a line, operands left out.
-/

namespace TurtleCode

/-- One cell of a line under construction. -/
inductive Word
  | op (code : Opcode)
  | int (n : Int64)
  | call (index : UInt64)
deriving DecidableEq

def Word.opcode? : Word → Option Opcode
  | .op code => some code
  | _ => none

abbrev Line := List Word

def Line.opcodes (line : Line) : List Opcode := line.filterMap Word.opcode?

def instr (op : Opcode) (operands : List Int64) : Line := .op op :: operands.map .int

@[simp] theorem Line.opcodes_append (a b : Line) :
    Line.opcodes (a ++ b) = Line.opcodes a ++ Line.opcodes b := by
  simp [Line.opcodes]

@[simp] theorem Line.opcodes_instr (op : Opcode) (operands : List Int64) :
    Line.opcodes (instr op operands) = [op] := by
  simp [Line.opcodes, instr, Word.opcode?, Function.comp_def]

end TurtleCode
