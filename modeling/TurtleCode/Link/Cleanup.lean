import TurtleCode.Word

/-!
# Cleaning the heap

Strings made on the way live on the heap until they are cleared.  A line that makes one is cleared
at its end, or just before its last jump so that a loop clears too.  A line that calls a subroutine
is left alone, because a string handed back may still be needed.

* `needsCleanup` tells which lines make heap strings and call nothing.
* `cleanupLines` clears them and lists the addresses of the lines that changed.
-/

namespace TurtleCode

/-- Whether a line makes heap strings and calls no subroutine. -/
def needsCleanup (line : Line) : Bool :=
  !(Line.opcodes line).contains .subr && (Line.opcodes line).any Opcode.buildsString

/-- A line cut before its last jump; the second part is empty if there is none. -/
def splitLastJump : Line → Line × Line
  | [] => ([], [])
  | word :: rest =>
    let (before, jump) := splitLastJump rest
    if jump.isEmpty && decide (word = .op .jump) then ([], word :: rest)
    else (word :: before, jump)

/-- A line with the heap cleared at its end or before its last jump, unless it is cleared there
already. -/
def cleanupLine? (line : Line) : Option Line :=
  let (before, jump) := splitLastJump line
  if before.getLast? = some (.op .hclr) then none else some (before ++ .op .hclr :: jump)

def cleanupFrom (address : Nat) : List Line → List Line × List Nat
  | [] => ([], [])
  | line :: rest =>
    let (lines, changed) := cleanupFrom (address + 1) rest
    match (if needsCleanup line then cleanupLine? line else none) with
    | some cleaned => (cleaned :: lines, address :: changed)
    | none => (line :: lines, changed)

def cleanupLines (lines : List Line) : List Line × List Nat := cleanupFrom 0 lines

end TurtleCode
