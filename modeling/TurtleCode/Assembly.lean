import TurtleCode.Code.Flow
import TurtleCode.Code.Startup

/-!
# Assembly

Every routine gets its place in one list of lines: the lines that run first, a jump over the
subroutines (if there are any), the subroutines by ascending index, the main program, and a halt.

* `Setting.assemble` places the routines.  Calls of subroutines are still placeholders.
* `Placements` says where the subroutines are; of two with one index the later counts.
-/

namespace TurtleCode

/-- The lines of a subroutine: from `start` up to, not including, `stop`. -/
structure Placement where
  index : UInt64
  start : Nat
  stop : Nat
deriving DecidableEq

/-- Where subroutines are, one entry for each index, by ascending index. -/
abbrev Placements := List Placement

namespace Placements

def insert (new : Placement) : Placements → Placements
  | [] => [new]
  | p :: rest =>
    if new.index < p.index then new :: p :: rest
    else if new.index = p.index then p :: rest
    else p :: insert new rest

/-- The entries of a list, the last one of an index counting. -/
def ofList (entries : List Placement) : Placements := entries.foldr insert []

def start? (placed : Placements) (index : UInt64) : Option Nat :=
  (placed.find? fun p => decide (p.index = index)).map (·.start)

end Placements

structure Assembly where
  lines : List Line
  placements : Placements
deriving DecidableEq

namespace Setting

def subroutineLines (s : Setting) (sub : Subroutine) (start : Nat) : Result (List Line) := do
  let entry ← s.prologue sub
  let body ← s.statements (.subroutine sub) (← Address.add start 1) sub.statements
  let exit ← s.epilogue sub
  return entry :: body ++ [exit]

def place (s : Setting) : Nat → List Subroutine → Result (List Line × List Placement)
  | _, [] => .ok ([], [])
  | cursor, sub :: rest => do
    let code ← s.subroutineLines sub cursor
    let stop ← Address.add cursor code.length
    let (lines, placed) ← s.place stop rest
    return (code ++ lines, ⟨sub.index, cursor, stop⟩ :: placed)

/-- The subroutines with the jump over them, from `start` on. -/
def subroutineBlock (s : Setting) (start : Nat) : Result (List Line × List Placement) :=
  if s.map.subroutines.isEmpty then .ok ([], []) else do
    let (lines, placed) ← s.place (← Address.add start 1) s.map.subroutines
    return (jumpTo (start + 1 + lines.length) :: lines, placed)

def assemble (s : Setting) : Result Assembly := do
  let first ← s.startup
  let (block, placed) ← s.subroutineBlock first.length
  let before := first ++ block
  let main ← s.statements (.program s.map.program) before.length s.map.program.statements
  return ⟨before ++ main ++ [instr .halt []], Placements.ofList placed⟩

end Setting

end TurtleCode
