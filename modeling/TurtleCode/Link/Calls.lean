import TurtleCode.Assembly

/-!
# Resolving calls

Every call placeholder is replaced by the address at which its subroutine starts.  A placeholder has
to follow the opcode of a call directly.  The first one that does not, or whose subroutine has no
place, ends the work; those before it stay resolved.

* `resolveCalls` gives the lines afterwards, the calls resolved in order, and the fault if any.
-/

namespace TurtleCode

structure ResolvedCall where
  line : Nat
  index : UInt64
  start : Nat
deriving DecidableEq

/-- What resolving leaves: the code, the calls resolved in order, and what ended the work early. -/
structure Resolution (α : Type) where
  code : α
  calls : List ResolvedCall
  fault : Option Fault

/-- Resolves the calls of a line, `previous` being the word before it. -/
def resolveLine (placed : Placements) (address : Nat) (previous : Option Word) :
    Line → Resolution Line
  | [] => ⟨[], [], none⟩
  | .call index :: rest =>
    if previous = some (.op .subr) then
      match placed.start? index with
      | some start =>
        let word := Word.int (Address.operand start)
        let after := resolveLine placed address (some word) rest
        ⟨word :: after.code, ⟨address, index, start⟩ :: after.calls, after.fault⟩
      | none => ⟨.call index :: rest, [], some (.unresolvedCall index)⟩
    else ⟨.call index :: rest, [], some (.malformedLine address (.strayCall index))⟩
  | word :: rest =>
    let after := resolveLine placed address (some word) rest
    ⟨word :: after.code, after.calls, after.fault⟩

def resolveFrom (placed : Placements) (address : Nat) : List Line → Resolution (List Line)
  | [] => ⟨[], [], none⟩
  | line :: rest =>
    let here := resolveLine placed address none line
    match here.fault with
    | some fault => ⟨here.code :: rest, here.calls, some fault⟩
    | none =>
      let after := resolveFrom placed (address + 1) rest
      ⟨here.code :: after.code, here.calls ++ after.calls, after.fault⟩

def resolveCalls (placed : Placements) (lines : List Line) : Resolution (List Line) :=
  resolveFrom placed 0 lines

def Resolution.count {α : Type} (r : Resolution α) : Result Nat :=
  match r.fault with
  | some fault => .error fault
  | none => .ok r.calls.length

end TurtleCode
