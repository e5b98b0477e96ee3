import TurtleCode.Tree.Statement

/-!
# Programs and subroutines

A program is the root routine, whose index is 0 and whose variables are the globals.  Subroutines
may be nested in one another and have indexes of their own.

* `Program.allSubroutines` lists every subroutine of the tree by ascending index.  Subroutines that
  share an index keep the order of a walk through the tree, parents first.
* `Program.updateSubroutine?` changes one subroutine in place.
-/

namespace TurtleCode

/-- A procedure or a function.  `returns` is absent for procedures, and `resultVariable` is the slot
of the variable whose value a function hands back when it ends without saying which. -/
structure Subroutine where
  index : UInt64
  name : String
  returns : Option Ty := none
  resultVariable : Option UInt64 := none
  declarations : List Variable := []
  subroutines : List Subroutine := []
  statements : List Statement := []

structure Program where
  name : String
  language : Language
  declarations : List Variable
  subroutines : List Subroutine := []
  statements : List Statement := []

namespace Subroutine

def parameters (s : Subroutine) : List Variable := s.declarations.filter (·.parameter)

mutual

/-- A subroutine and all those inside it, parents first. -/
def flatten : Subroutine → List Subroutine
  | ⟨index, name, returns, result, declarations, subroutines, statements⟩ =>
    ⟨index, name, returns, result, declarations, subroutines, statements⟩ :: flattenAll subroutines

def flattenAll : List Subroutine → List Subroutine
  | [] => []
  | s :: rest => flatten s ++ flattenAll rest

end

mutual

def update? (index : UInt64) (change : Subroutine → Subroutine) : Subroutine → Option Subroutine
  | ⟨i, name, returns, result, declarations, subroutines, statements⟩ =>
    if i = index then
      some (change ⟨i, name, returns, result, declarations, subroutines, statements⟩)
    else
      (updateFirst? index change subroutines).map fun inner =>
        ⟨i, name, returns, result, declarations, inner, statements⟩

def updateFirst? (index : UInt64) (change : Subroutine → Subroutine) :
    List Subroutine → Option (List Subroutine)
  | [] => none
  | s :: rest =>
    match update? index change s with
    | some changed => some (changed :: rest)
    | none => (updateFirst? index change rest).map (s :: ·)

end

def declare (s : Subroutine) (v : Variable) : Subroutine × VariableId :=
  ({ s with declarations := s.declarations ++ [v] }, ⟨s.index, s.declarations.length.toUInt64⟩)

end Subroutine

namespace Program

/-- An empty program in which the properties of the turtle are declared. -/
def empty (name : String) (language : Language) : Program :=
  { name, language, declarations := TurtleProperty.all.map Variable.turtle }

def declare (p : Program) (v : Variable) : Program × VariableId :=
  ({ p with declarations := p.declarations ++ [v] }, ⟨0, p.declarations.length.toUInt64⟩)

def turtle? (p : Program) (property : TurtleProperty) : Option VariableId :=
  (p.declarations.findIdx? fun v => decide (v.kind = .turtle property)).map fun slot =>
    ⟨0, slot.toUInt64⟩

/-- Every subroutine of the tree by ascending index. -/
def allSubroutines (p : Program) : List Subroutine :=
  (Subroutine.flattenAll p.subroutines).mergeSort fun a b => decide (a.index ≤ b.index)

/-- The first subroutine of that index in a walk through the tree, parents first. -/
def findSubroutine? (p : Program) (index : UInt64) : Option Subroutine :=
  (Subroutine.flattenAll p.subroutines).find? fun s => decide (s.index = index)

def updateSubroutine? (p : Program) (index : UInt64) (change : Subroutine → Subroutine) :
    Option Program :=
  (Subroutine.updateFirst? index change p.subroutines).map fun inner =>
    { p with subroutines := inner }

end Program

inductive Routine
  | program (p : Program)
  | subroutine (s : Subroutine)

namespace Routine

def declarations : Routine → List Variable
  | .program p => p.declarations
  | .subroutine s => s.declarations

def isProgram : Routine → Bool
  | .program _ => true
  | .subroutine _ => false

end Routine

end TurtleCode
