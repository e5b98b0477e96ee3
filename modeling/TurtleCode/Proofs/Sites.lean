import TurtleCode.Tree.Routine

/-!
# The sites of a tree

Conditions on a tree are mostly conditions on single nodes: every operator is used with the right
number of operands, every native routine called has complete code.  A `Site` is a place where such a
condition can apply: an expression, or a call made by a statement.

* `Expression.sites`, `Statement.sites`, `Program.sites` list all sites of a tree, those inside
  other ones included.
* `Site.native?` is the native routine that a site calls; `Program.natives` are all of them.
  `Program.literals` are the constants.
-/

namespace TurtleCode

/-- An expression of a tree, or a call that a statement makes. -/
inductive Site
  | node (e : Expression)
  | call (c : Call)

namespace Site

def native? : Site → Option NativeRoutine
  | .node (.call (.native routine) _ _) => some routine
  | .call ⟨.native routine, _⟩ => some routine
  | _ => none

def literal? : Site → Option Literal
  | .node (.literal value _) => some value
  | .node (.constant _ value _) => some value
  | _ => none

end Site

mutual

def Expression.sites : Expression → List Site
  | .literal value ty => [.node (.literal value ty)]
  | .input name index ty => [.node (.input name index ty)]
  | .constant name value ty => [.node (.constant name value ty)]
  | .colour name value ty => [.node (.colour name value ty)]
  | .var id indexes ty => .node (.var id indexes ty) :: Expression.allSites indexes
  | .address id ty => [.node (.address id ty)]
  | .call callee arguments ty => .node (.call callee arguments ty) :: Expression.allSites arguments
  | .unary operator operand ty => .node (.unary operator operand ty) :: operand.sites
  | .binary operator left right ty =>
    .node (.binary operator left right ty) :: (left.sites ++ right.sites)
  | .cast operand ty => .node (.cast operand ty) :: operand.sites

def Expression.allSites : List Expression → List Site
  | [] => []
  | e :: rest => e.sites ++ Expression.allSites rest

end

def Assignment.sites (a : Assignment) : List Site := a.value.sites ++ Expression.allSites a.indexes

def Call.sites (c : Call) : List Site := .call c :: Expression.allSites c.arguments

mutual

def Statement.sites : Statement → List Site
  | .assign a => a.sites
  | .call c => c.sites
  | .ifElse condition thenBody elseBody =>
    condition.sites ++ Statement.allSites thenBody ++ Statement.allSites elseBody
  | .forLoop initial condition change body =>
    initial.sites ++ condition.sites ++ change.sites ++ Statement.allSites body
  | .repeatUntil condition body => condition.sites ++ Statement.allSites body
  | .whileDo condition body => condition.sites ++ Statement.allSites body
  | .ret none => []
  | .ret (some value) => value.sites
  | .pass => []

def Statement.allSites : List Statement → List Site
  | [] => []
  | head :: rest => head.sites ++ Statement.allSites rest

end

/-- The sites of a program: those of its main statements and of every subroutine at any depth. -/
def Program.sites (p : Program) : List Site :=
  Statement.allSites p.statements
    ++ (Subroutine.flattenAll p.subroutines).flatMap fun s => Statement.allSites s.statements

def Program.natives (p : Program) : List NativeRoutine := p.sites.filterMap Site.native?

def Program.literals (p : Program) : List Literal := p.sites.filterMap Site.literal?

theorem Program.sites_main {p : Program} {x : Site} (h : x ∈ Statement.allSites p.statements) :
    x ∈ p.sites := List.mem_append_left _ h

theorem Program.sites_subroutine {p : Program} {sub : Subroutine} (hs : sub ∈ p.allSubroutines)
    {x : Site} (h : x ∈ Statement.allSites sub.statements) : x ∈ p.sites :=
  List.mem_append_right _ (List.mem_flatMap.mpr ⟨sub, List.mem_mergeSort.mp hs, h⟩)

end TurtleCode
