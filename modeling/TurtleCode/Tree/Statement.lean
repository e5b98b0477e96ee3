import TurtleCode.Tree.Expression

/-!
# Statements

The statements of a routine.  Compound statements own the statements inside them.
-/

namespace TurtleCode

/-- Puts `value` into a variable or, with indexes, into one of its elements. -/
structure Assignment where
  target : VariableId
  indexes : List Expression := []
  value : Expression

/-- A statement.  A `repeatUntil` runs its body first and ends when its condition holds; a `forLoop`
goes on while its condition holds and makes its change after each pass. -/
inductive Statement
  | assign (assignment : Assignment)
  | call (call : Call)
  | ifElse (condition : Expression) (thenBody elseBody : List Statement)
  | forLoop (initial : Assignment) (condition : Expression) (change : Assignment)
      (body : List Statement)
  | repeatUntil (condition : Expression) (body : List Statement)
  | whileDo (condition : Expression) (body : List Statement)
  | ret (value : Option Expression)
  | pass

end TurtleCode
