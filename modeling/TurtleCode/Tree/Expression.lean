import TurtleCode.Word
import TurtleCode.Tree.Variable

/-!
# Expressions

Typed expressions.  Every node carries the static type of its value.

* `Operator.opcode` is the numeric opcode of an operator; the string form is chosen by the types of
  the operands when code is made.
* `Expression.isInteger` recognises an integer constant.
-/

namespace TurtleCode

/-- A constant, also the value of a named one. -/
inductive Literal
  | integer (n : Int64)
  | boolean (b : Bool)
  | character (c : Char)
  | string (s : String)
deriving DecidableEq

inductive Operator
  | neg | not | and | or | xor | plus | subt | mult | divr | div | mod
  | eqal | noeq | less | more | lseq | mreq
deriving DecidableEq, Repr

namespace Operator

def all : List Operator :=
  [.neg, .not, .and, .or, .xor, .plus, .subt, .mult, .divr, .div, .mod,
    .eqal, .noeq, .less, .more, .lseq, .mreq]

def opcode : Operator → Opcode
  | .neg => .neg
  | .not => .not
  | .and => .and
  | .or => .or
  | .xor => .xor
  | .plus => .plus
  | .subt => .subt
  | .mult => .mult
  | .divr => .divr
  | .div => .div
  | .mod => .mod
  | .eqal => .eqal
  | .noeq => .noeq
  | .less => .less
  | .more => .more
  | .lseq => .lseq
  | .mreq => .mreq

def name (operator : Operator) : String := operator.opcode.name

end Operator

/-- A routine of the machine itself: `code` follows the arguments, and `byReference` has a flag for
each parameter. -/
structure NativeRoutine where
  name : String
  byReference : List Bool
  returns : Option Ty
  code : Line
deriving DecidableEq

inductive Callee
  | native (routine : NativeRoutine)
  | subroutine (index : UInt64)
deriving DecidableEq

/-- A typed expression.  A `var` with indexes is one of its elements: dimensions come first,
outermost first, and one further index on a string selects a character. -/
inductive Expression
  | literal (value : Literal) (ty : Ty)
  | input (name : String) (index : Int64) (ty : Ty)
  | constant (name : String) (value : Literal) (ty : Ty)
  | colour (name : String) (value : Int64) (ty : Ty)
  | var (id : VariableId) (indexes : List Expression) (ty : Ty)
  | address (id : VariableId) (ty : Ty)
  | call (callee : Callee) (arguments : List Expression) (ty : Ty)
  | unary (operator : Operator) (operand : Expression) (ty : Ty)
  | binary (operator : Operator) (left right : Expression) (ty : Ty)
  | cast (operand : Expression) (ty : Ty)

namespace Expression

def ty : Expression → Ty
  | .literal _ ty | .input _ _ ty | .constant _ _ ty | .colour _ _ ty | .var _ _ ty
  | .address _ ty | .call _ _ ty | .unary _ _ ty | .binary _ _ _ ty | .cast _ ty => ty

def isInteger (n : Int64) : Expression → Bool
  | .literal (.integer m) _ => decide (m = n)
  | _ => false

def integer (n : Int64) : Expression := .literal (.integer n) .integer

def boolean (b : Bool) : Expression := .literal (.boolean b) .boolean

def character (c : Char) : Expression := .literal (.character c) .character

def string (s : String) : Expression := .literal (.string s) .string

/-- An operator on one operand, whose type it keeps. -/
def apply (operator : Operator) (operand : Expression) : Expression :=
  .unary operator operand operand.ty

end Expression

structure Call where
  callee : Callee
  arguments : List Expression

end TurtleCode
