import TurtleCode.Code.Access

/-!
# Code for expressions

An expression becomes code that pushes its value or, where a parameter is a reference, its address.

* `Setting.expression` is the code of an expression, by value or by reference.
* `Setting.element` pushes the address of an array element or of a character.
* `Setting.call` evaluates arguments in order and makes the call.  The address of a subroutine is
  left as a placeholder.
-/

namespace TurtleCode

def Literal.code : Literal → Line
  | .integer n => instr .ldin [n]
  | .boolean b => instr .ldin [if b then -1 else 0]
  | .character c => instr .ldin [Int64.ofNat c.toNat]
  | .string s =>
    instr .lstr (Int64.ofNat s.toList.length :: s.toList.map fun c => Int64.ofNat c.toNat)

def fromOrigin (origin : Int64) : Line :=
  if origin = 0 then []
  else if origin = 1 then instr .decr []
  else instr .ldin [origin] ++ instr .subt []

def characterOffset : Int64 := 2

def Ty.conversion (source target : Ty) : Result Line :=
  match source, target with
  | .character, .string => .ok (instr .ctos [])
  | .integer, .string => .ok (instr .itos [])
  | .string, .integer => .ok (instr .sval [])
  | _, _ => if source = target then .ok [] else .error (.illegalCast source target)

def Operator.code (operator : Operator) (onStrings : Bool) : Line :=
  if onStrings then instr (operator.opcode.stringForm?.getD operator.opcode) []
  else instr operator.opcode []

/-- The shorter code for adding or taking away the constant one. -/
def Operator.stepCode? : Operator → Option Line
  | .plus => some (instr .incr [])
  | .subt => some (instr .decr [])
  | _ => none

def Callee.code : Callee → Line
  | .native routine => routine.code
  | .subroutine index => [.op .subr, .call index]

namespace Setting

/-- Code that steps from the pointer of an array or string and an index on the stack to the address
of what the index selects, `depth` indexes having been used before. -/
def select (s : Setting) (v : Variable) (depth : Nat) : Result Line :=
  match v.dimensions[depth]? with
  | some bounds => do
    let each ← v.elementLength depth
    -- the pointer leads to the count, and the first element is one cell further
    return fromOrigin bounds.first
      ++ (if s.options.checkRanges then instr .test [] else [])
      ++ (if each = 1 then [] else instr .ldin [each] ++ instr .mult [])
      ++ instr .plus [] ++ instr .incr []
  | none =>
    if depth = v.dimensions.length ∧ v.ty = .string then
      return fromOrigin s.language.stringOrigin
        ++ instr .plus [] ++ instr .ldin [characterOffset] ++ instr .plus []
    else
      .error (.notAddressable (.index (depth + 1) v.name))

/-- How the arguments of a call are passed, by reference or not: to a routine of the machine as its
flags say and by value past the last flag, to a subroutine as its parameters are declared.
Arguments past the end of the list are not passed at all. -/
def passing (s : Setting) (callee : Callee) (count : Nat) : Result (List Bool) :=
  match callee with
  | .native routine => .ok (routine.byReference ++ List.replicate count false)
  | .subroutine index => do
    let target ← s.map.subroutine index
    return target.parameters.map fun parameter => decide (parameter.kind ≠ .value)

def fetchResult (s : Setting) : Callee → Result Line
  | .native _ => .ok []
  | .subroutine _ => do
    match ← s.map.resultCell with
    | some cell => return instr .ldvg [cell]
    | none => return []

mutual

/-- The code of an expression: it pushes the value or, `byReference`, the address. -/
def expression (s : Setting) (byReference : Bool) : Expression → Result Line
  | .var id indexes _ => do
    if indexes.isEmpty then
      if byReference then s.addressOf id else s.load id
    else
      let v ← s.map.declared id
      let pointer ← s.load id
      let steps ← s.steps v 0 indexes
      return pointer ++ steps ++ (if byReference then [] else instr .lptr [])
  | .literal value _ =>
    if byReference then .error (.notAddressable .literal) else .ok value.code
  | .input _ index _ =>
    if byReference then .error (.notAddressable .input)
    else .ok (instr .ldin [index] ++ instr .inpt [])
  | .constant _ value _ =>
    if byReference then .error (.notAddressable .constant) else .ok value.code
  | .colour _ value _ =>
    if byReference then .error (.notAddressable .colour) else .ok (instr .ldin [value])
  | .address id _ =>
    if byReference then .error (.notAddressable .address) else s.addressOf id
  | .call callee arguments _ =>
    if byReference then .error (.notAddressable .callResult) else do
      let flags ← s.passing callee arguments.length
      let values ← s.arguments flags arguments
      let fetched ← s.fetchResult callee
      return values ++ callee.code ++ fetched
  | .unary operator operand _ =>
    if byReference then .error (.notAddressable .operation) else do
      let code ← s.expression false operand
      return code ++ instr operator.opcode []
  | .binary operator left right _ =>
    if byReference then .error (.notAddressable .operation) else do
      let first ← s.expression false left
      let onStrings := left.ty.isStringlike || right.ty.isStringlike
      match (if !onStrings && right.isInteger 1 then operator.stepCode? else none) with
      | some step => return first ++ step
      | none =>
        let second ← s.expression false right
        return first ++ second ++ operator.code onStrings
  | .cast operand ty =>
    if byReference then .error (.notAddressable .cast) else do
      let code ← s.expression false operand
      let conversion ← operand.ty.conversion ty
      return code ++ conversion

/-- The code of indexes from `depth` on.  From the second index on, the address reached so far holds
a pointer to follow. -/
def steps (s : Setting) (v : Variable) (depth : Nat) : List Expression → Result Line
  | [] => .ok []
  | index :: rest => do
    let value ← s.expression false index
    let selection ← s.select v depth
    let more ← s.steps v (depth + 1) rest
    return (if depth = 0 then [] else instr .lptr []) ++ value ++ selection ++ more

/-- The code of arguments in order, each by value or by reference as its flag says; those without a
flag are left out. -/
def arguments (s : Setting) (byReference : List Bool) : List Expression → Result Line
  | [] => .ok []
  | argument :: rest =>
    match byReference with
    | [] => .ok []
    | flag :: flags => do
      let value ← s.expression flag argument
      let more ← s.arguments flags rest
      return value ++ more

end

def element (s : Setting) (id : VariableId) (indexes : List Expression) : Result Line := do
  let v ← s.map.declared id
  let pointer ← s.load id
  let steps ← s.steps v 0 indexes
  return pointer ++ steps

def call (s : Setting) (c : Call) : Result Line := do
  let flags ← s.passing c.callee c.arguments.length
  let values ← s.arguments flags c.arguments
  return values ++ c.callee.code

end Setting

end TurtleCode
