import TurtleCode.Json.Reader
import TurtleCode.Options
import TurtleCode.Pcode
import TurtleCode.Tree.Routine

/-!
# Reading routine trees

The JSON form of routine trees, options and linked programs.  Every reader is told how many levels
of arrays and objects are left to open; readers of nested trees recurse on that number.

* `Program.read`, `Options.read` and their like read one type each.
-/

namespace TurtleCode

open Json

/-! ## Names and words -/

def Ty.read (levels : Nat) : Read Ty := readNamed levels Ty.all Ty.name

def Language.read (levels : Nat) : Read Language := readNamed levels Language.all Language.name

def Opcode.read (levels : Nat) : Read Opcode := readNamed levels Opcode.all Opcode.name

def Operator.read (levels : Nat) : Read Operator := readNamed levels Operator.all Operator.name

def TurtleProperty.read (levels : Nat) : Read TurtleProperty :=
  readNamed levels TurtleProperty.all TurtleProperty.name

def Word.read (levels : Nat) : Read Word :=
  readChoice levels
    [("Op", .holding fun d => do return .op (← Opcode.read (levels - 1) d)),
      ("Int", .holding fun d => do return .int (← readInt64 d)),
      ("PendingCall", .holding fun d => do return .call (← readUInt64 d))]

def Literal.read (levels : Nat) : Read Literal :=
  readChoice levels
    [("Integer", .holding fun d => do return .integer (← readInt64 d)),
      ("Boolean", .holding fun d => do return .boolean (← readBool d)),
      ("Character", .holding fun d => do return .character (← readChar d)),
      ("String", .holding fun d => do return .string (← readText d))]

/-! ## Variables -/

def VariableId.read (levels : Nat) : Read VariableId :=
  ((Fields.required "routine" readUInt64).both (Fields.required "slot" readUInt64)).read
    levels "struct VariableId" fun (routine, slot) => ⟨routine, slot⟩

def VariableKind.read (levels : Nat) : Read VariableKind :=
  readChoice levels
    [("Value", .plain .value),
      ("Turtle", .holding fun d => do return .turtle (← TurtleProperty.read (levels - 1) d)),
      ("Reference", .plain .reference),
      ("Pointer", .plain .pointer)]

def Bounds.read (levels : Nat) : Read Bounds :=
  ((Fields.required "start" readInt64).both (Fields.required "end" readInt64)).read
    levels "struct Bounds" fun (first, last) => ⟨first, last⟩

def Variable.read (levels : Nat) : Read Variable :=
  ((Fields.required "name" readText).both <|
    (Fields.required "var_type" (Ty.read (levels - 1))).both <|
    (Fields.required "kind" (VariableKind.read (levels - 1))).both <|
    (Fields.required "parameter" readBool).both <|
    (Fields.required "string_length" readUInt64).both <|
    Fields.required "dimensions" (readList (levels - 1) (Bounds.read (levels - 2)))).read
    levels "struct Variable" fun (name, ty, kind, parameter, stringLength, dimensions) =>
      ⟨name, ty, kind, parameter, stringLength, dimensions⟩

/-! ## Expressions -/

def NativeRoutine.read (levels : Nat) : Read NativeRoutine :=
  ((Fields.required "name" readText).both <|
    (Fields.required "reference_parameters" (readList (levels - 1) readBool)).both <|
    (Fields.optional "returns" (Ty.read (levels - 1))).both <|
    Fields.required "code" (readList (levels - 1) (Word.read (levels - 2)))).read
    levels "struct NativeRoutine" fun (name, byReference, returns, code) =>
      ⟨name, byReference, returns, code⟩

def Callee.read (levels : Nat) : Read Callee :=
  readChoice levels
    [("Native", .holding fun d => do return .native (← NativeRoutine.read (levels - 1) d)),
      ("Subroutine", .holding fun d => do return .subroutine (← readUInt64 d))]

def readCall {β : Type} (levels : Nat) (argument : Read Expression)
    (make : Callee → List Expression → β) : Read β :=
  ((Fields.required "callee" (Callee.read (levels - 1))).both <|
    Fields.required "arguments" (readList (levels - 1) argument)).read
    levels "struct Call" fun (callee, arguments) => make callee arguments

namespace Expression

/-- The variants of an expression without its type.  `operand` reads an expression that is a field
of a variant, and `item` one in a list; what a variant holds has `levels` left to open. -/
def variants (levels : Nat) (operand item : Read Expression) :
    List (String × Variant (Ty → Expression)) :=
  let title (name : String) := "struct variant ExpressionKind::" ++ name
  [("Literal", .holding fun d => do return .literal (← Literal.read levels d)),
    ("Input", .record <|
      ((Fields.required "name" readText).both (Fields.required "index" readInt64)).read
        levels (title "Input") fun (name, index) => .input name index),
    ("Constant", .record <|
      ((Fields.required "name" readText).both
        (Fields.required "value" (Literal.read (levels - 1)))).read
        levels (title "Constant") fun (name, value) => .constant name value),
    ("Colour", .record <|
      ((Fields.required "name" readText).both (Fields.required "value" readInt64)).read
        levels (title "Colour") fun (name, value) => .colour name value),
    ("Variable", .record <|
      ((Fields.required "variable" (VariableId.read (levels - 1))).both
        (Fields.required "indexes" (readList (levels - 1) item))).read
        levels (title "Variable") fun (id, indexes) => .var id indexes),
    ("Address", .record <|
      (Fields.required "variable" (VariableId.read (levels - 1))).read
        levels (title "Address") .address),
    ("Call", .holding <| readCall levels item .call),
    ("Unary", .record <|
      ((Fields.required "operator" (Operator.read (levels - 1))).both
        (Fields.required "operand" operand)).read
        levels (title "Unary") fun (operator, operand) => .unary operator operand),
    ("Binary", .record <|
      ((Fields.required "operator" (Operator.read (levels - 1))).both <|
        (Fields.required "left" operand).both (Fields.required "right" operand)).read
        levels (title "Binary") fun (operator, left, right) => .binary operator left right),
    ("Cast", .record <|
      (Fields.required "expression" operand).read levels (title "Cast") .cast)]

def readWith (levels : Nat) (operand item : Read Expression) : Read Expression :=
  ((Fields.required "kind" (readChoice (levels - 1) (variants (levels - 2) operand item))).both
    (Fields.required "ty" (Ty.read (levels - 1)))).read
    levels "struct Expression" fun (kind, ty) => kind ty

def tooDeep : Read Expression := fun _ => .error (.flaw .tooDeep)

/-- Reads an expression.  One level is the expression itself, one the choice of its variant and one
what the variant holds; a list of expressions takes one more. -/
def read : Nat → Read Expression
  | 0, d => readWith 0 tooDeep tooDeep d
  | 1, d => readWith 1 tooDeep tooDeep d
  | 2, d => readWith 2 tooDeep tooDeep d
  | 3, d => readWith 3 (read 0) tooDeep d
  | levels + 4, d => readWith (levels + 4) (read (levels + 1)) (read levels) d

end Expression

def Call.read (levels : Nat) : Read Call := readCall levels (Expression.read (levels - 2)) .mk

/-! ## Statements -/

def Assignment.read (levels : Nat) : Read Assignment :=
  ((Fields.required "variable" (VariableId.read (levels - 1))).both <|
    (Fields.required "indexes" (readList (levels - 1) (Expression.read (levels - 2)))).both <|
    Fields.required "value" (Expression.read (levels - 1))).read
    levels "struct Assignment" fun (target, indexes, value) => ⟨target, indexes, value⟩

namespace Statement

/-- The variants of a statement.  `item` reads a statement in a list, and what a variant holds has
`levels` left to open. -/
def variants (levels : Nat) (item : Read Statement) : List (String × Variant Statement) :=
  let title (name : String) := "struct variant Statement::" ++ name
  let condition := Fields.required "condition" (Expression.read (levels - 1))
  let body (name : String) := Fields.required name (readList (levels - 1) item)
  [("Assignment", .holding fun d => do return .assign (← Assignment.read levels d)),
    ("ProcedureCall", .holding fun d => do return .call (← Call.read levels d)),
    ("If", .record <|
      (condition.both <| (body "if_statements").both (body "else_statements")).read
        levels (title "If") fun (test, thenBody, elseBody) => .ifElse test thenBody elseBody),
    ("For", .holding <|
      ((Fields.required "initialisation" (Assignment.read (levels - 1))).both <|
        condition.both <|
        (Fields.required "change" (Assignment.read (levels - 1))).both (body "statements")).read
        levels "struct ForLoop" fun (initial, test, change, inner) =>
          .forLoop initial test change inner),
    ("Repeat", .record <|
      (condition.both (body "statements")).read
        levels (title "Repeat") fun (test, inner) => .repeatUntil test inner),
    ("While", .record <|
      (condition.both (body "statements")).read
        levels (title "While") fun (test, inner) => .whileDo test inner),
    ("Return", .holding fun d => do return .ret (← readOption (Expression.read levels) d)),
    ("Pass", .plain .pass)]

def readWith (levels : Nat) (item : Read Statement) : Read Statement :=
  readChoice levels (variants (levels - 1) item)

def tooDeep : Read Statement := fun _ => .error (.flaw .tooDeep)

/-- Reads a statement.  One level is the choice of its variant, one what the variant holds, and one
the list of the statements inside. -/
def read : Nat → Read Statement
  | 0, d => readWith 0 tooDeep d
  | 1, d => readWith 1 tooDeep d
  | 2, d => readWith 2 tooDeep d
  | levels + 3, d => readWith (levels + 3) (read levels) d

end Statement

/-! ## Routines -/

namespace Subroutine

def readWith (levels : Nat) (item : Read Subroutine) : Read Subroutine :=
  ((Fields.required "index" readUInt64).both <|
    (Fields.required "name" readText).both <|
    (Fields.optional "returns" (Ty.read (levels - 1))).both <|
    (Fields.optional "result_variable" readUInt64).both <|
    (Fields.required "variables" (readList (levels - 1) (Variable.read (levels - 2)))).both <|
    (Fields.required "subroutines" (readList (levels - 1) item)).both <|
    Fields.required "statements" (readList (levels - 1) (Statement.read (levels - 2)))).read
    levels "struct Subroutine"
    fun (index, name, returns, resultVariable, declarations, subroutines, statements) =>
      ⟨index, name, returns, resultVariable, declarations, subroutines, statements⟩

def tooDeep : Read Subroutine := fun _ => .error (.flaw .tooDeep)

/-- Reads a subroutine.  One level is the subroutine itself and one the list of those inside. -/
def read : Nat → Read Subroutine
  | 0, d => readWith 0 tooDeep d
  | 1, d => readWith 1 tooDeep d
  | levels + 2, d => readWith (levels + 2) (read levels) d

end Subroutine

def Program.read (levels : Nat) : Read Program :=
  ((Fields.required "name" readText).both <|
    (Fields.required "language" (Language.read (levels - 1))).both <|
    (Fields.required "variables" (readList (levels - 1) (Variable.read (levels - 2)))).both <|
    (Fields.required "subroutines" (readList (levels - 1) (Subroutine.read (levels - 2)))).both <|
    Fields.required "statements" (readList (levels - 1) (Statement.read (levels - 2)))).read
    levels "struct Program" fun (name, language, declarations, subroutines, statements) =>
      ⟨name, language, declarations, subroutines, statements⟩

/-! ## Options and linked programs -/

def Options.read (levels : Nat) : Read Options :=
  let usual : Options := {}
  ((Fields.withDefault "canvas_start_size" readInt64 usual.canvasSize).both <|
    (Fields.withDefault "setup_default_keybuffer" readBool usual.keyBuffer).both <|
    (Fields.withDefault "turtle_attributes_as_globals" readBool usual.turtleAsGlobals).both <|
    (Fields.withDefault "initialise_locals" readBool usual.clearLocals).both <|
    Fields.withDefault "range_check_arrays" readBool usual.checkRanges).read
    levels "struct Options"
    fun (canvasSize, keyBuffer, turtleAsGlobals, clearLocals, checkRanges) =>
      ⟨canvasSize, keyBuffer, turtleAsGlobals, clearLocals, checkRanges⟩

def Pcode.read (levels : Nat) : Read Pcode :=
  (Fields.required "lines" (readList (levels - 1) (readList (levels - 2) readInt64))).read
    levels "struct Pcode" .mk

end TurtleCode
