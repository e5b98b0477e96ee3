import TurtleCode.Json.Value
import TurtleCode.Options
import TurtleCode.Pcode
import TurtleCode.Tree.Routine

/-!
# Writing routine trees

The JSON values of routine trees, options and linked programs: a record is an object with all of its
fields, a variant that holds nothing is its name, and any other variant is an object with one
member.
-/

namespace TurtleCode

def Json.variant (name : String) (body : Json) : Json := .object [(name, body)]

def Json.option {α : Type} (write : α → Json) : Option α → Json
  | none => .null
  | some a => write a

def Json.list {α : Type} (write : α → Json) (items : List α) : Json := .array (items.map write)

def Json.int64 (n : Int64) : Json := .int n.toInt

def Json.uint64 (n : UInt64) : Json := .int n.toNat

def Ty.toJson (ty : Ty) : Json := .string ty.name

def Language.toJson (language : Language) : Json := .string language.name

def TurtleProperty.toJson (property : TurtleProperty) : Json := .string property.name

def Operator.toJson (operator : Operator) : Json := .string operator.name

def Word.toJson : Word → Json
  | .op code => .variant "Op" (.string code.name)
  | .int n => .variant "Int" (.int64 n)
  | .call index => .variant "PendingCall" (.uint64 index)

def Literal.toJson : Literal → Json
  | .integer n => .variant "Integer" (.int64 n)
  | .boolean b => .variant "Boolean" (.bool b)
  | .character c => .variant "Character" (.string (String.singleton c))
  | .string s => .variant "String" (.string s)

def VariableId.toJson (id : VariableId) : Json :=
  .object [("routine", .uint64 id.routine), ("slot", .uint64 id.slot)]

def VariableKind.toJson : VariableKind → Json
  | .value => .string "Value"
  | .turtle property => .variant "Turtle" property.toJson
  | .reference => .string "Reference"
  | .pointer => .string "Pointer"

def Bounds.toJson (bounds : Bounds) : Json :=
  .object [("start", .int64 bounds.first), ("end", .int64 bounds.last)]

def Variable.toJson (v : Variable) : Json :=
  .object
    [("name", .string v.name), ("var_type", v.ty.toJson), ("kind", v.kind.toJson),
      ("parameter", .bool v.parameter), ("string_length", .uint64 v.stringLength),
      ("dimensions", .list Bounds.toJson v.dimensions)]

def NativeRoutine.toJson (routine : NativeRoutine) : Json :=
  .object
    [("name", .string routine.name), ("reference_parameters", .list .bool routine.byReference),
      ("returns", .option Ty.toJson routine.returns), ("code", .list Word.toJson routine.code)]

def Callee.toJson : Callee → Json
  | .native routine => .variant "Native" routine.toJson
  | .subroutine index => .variant "Subroutine" (.uint64 index)

def Expression.node (kind : Json) (ty : Ty) : Json := .object [("kind", kind), ("ty", ty.toJson)]

mutual

def Expression.toJson : Expression → Json
  | .literal value ty => Expression.node (.variant "Literal" value.toJson) ty
  | .input name index ty =>
    Expression.node
      (.variant "Input" (.object [("name", .string name), ("index", .int64 index)])) ty
  | .constant name value ty =>
    Expression.node
      (.variant "Constant" (.object [("name", .string name), ("value", value.toJson)])) ty
  | .colour name value ty =>
    Expression.node
      (.variant "Colour" (.object [("name", .string name), ("value", .int64 value)])) ty
  | .var id indexes ty =>
    Expression.node
      (.variant "Variable"
        (.object [("variable", id.toJson), ("indexes", .array (Expression.listToJson indexes))])) ty
  | .address id ty => Expression.node (.variant "Address" (.object [("variable", id.toJson)])) ty
  | .call callee arguments ty =>
    Expression.node
      (.variant "Call"
        (.object
          [("callee", callee.toJson), ("arguments", .array (Expression.listToJson arguments))])) ty
  | .unary operator operand ty =>
    Expression.node
      (.variant "Unary"
        (.object [("operator", operator.toJson), ("operand", operand.toJson)])) ty
  | .binary operator left right ty =>
    Expression.node
      (.variant "Binary"
        (.object
          [("operator", operator.toJson), ("left", left.toJson), ("right", right.toJson)])) ty
  | .cast operand ty =>
    Expression.node (.variant "Cast" (.object [("expression", operand.toJson)])) ty

def Expression.listToJson : List Expression → List Json
  | [] => []
  | e :: rest => e.toJson :: Expression.listToJson rest

end

def Call.toJson (call : Call) : Json :=
  .object
    [("callee", call.callee.toJson), ("arguments", .array (Expression.listToJson call.arguments))]

def Assignment.toJson (a : Assignment) : Json :=
  .object
    [("variable", a.target.toJson), ("indexes", .array (Expression.listToJson a.indexes)),
      ("value", a.value.toJson)]

mutual

def Statement.toJson : Statement → Json
  | .assign a => .variant "Assignment" a.toJson
  | .call c => .variant "ProcedureCall" c.toJson
  | .ifElse condition thenBody elseBody =>
    .variant "If"
      (.object
        [("condition", condition.toJson), ("if_statements", .array (Statement.listToJson thenBody)),
          ("else_statements", .array (Statement.listToJson elseBody))])
  | .forLoop initial condition change body =>
    .variant "For"
      (.object
        [("initialisation", initial.toJson), ("condition", condition.toJson),
          ("change", change.toJson), ("statements", .array (Statement.listToJson body))])
  | .repeatUntil condition body =>
    .variant "Repeat"
      (.object
        [("condition", condition.toJson), ("statements", .array (Statement.listToJson body))])
  | .whileDo condition body =>
    .variant "While"
      (.object
        [("condition", condition.toJson), ("statements", .array (Statement.listToJson body))])
  | .ret value => .variant "Return" (.option Expression.toJson value)
  | .pass => .string "Pass"

def Statement.listToJson : List Statement → List Json
  | [] => []
  | s :: rest => s.toJson :: Statement.listToJson rest

end

mutual

def Subroutine.toJson : Subroutine → Json
  | ⟨index, name, returns, resultVariable, declarations, subroutines, statements⟩ =>
    .object
      [("index", .uint64 index), ("name", .string name), ("returns", .option Ty.toJson returns),
        ("result_variable", .option .uint64 resultVariable),
        ("variables", .list Variable.toJson declarations),
        ("subroutines", .array (Subroutine.listToJson subroutines)),
        ("statements", .array (Statement.listToJson statements))]

def Subroutine.listToJson : List Subroutine → List Json
  | [] => []
  | s :: rest => s.toJson :: Subroutine.listToJson rest

end

def Program.toJson (p : Program) : Json :=
  .object
    [("name", .string p.name), ("language", p.language.toJson),
      ("variables", .list Variable.toJson p.declarations),
      ("subroutines", .array (Subroutine.listToJson p.subroutines)),
      ("statements", .array (Statement.listToJson p.statements))]

def Options.toJson (options : Options) : Json :=
  .object
    [("canvas_start_size", .int64 options.canvasSize),
      ("setup_default_keybuffer", .bool options.keyBuffer),
      ("turtle_attributes_as_globals", .bool options.turtleAsGlobals),
      ("initialise_locals", .bool options.clearLocals),
      ("range_check_arrays", .bool options.checkRanges)]

def Pcode.toJson (p : Pcode) : Json := .object [("lines", .list (.list .int64) p.lines)]

end TurtleCode
