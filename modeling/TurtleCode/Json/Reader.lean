import TurtleCode.Decimal.Shortest
import TurtleCode.Json.Draft
import TurtleCode.Text.Quoted

/-!
# Reading values of a type from JSON

Readers for numbers, texts, lists, records and choices.  A reader goes through a draft from left to
right and stops at the first thing that is wrong, be it a flaw of the text or a value that does not
fit.

* A record is an object with a member for each field, in any order, or an array of its fields in
  order.  Other members are passed over.
* A choice is the name of a variant, or an object whose one member has the name of a variant as its
  key and what the variant holds as its value.
* Arrays and objects that are read may be nested to a limit; readers of containers are told how many
  levels are left.  What is passed over is not limited.
-/

namespace TurtleCode.Json

inductive Found
  | null
  | bool (b : Bool)
  | integer (n : Int)
  | real (text : String)
  | string (s : List Char)
  | sequence
  | map
  | unitVariant
deriving DecidableEq

inductive Misfit
  | wrongType (found : Found) (expected : String)
  | wrongValue (found : Found) (expected : String)
  | wrongLength (length : Nat) (expected : String)
  | unknownVariant (name : String) (variants : List String)
  | repeatedField (name : String)
  | missingField (name : String)
deriving DecidableEq

inductive ReadFault
  | flaw (flaw : Flaw)
  | misfit (misfit : Misfit)
deriving DecidableEq

def Found.message : Found → String
  | .null => "null"
  | .bool b => if b then "boolean `true`" else "boolean `false`"
  | .integer n => "integer `" ++ toString n ++ "`"
  | .real text => "floating point `" ++ text ++ "`"
  | .string s => "string " ++ String.ofList (Text.quote s)
  | .sequence => "sequence"
  | .map => "map"
  | .unitVariant => "unit variant"

def namesMessage (names : List String) : String :=
  let quoted := names.map fun name => "`" ++ name ++ "`"
  match quoted with
  | [] => "there are no variants"
  | [one] => "expected " ++ one
  | [one, two] => "expected " ++ one ++ " or " ++ two
  | _ => "expected one of " ++ ", ".intercalate quoted

def Misfit.message : Misfit → String
  | .wrongType found expected => "invalid type: " ++ found.message ++ ", expected " ++ expected
  | .wrongValue found expected => "invalid value: " ++ found.message ++ ", expected " ++ expected
  | .wrongLength length expected =>
    "invalid length " ++ toString length ++ ", expected " ++ expected
  | .unknownVariant name variants => "unknown variant `" ++ name ++ "`, " ++ namesMessage variants
  | .repeatedField name => "duplicate field `" ++ name ++ "`"
  | .missingField name => "missing field `" ++ name ++ "`"

def ReadFault.message : ReadFault → String
  | .flaw f => f.message
  | .misfit m => m.message

abbrev Outcome := Except ReadFault

abbrev Read (α : Type) := Draft → Outcome α

def sound {α : Type} : Except Flaw α → Outcome α
  | .ok a => .ok a
  | .error flaw => .error (.flaw flaw)

/-! ## What was found instead -/

def foundNumber (n : Number) : Outcome Found := do
  match ← sound n.meaning with
  | .integer k => return .integer k
  | .real x => return .real (Decimal.text x)

def foundString (pieces : List Piece) : Outcome Found := do
  return .string (← sound (decodePieces pieces))

def found : Draft → Outcome Found
  | .null => .ok .null
  | .bool b => .ok (.bool b)
  | .number n => foundNumber n
  | .string pieces => foundString pieces
  | .array .. => .ok .sequence
  | .object .. => .ok .map
  | .cut gap => .error (.flaw gap.flaw)

def refuse {α : Type} (expected : String) (d : Draft) : Outcome α := do
  .error (.misfit (.wrongType (← found d) expected))

def checkEnd (ending : Ending) : Outcome Unit :=
  match ending.flaw? with
  | some flaw => .error (.flaw flaw)
  | none => .ok ()

/-! ## Plain values -/

def readBool : Read Bool
  | .bool b => .ok b
  | d => refuse "a boolean" d

def readInteger (low high : Int) (expected : String) : Read Int
  | .number n => do
    match ← sound n.meaning with
    | .integer k =>
      if low ≤ k ∧ k ≤ high then return k
      else .error (.misfit (.wrongValue (.integer k) expected))
    | .real x => .error (.misfit (.wrongType (.real (Decimal.text x)) expected))
  | d => refuse expected d

def readInt64 : Read Int64 := fun d => do
  return Int64.ofInt (← readInteger Int64.minValue.toInt Int64.maxValue.toInt "i64" d)

def readUInt64 : Read UInt64 := fun d => do
  return (← readInteger 0 (UInt64.size - 1) "usize" d).toNat.toUInt64

def readText : Read String
  | .string pieces => do return String.ofList (← sound (decodePieces pieces))
  | d => refuse "a string" d

def readChar : Read Char
  | .string pieces => do
    match ← sound (decodePieces pieces) with
    | [c] => return c
    | other => .error (.misfit (.wrongValue (.string other) "a character"))
  | d => refuse "a character" d

/-- Reads a value that may be absent, which `null` says.  Whatever starts like that word has to be
it. -/
def readOption {α : Type} (read : Read α) : Read (Option α)
  | .null => .ok none
  | .cut (.noValue (some (.brokenWord true ended))) =>
    .error (.flaw (Gap.noValue (some (.brokenWord true ended))).flaw)
  | d => do return some (← read d)

def passOver (d : Draft) : Outcome Unit :=
  match d.flaw? with
  | some flaw => .error (.flaw flaw)
  | none => .ok ()

/-! ## Lists -/

def readItems {α : Type} (read : Read α) (ending : Ending) : List Draft → Outcome (List α)
  | [] => do
    checkEnd ending
    return []
  | item :: rest => do
    let a ← read item
    let more ← readItems read ending rest
    return a :: more

/-- Reads a list, with `levels` left to open. -/
def readList {α : Type} (levels : Nat) (read : Read α) : Read (List α)
  | .array items ending =>
    if levels = 0 then .error (.flaw .tooDeep) else readItems read ending items
  | d => refuse "a sequence" d

/-! ## Records -/

/-- A group of fields.  `State` says what was read so far; `put` reads the field of a name, if it is
one of the group; `finish` gives the record or the first field that is missing; `take` reads the
fields in order from the front of a list of items, the first being item number `position`. -/
structure Fields (State Record : Type) where
  names : List String
  empty : State
  put : String → State → Draft → Option (Outcome State)
  finish : State → Outcome Record
  take : (ending : Ending) → (expected : String) → (position : Nat) → List Draft →
    Outcome (Record × List Draft)

namespace Fields

/-- One field.  `absent` is its value in an object without it, and `short` its value in an array
that ends before it. -/
def one {α : Type} (name : String) (read : Read α) (absent short : Option α) :
    Fields (Option α) α where
  names := [name]
  empty := none
  put key state d :=
    if key = name then
      some <| match state with
        | some _ => .error (.misfit (.repeatedField name))
        | none => some <$> read d
    else none
  finish state :=
    match state.or absent with
    | some a => .ok a
    | none => .error (.misfit (.missingField name))
  take ending expected position items :=
    match items with
    | item :: rest => do return (← read item, rest)
    | [] => do
      checkEnd ending
      match short with
      | some a => return (a, [])
      | none => .error (.misfit (.wrongLength position expected))

def required {α : Type} (name : String) (read : Read α) : Fields (Option α) α :=
  one name read none none

/-- A field that may be left out of an object. -/
def optional {α : Type} (name : String) (read : Read α) :
    Fields (Option (Option α)) (Option α) :=
  one name (readOption read) (some none) none

/-- A field with a value of its own when it is left out. -/
def withDefault {α : Type} (name : String) (read : Read α) (value : α) : Fields (Option α) α :=
  one name read (some value) (some value)

def both {σ τ α β : Type} (first : Fields σ α) (second : Fields τ β) :
    Fields (σ × τ) (α × β) where
  names := first.names ++ second.names
  empty := (first.empty, second.empty)
  put key state d :=
    match first.put key state.1 d with
    | some outcome => some (do return (← outcome, state.2))
    | none => (second.put key state.2 d).map fun outcome => do return (state.1, ← outcome)
  finish state := do
    let a ← first.finish state.1
    let b ← second.finish state.2
    return (a, b)
  take ending expected position items := do
    let (a, rest) ← first.take ending expected position items
    let (b, left) ← second.take ending expected (position + first.names.length) rest
    return ((a, b), left)

def putAll {σ α : Type} (fields : Fields σ α) (ending : Ending) :
    σ → List (List Piece × Draft) → Outcome σ
  | state, [] => do
    checkEnd ending
    return state
  | state, (key, value) :: rest => do
    let name ← sound (decodePieces key)
    match fields.put (String.ofList name) state value with
    | some outcome => fields.putAll ending (← outcome) rest
    | none =>
      passOver value
      fields.putAll ending state rest

def checkTaken (ending : Ending) (left : List Draft) : Outcome Unit :=
  match left, ending with
  | [], .closed => .ok ()
  | [], .broken .itemComma none => .error (.flaw .endInList)
  | [], .broken .nextItem (some _) => .error (.flaw .trailingComma)
  -- items that no field takes are text after the value
  | _, _ => .error (.flaw .trailingText)

def sizeMessage (title : String) (size : Nat) : String :=
  title ++ " with " ++ toString size ++ if size = 1 then " element" else " elements"

def read {σ α β : Type} (levels : Nat) (title : String) (fields : Fields σ α) (make : α → β) :
    Read β
  | .object members ending =>
    if levels = 0 then .error (.flaw .tooDeep) else do
      let state ← fields.putAll ending fields.empty members
      return make (← fields.finish state)
  | .array items ending =>
    if levels = 0 then .error (.flaw .tooDeep) else do
      let (a, left) ← fields.take ending (sizeMessage title fields.names.length) 0 items
      checkTaken ending left
      return make a
  | d => refuse title d

end Fields

/-! ## Choices -/

/-- A variant of a choice: one that holds nothing, one that holds a value, or one that holds a
record. -/
inductive Variant (α : Type)
  | plain (a : α)
  | holding (read : Read α)
  | record (read : Read α)

def findVariant {α : Type} (variants : List (String × Variant α)) (name : String) :
    Outcome (Variant α) :=
  match variants.lookup name with
  | some variant => .ok variant
  | none => .error (.misfit (.unknownVariant name (variants.map (·.1))))

def Variant.readBody {α : Type} (variant : Variant α) (body : Draft) : Outcome α :=
  match variant with
  | .plain a =>
    match body with
    | .null => .ok a
    | d => refuse "unit" d
  | .holding read | .record read => read body

/-- The outcome of a variant that is named without what it holds. -/
def Variant.named {α : Type} : Variant α → Outcome α
  | .plain a => .ok a
  | .holding _ => .error (.misfit (.wrongType .unitVariant "newtype variant"))
  | .record _ => .error (.misfit (.wrongType .unitVariant "struct variant"))

def checkChoiceEnd (more : List (List Piece × Draft)) (ending : Ending) : Outcome Unit :=
  match more, ending with
  | [], .closed => .ok ()
  | [], .broken .memberComma none => .error (.flaw .endInObject)
  | _, _ => .error (.flaw .valueExpected)

def readChoice {α : Type} (levels : Nat) (variants : List (String × Variant α)) : Read α
  | .string pieces => do
    let name ← sound (decodePieces pieces)
    let variant ← findVariant variants (String.ofList name)
    variant.named
  | .object members ending =>
    if levels = 0 then .error (.flaw .tooDeep) else
      match members with
      | (key, body) :: more => do
        let name ← sound (decodePieces key)
        let variant ← findVariant variants (String.ofList name)
        let a ← variant.readBody body
        checkChoiceEnd more ending
        return a
      | [] => .error (.flaw (ending.flaw?.getD .valueExpected))
  | .cut gap => .error (.flaw gap.choiceFlaw)
  | _ => .error (.flaw .valueExpected)

def readNamed {α : Type} (levels : Nat) (values : List α) (name : α → String) : Read α :=
  readChoice levels (values.map fun a => (name a, .plain a))

/-! ## Whole texts -/

/-- The levels of arrays and objects that may be nested in a text. -/
def maxLevels : Nat := 127

def Document.read {α : Type} (document : Document) (read : Read α) : Outcome α := do
  let a ← read document.root
  if document.trailing then .error (.flaw .trailingText) else return a

end TurtleCode.Json
