/-!
# Types and languages

The static types of a routine tree and the languages that trees come from.  A language matters only
for where the characters of a string are counted from.
-/

namespace TurtleCode

/-- The static type of a variable or of an expression.  `boolInt` is either of boolean and integer,
for languages that do not tell the two apart. -/
inductive Ty
  | boolean
  | integer
  | character
  | string
  | boolInt
deriving DecidableEq, Repr

namespace Ty

def all : List Ty := [.boolean, .integer, .character, .string, .boolInt]

def name : Ty → String
  | .boolean => "Boolean"
  | .integer => "Integer"
  | .character => "Character"
  | .string => "String"
  | .boolInt => "BoolInt"

def label : Ty → String
  | .boolean => "boolean"
  | .integer => "integer"
  | .character => "character"
  | .string => "string"
  | .boolInt => "boolint"

/-- Types on which an ambiguous operator means its string form. -/
def isStringlike : Ty → Bool
  | .string | .character => true
  | _ => false

end Ty

inductive Language
  | basic
  | c
  | pascal
  | python
  | typeScript
deriving DecidableEq, Repr

namespace Language

def all : List Language := [.basic, .c, .pascal, .python, .typeScript]

def name : Language → String
  | .basic => "Basic"
  | .c => "C"
  | .pascal => "Pascal"
  | .python => "Python"
  | .typeScript => "TypeScript"

def stringOrigin : Language → Int64
  | .basic | .pascal => 1
  | .c | .python | .typeScript => 0

end Language

end TurtleCode
