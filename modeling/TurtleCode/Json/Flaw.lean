/-!
# Flaws of JSON text

The ways in which a text fails to be JSON.
-/

namespace TurtleCode.Json

inductive Flaw
  | endInList
  | endInObject
  | endInString
  | endInValue
  | colonExpected
  | listCommaExpected
  | objectCommaExpected
  | wordExpected
  | valueExpected
  | badEscape
  | badNumber
  | numberTooLarge
  | controlInString
  | keyExpected
  | loneSurrogate
  | trailingComma
  | trailingText
  | unpairedSurrogate
  | tooDeep
deriving DecidableEq, Repr

def Flaw.message : Flaw → String
  | .endInList => "EOF while parsing a list"
  | .endInObject => "EOF while parsing an object"
  | .endInString => "EOF while parsing a string"
  | .endInValue => "EOF while parsing a value"
  | .colonExpected => "expected `:`"
  | .listCommaExpected => "expected `,` or `]`"
  | .objectCommaExpected => "expected `,` or `\x7d`"
  | .wordExpected => "expected ident"
  | .valueExpected => "expected value"
  | .badEscape => "invalid escape"
  | .badNumber => "invalid number"
  | .numberTooLarge => "number out of range"
  | .controlInString => "control character (\\u0000-\\u001F) found while parsing a string"
  | .keyExpected => "key must be a string"
  | .loneSurrogate => "lone leading surrogate in hex escape"
  | .trailingComma => "trailing comma"
  | .trailingText => "trailing characters"
  | .unpairedSurrogate => "unexpected end of hex escape"
  | .tooDeep => "recursion limit exceeded"

end TurtleCode.Json
