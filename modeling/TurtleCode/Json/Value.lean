/-!
# JSON values and their text

The values that are written: numbers are whole, and the members of an object are in order.

* `Json.render` is the text of a value, without blanks.
-/

namespace TurtleCode

inductive Json
  | null
  | bool (b : Bool)
  | int (n : Int)
  | string (s : String)
  | array (items : List Json)
  | object (members : List (String × Json))

namespace Json

def controlDigits (n : Nat) : List Char := [Nat.digitChar (n / 16), Nat.digitChar (n % 16)]

def escapeChar (c : Char) : List Char :=
  match c with
  | '"' => ['\\', '"']
  | '\\' => ['\\', '\\']
  | '\x08' => ['\\', 'b']
  | '\t' => ['\\', 't']
  | '\n' => ['\\', 'n']
  | '\x0c' => ['\\', 'f']
  | '\r' => ['\\', 'r']
  | _ => if c.toNat < 32 then ['\\', 'u', '0', '0'] ++ controlDigits c.toNat else [c]

def stringChars (s : String) : List Char := '"' :: s.toList.flatMap escapeChar ++ ['"']

def intChars : Int → List Char
  | .ofNat n => Nat.toDigits 10 n
  | .negSucc n => '-' :: Nat.toDigits 10 (n + 1)

mutual

def chars : Json → List Char
  | .null => ['n', 'u', 'l', 'l']
  | .bool true => ['t', 'r', 'u', 'e']
  | .bool false => ['f', 'a', 'l', 's', 'e']
  | .int n => intChars n
  | .string s => stringChars s
  | .array [] => ['[', ']']
  | .array (item :: rest) => '[' :: chars item ++ itemChars rest
  | .object [] => ['\x7b', '\x7d']
  | .object ((key, value) :: rest) =>
    '\x7b' :: stringChars key ++ ':' :: chars value ++ memberChars rest

/-- The rest of an array after one of its items. -/
def itemChars : List Json → List Char
  | [] => [']']
  | item :: rest => ',' :: chars item ++ itemChars rest

/-- The rest of an object after one of its members. -/
def memberChars : List (String × Json) → List Char
  | [] => ['\x7d']
  | (key, value) :: rest => ',' :: stringChars key ++ ':' :: chars value ++ memberChars rest

end

def render (j : Json) : String := String.ofList j.chars

end Json

end TurtleCode
