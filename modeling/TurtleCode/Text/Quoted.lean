import TurtleCode.Text.Combining
import TurtleCode.Text.Printable

/-!
# Quoted text

Text between double quotes.  A double quote, a backslash and the controls that have a letter of
their own are written with a backslash.  A character that cannot be printed by itself is written as
its code point in hexadecimal.
-/

namespace TurtleCode.Text

def hexDigits (n : Nat) : List Char := Nat.toDigits 16 n

/-- A character as its code point in braces. -/
def escapeCode (c : Char) : List Char :=
  ['\\', 'u', '\x7b'] ++ hexDigits c.toNat ++ ['\x7d']

def escapeChar (c : Char) : List Char :=
  match c with
  | '\x00' => ['\\', '0']
  | '\t' => ['\\', 't']
  | '\n' => ['\\', 'n']
  | '\r' => ['\\', 'r']
  | '"' => ['\\', '"']
  | '\\' => ['\\', '\\']
  | _ => if isCombining c || !isPrintable c then escapeCode c else [c]

def quote (text : List Char) : List Char := '"' :: text.flatMap escapeChar ++ ['"']

end TurtleCode.Text
