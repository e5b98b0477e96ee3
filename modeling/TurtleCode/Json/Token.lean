import TurtleCode.Json.Number

/-!
# Tokens of JSON text

Text is cut into tokens by a machine that looks at one character at a time.  Where the text is
flawed inside a token, the broken token is the last one; what the flaw is called depends on who
reads it.

* `tokens` are the tokens of a text.
* `decodePieces` is the text that a string stands for.  Characters may be written as units of two
  bytes, and two units may stand for one character together.
* `brokenFlaw` is the first flaw of a string that breaks off.
-/

namespace TurtleCode.Json

/-- A part of a string: a character, or a unit of two bytes given by its number. -/
inductive Piece
  | char (c : Char)
  | unit (n : Nat)
deriving DecidableEq

/-- Where a string breaks off: at the end of the text, at a control character, at a backslash with a
letter that means nothing after it, or at a unit that is not four hexadecimal digits. -/
inductive StringBreak
  | ended
  | control
  | letter
  | digits
deriving DecidableEq

def StringBreak.flaw : StringBreak → Flaw
  | .ended => .endInString
  | .control => .controlInString
  | .letter | .digits => .badEscape

/-- The flaw of a string that ends or breaks off right after the first of two units. -/
def flawAfterHalf : Option StringBreak → Flaw
  | some .ended => .endInString
  | some .digits => .badEscape
  | _ => .unpairedSurrogate

def decodeTo (stop : Option StringBreak) : List Piece → Except Flaw (List Char)
  | [] =>
    match stop with
    | none => .ok []
    | some s => .error s.flaw
  | .char c :: rest => do return c :: (← decodeTo stop rest)
  | .unit n :: rest =>
    if n < 0xD800 ∨ 0xDFFF < n then do return Char.ofNat n :: (← decodeTo stop rest)
    -- the second of two units stands alone
    else if 0xDC00 ≤ n then .error .loneSurrogate
    else
      match rest with
      | .unit m :: rest' =>
        if 0xDC00 ≤ m ∧ m ≤ 0xDFFF then do
          let c := Char.ofNat ((n - 0xD800) * 0x400 + (m - 0xDC00) + 0x10000)
          return c :: (← decodeTo stop rest')
        else .error .loneSurrogate
      | .char _ :: _ => .error .unpairedSurrogate
      | [] => .error (flawAfterHalf stop)

def decodePieces (pieces : List Piece) : Except Flaw (List Char) := decodeTo none pieces

def brokenFlaw (pieces : List Piece) (stop : StringBreak) : Flaw :=
  match decodeTo (some stop) pieces with
  | .error flaw => flaw
  | .ok _ => stop.flaw

/-- A token.  A `stray` character starts none.  A word or a number may be broken because the text
has `ended`, or because of the character that came; the word may be the one for nothing at all. -/
inductive Token
  | openObject
  | closeObject
  | openArray
  | closeArray
  | colon
  | comma
  | null
  | bool (b : Bool)
  | number (n : Number)
  | string (pieces : List Piece)
  | stray
  | brokenWord (isNull ended : Bool)
  | brokenNumber (ended : Bool)
  | brokenString (pieces : List Piece) (stop : StringBreak)
deriving DecidableEq

inductive NumberPart
  | sign
  | zero
  | whole
  | point
  | fraction
  | mark
  | markSign
  | exponent
deriving DecidableEq

/-- What the machine is in the middle of.  Lists of digits and of parts of a string are kept in
reverse. -/
inductive Mode
  | between
  | word (left : List Char) (token : Token)
  | number (part : NumberPart) (n : Number)
  | string (pieces : List Piece)
  | escape (pieces : List Piece)
  | hex (pieces : List Piece) (value digitsLeft : Nat)
  | spoilt (pieces : List Piece) (bytesLeft : Nat)

/-- What the machine does with a character: it goes on after giving tokens, or it stops with a
broken one. -/
inductive Step
  | go (given : List Token) (mode : Mode)
  | stop (broken : Token)

def digit? (c : Char) : Option Nat :=
  if '0' ≤ c ∧ c ≤ '9' then some (c.toNat - '0'.toNat) else none

def hexDigit? (c : Char) : Option Nat :=
  if '0' ≤ c ∧ c ≤ '9' then some (c.toNat - '0'.toNat)
  else if 'a' ≤ c ∧ c ≤ 'f' then some (c.toNat - 'a'.toNat + 10)
  else if 'A' ≤ c ∧ c ≤ 'F' then some (c.toNat - 'A'.toNat + 10)
  else none

def Number.ordered (n : Number) : Number :=
  { n with
    whole := n.whole.reverse
    fraction := n.fraction.reverse
    exponent := n.exponent.map fun (down, digits) => (down, digits.reverse) }

namespace Mode

def start (c : Char) : Step :=
  match c with
  | ' ' | '\n' | '\t' | '\r' => .go [] .between
  | '\x7b' => .go [.openObject] .between
  | '\x7d' => .go [.closeObject] .between
  | '[' => .go [.openArray] .between
  | ']' => .go [.closeArray] .between
  | ':' => .go [.colon] .between
  | ',' => .go [.comma] .between
  | '"' => .go [] (.string [])
  | 't' => .go [] (.word ['r', 'u', 'e'] (.bool true))
  | 'f' => .go [] (.word ['a', 'l', 's', 'e'] (.bool false))
  | 'n' => .go [] (.word ['u', 'l', 'l'] .null)
  | '-' => .go [] (.number .sign { negative := true })
  | '0' => .go [] (.number .zero { whole := [0] })
  | _ =>
    match digit? c with
    | some d => .go [] (.number .whole { whole := [d] })
    | none => .go [.stray] .between

def afterNumber (n : Number) (c : Char) : Step :=
  match start c with
  | .go given mode => .go (.number n.ordered :: given) mode
  | .stop broken => .stop broken

/-- A character after which a number either goes on with its fraction or its exponent, or is
complete. -/
def extendNumber (pointAllowed : Bool) (n : Number) (c : Char) : Step :=
  if pointAllowed && c == '.' then .go [] (.number .point n)
  else if c == 'e' || c == 'E' then .go [] (.number .mark { n with exponent := some (false, []) })
  else afterNumber n c

def exponentDigit (n : Number) (d : Nat) : Step :=
  match n.exponent with
  | some (down, digits) =>
    .go [] (.number .exponent { n with exponent := some (down, d :: digits) })
  | none => .stop (.brokenNumber false)

def stepNumber (part : NumberPart) (n : Number) (c : Char) : Step :=
  match part, digit? c with
  | .sign, some 0 => .go [] (.number .zero { n with whole := [0] })
  | .sign, some d => .go [] (.number .whole { n with whole := [d] })
  | .sign, none => .stop (.brokenNumber false)
  | .zero, some _ => .stop (.brokenNumber false)
  | .zero, none => extendNumber true n c
  | .whole, some d => .go [] (.number .whole { n with whole := d :: n.whole })
  | .whole, none => extendNumber true n c
  | .point, some d => .go [] (.number .fraction { n with fraction := [d] })
  | .point, none => .stop (.brokenNumber false)
  | .fraction, some d => .go [] (.number .fraction { n with fraction := d :: n.fraction })
  | .fraction, none => extendNumber false n c
  | .mark, some d => exponentDigit n d
  | .mark, none =>
    if c == '+' then .go [] (.number .markSign n)
    else if c == '-' then .go [] (.number .markSign { n with exponent := some (true, []) })
    else .stop (.brokenNumber false)
  | .markSign, some d => exponentDigit n d
  | .markSign, none => .stop (.brokenNumber false)
  | .exponent, some d => exponentDigit n d
  | .exponent, none => afterNumber n c

def stepEscape (pieces : List Piece) (c : Char) : Step :=
  match c with
  | '"' | '\\' | '/' => .go [] (.string (.char c :: pieces))
  | 'b' => .go [] (.string (.char '\x08' :: pieces))
  | 'f' => .go [] (.string (.char '\x0c' :: pieces))
  | 'n' => .go [] (.string (.char '\n' :: pieces))
  | 'r' => .go [] (.string (.char '\r' :: pieces))
  | 't' => .go [] (.string (.char '\t' :: pieces))
  | 'u' => .go [] (.hex pieces 0 4)
  | _ => .stop (.brokenString pieces.reverse .letter)

/-- A character of a unit that is spoilt.  A unit is four bytes of text, so that many are taken
before it is refused. -/
def stepSpoilt (pieces : List Piece) (bytesLeft : Nat) (c : Char) : Step :=
  if bytesLeft ≤ c.utf8Size then .stop (.brokenString pieces.reverse .digits)
  else .go [] (.spoilt pieces (bytesLeft - c.utf8Size))

def stepHex (pieces : List Piece) (value digitsLeft : Nat) (c : Char) : Step :=
  match hexDigit? c with
  | none => stepSpoilt pieces digitsLeft c
  | some d =>
    if digitsLeft ≤ 1 then .go [] (.string (.unit (16 * value + d) :: pieces))
    else .go [] (.hex pieces (16 * value + d) (digitsLeft - 1))

def step (mode : Mode) (c : Char) : Step :=
  match mode with
  | .between => start c
  | .word [] token => .go [token] .between
  | .word (expected :: left) token =>
    if c = expected then
      if left.isEmpty then .go [token] .between else .go [] (.word left token)
    else .stop (.brokenWord (decide (token = .null)) false)
  | .number part n => stepNumber part n c
  | .string pieces =>
    if c = '"' then .go [.string pieces.reverse] .between
    else if c = '\\' then .go [] (.escape pieces)
    else if c.toNat < 32 then .stop (.brokenString pieces.reverse .control)
    else .go [] (.string (.char c :: pieces))
  | .escape pieces => stepEscape pieces c
  | .hex pieces value digitsLeft => stepHex pieces value digitsLeft c
  | .spoilt pieces bytesLeft => stepSpoilt pieces bytesLeft c

def finish : Mode → List Token
  | .between => []
  | .word _ token => [.brokenWord (decide (token = .null)) true]
  | .number part n =>
    match part with
    | .zero | .whole | .fraction | .exponent => [.number n.ordered]
    | .sign | .point | .mark | .markSign => [.brokenNumber true]
  | .string pieces | .escape pieces | .hex pieces _ _ | .spoilt pieces _ =>
    [.brokenString pieces.reverse .ended]

end Mode

def tokensFrom : Mode → List Char → List Token
  | mode, [] => mode.finish
  | mode, c :: rest =>
    match mode.step c with
    | .go given next => given ++ tokensFrom next rest
    | .stop broken => [broken]

def tokens (text : List Char) : List Token := tokensFrom .between text

end TurtleCode.Json
