import TurtleCode.Json.Draft

/-!
# Where a text stops being JSON

A text that is no JSON has a first character that no JSON text could have there, or it ends too
soon.

* `breakPlace` is the place of that character, or else the end of the text.
-/

namespace TurtleCode.Json

/-- A place in a text: a line, counted from one, and the bytes of that line up to the place. -/
structure Place where
  line : Nat := 1
  column : Nat := 0
deriving DecidableEq

namespace Place

def after (place : Place) (c : Char) : Place :=
  if c = '\n' then ⟨place.line + 1, 0⟩ else { place with column := place.column + c.utf8Size }

def next (place : Place) : Place := { place with column := place.column + 1 }

def message (place : Place) : String :=
  "line " ++ toString place.line ++ " column " ++ toString place.column

end Place

def Draft.Progress.feed : Draft.Progress → List Token → Option Draft.Progress
  | progress, [] => some progress
  | .done _, _ :: _ => none
  | .within frames slot, token :: rest =>
    match Draft.move frames slot token with
    | some progress => progress.feed rest
    | none => none

/-- A token of the kind that has begun.  A place where it does not belong refuses it at its first
character already. -/
def Mode.begun : Mode → List Token
  | .word _ token => [token]
  | .number _ n => [.number n]
  | .string _ => [.string []]
  | _ => []

def breakFrom (place : Place) : Draft.Progress → Mode → List Char → Place
  | _, _, [] => place
  | progress, mode, c :: rest =>
    match mode.step c with
    | .stop _ => place.next
    | .go given mode' =>
      match progress.feed given with
      | none => place.next
      | some progress' =>
        if (progress'.feed mode'.begun).isSome then
          breakFrom (place.after c) progress' mode' rest
        else place.next

/-- The place where a text stops being JSON, which is its end if it is JSON. -/
def breakPlace (text : String) : Place := breakFrom {} (.within [] .root) .between text.toList

end TurtleCode.Json
