/-!
# Numbers in columns

Decimal text of a number, filled up to a width.
-/

namespace TurtleCode.Text

def decimal (n : Int) : String := toString n

def fillLeft (c : Char) (width : Nat) (text : String) : String :=
  String.ofList (List.replicate (width - text.length) c) ++ text

def fillRight (width : Nat) (text : String) : String :=
  text ++ String.ofList (List.replicate (width - text.length) ' ')

/-- A number filled with zeroes after its sign, which counts for the width. -/
def zeroFilled (width : Nat) (n : Int) : String :=
  if n < 0 then "-" ++ fillLeft '0' (width - 1) (toString n.natAbs)
  else fillLeft '0' width (toString n.natAbs)

end TurtleCode.Text
