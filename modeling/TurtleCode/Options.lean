/-!
# Options

What the one who asks for code can choose.
-/

namespace TurtleCode

/-- How code is to be made.  `canvasSize` is the width and height of the canvas at the start and
`keyBuffer` asks for a key buffer.  With `turtleAsGlobals` the properties of the turtle are
addressed as globals and not through the turtle pointer.  `clearLocals` zeroes each frame when it is
claimed, and `checkRanges` has every array index checked. -/
structure Options where
  canvasSize : Int64 := 1000
  keyBuffer : Bool := true
  turtleAsGlobals : Bool := false
  clearLocals : Bool := true
  checkRanges : Bool := true
deriving DecidableEq

end TurtleCode
