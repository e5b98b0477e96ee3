import TurtleCode.Link.Calls
import TurtleCode.Link.Cleanup
import TurtleCode.Link.Lower

/-!
# From a routine tree to a linked program

* `link` resolves calls, clears the heap, lowers the words to integers and checks the outcome.
* `generate` assembles a program and links it.
-/

namespace TurtleCode

def link (a : Assembly) : Result Pcode := do
  let resolved := resolveCalls a.placements a.lines
  let _ ← resolved.count
  let p ← lower (cleanupLines resolved.code).1
  p.check
  return p

def generate (p : Program) (options : Options) : Result Pcode := do
  link (← (Setting.of p options).assemble)

end TurtleCode
