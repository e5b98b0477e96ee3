import TurtleCode.CommandLine

/-!
# The program

Reads the files that a call names, runs it, and writes what it gives.
-/

namespace TurtleCode

def failureCause : IO.Error → String
  | .noFileOrDirectory _ number _ | .permissionDenied _ number _ | .inappropriateType _ number _
  | .resourceExhausted _ number _ | .noSuchThing _ number _ | .invalidArgument _ number _
  | .hardwareFault number _ | .otherError number _ => CommandLine.systemMessage number.toNat
  | error => toString error

def fileText (path : String) : IO (Except String String) := do
  try
    let bytes ← IO.FS.readBinFile path
    match String.fromUTF8? bytes with
    | some text => return .ok text
    | none => return .error "stream did not contain valid UTF-8"
  catch error => return .error (failureCause error)

def writeFile (outcome : CommandLine.Outcome) : IO CommandLine.Outcome := do
  match outcome.file with
  | none => return outcome
  | some (path, bytes) =>
    try
      IO.FS.writeBinFile path bytes.toByteArray
      return outcome
    catch error => return outcome.unwritten path (failureCause error)

end TurtleCode

open TurtleCode in
def main (arguments : List String) : IO UInt32 := do
  let paths := (CommandLine.options? arguments).toList ++ (CommandLine.tree? arguments).toList
  let texts ← paths.mapM fun path => do return (path, ← fileText path)
  let file path := (texts.lookup path).getD (.error (CommandLine.systemMessage 2))
  let outcome := CommandLine.run arguments file
  IO.print outcome.stdout
  let finished ← writeFile outcome
  IO.eprint finished.stderr
  return finished.code.toUInt32
