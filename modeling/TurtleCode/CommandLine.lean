import TurtleCode.Generate
import TurtleCode.Pcode.Bytes
import TurtleCode.Pcode.Listing
import TurtleCode.Pcode.Statistics
import TurtleCode.Tree.Reader

/-!
# The command line

What the program does with its arguments, as a function of the arguments and of the files it can
read.  The first argument that is neither a flag nor the value of one names the routine tree.  What
is written to a file is part of the outcome.

* `run` is the outcome of a call.
* `extension?` is the extension of a path.
-/

namespace TurtleCode.CommandLine

/-- What a call does: the exit code, what goes to the two standard streams, and a file to write. -/
structure Outcome where
  code : Nat := 0
  stdout : String := ""
  stderr : String := ""
  file : Option (String × List UInt8) := none

def failure (message : String) : Outcome := { code := 1, stderr := message ++ "\n" }

def Outcome.unwritten (outcome : Outcome) (path cause : String) : Outcome :=
  { outcome with
    code := 1
    stderr := outcome.stderr ++ "Failed to write '" ++ path ++ "': " ++ cause ++ "\n"
    file := none }

def systemMessage (number : Nat) : String :=
  let text := match number with
    | 2 => "No such file or directory"
    | 13 => "Permission denied"
    | 20 => "Not a directory"
    | 21 => "Is a directory"
    | 28 => "No space left on device"
    | 30 => "Read-only file system"
    | 36 => "File name too long"
    | 40 => "Too many levels of symbolic links"
    | _ => "Input/output error"
  text ++ " (os error " ++ toString number ++ ")"

def usage : String :=
  String.join <| List.map (· ++ "\n")
    ["PCODEGEN - PCode generator for the Turtle System",
      "",
      "Usage:",
      "  pcodegen <tree.json>                  Print linked PCode as integers",
      "  pcodegen <tree.json> --pcode          Show disassembly",
      "  pcodegen <tree.json> --stats          Show opcode statistics",
      "  pcodegen <tree.json> --out <file>     Write encoded PCode to a file",
      "  pcodegen <tree.json> --options <file> Read generator options (JSON)",
      "  pcodegen --help, -h                   Show this help",
      "",
      "Set RUST_LOG=debug to trace assembly and linking."]

/-! ## Arguments -/

def flagValue? (flag : String) : List String → Option String
  | [] => none
  | argument :: rest => if argument = flag then rest.head? else flagValue? flag rest

def takesValue (argument : String) : Bool := argument == "--options" || argument == "--out"

/-- The first argument that is neither a flag nor the value of one, after an argument `previous`. -/
def treeAfter? (previous : String) : List String → Option String
  | [] => none
  | argument :: rest =>
    if argument.toList.head? ≠ some '-' ∧ !takesValue previous then some argument
    else treeAfter? argument rest

def tree? (arguments : List String) : Option String := treeAfter? "" arguments

def options? (arguments : List String) : Option String := flagValue? "--options" arguments

/-! ## Paths -/

def fileName? (path : String) : Option String :=
  let parts := (path.splitOn "/").filter fun part => part != "" && part != "."
  match parts.getLast? with
  | some ".." => none
  | other => other

/-- The extension of a path: what follows the last dot of its last component, unless the dot comes
first there. -/
def extension? (path : String) : Option String :=
  match fileName? path with
  | none => none
  | some name =>
    match (name.splitOn ".").reverse with
    | last :: before :: more => if more.isEmpty && before == "" then none else some last
    | _ => none

/-! ## Running -/

def integerText (p : Pcode) : String :=
  "\n".intercalate (p.lines.map fun line => " ".intercalate (line.map fun n => toString n.toInt))

def listingText (p : Pcode) : Result String := do
  let rule := String.ofList (List.replicate 40 '═') ++ "\n"
  return "=== PCODE PROGRAM ===\n\n" ++ rule ++ " " ++ toString p.size ++ " lines\n" ++ rule
    ++ (← p.listing) ++ "\n"

def readAs {α : Type} (read : Json.Read α) (text : String) : Json.Outcome α :=
  (Json.Draft.ofText text).read read

def report (arguments : List String) (p : Pcode) : Outcome :=
  let listed := arguments.contains "--pcode"
  let counted := arguments.contains "--stats"
  let texts : Result (String × String) := do
    let listing ← if listed then listingText p else .ok ""
    let statistics ← if counted then p.statistics else .ok ""
    return (listing, statistics)
  match texts with
  | .error fault => failure ("Disassembly error: " ++ fault.message)
  | .ok (listing, statistics) =>
    match flagValue? "--out" arguments with
    | some path => { stdout := listing ++ statistics, file := some (path, p.toBytes) }
    | none =>
      if listed || counted then { stdout := listing ++ statistics }
      else { stdout := integerText p ++ "\n" }

def generateFrom (arguments : List String) (program : Program) (options : Options) : Outcome :=
  match generate program options with
  | .ok p => report arguments p
  -- an overflow is not reported as an error of the tree: it ends the program where it happens
  | .error (.overflow operation) =>
    { code := 101, stderr := (Fault.overflow operation).message ++ "\n" }
  | .error fault => failure ("Generation error: " ++ fault.message)

def loadOptions (arguments : List String) (file : String → Except String String) :
    Except Outcome Options :=
  match options? arguments with
  | none => .ok {}
  | some path =>
    match file path with
    | .error cause => .error (failure ("Failed to read '" ++ path ++ "': " ++ cause))
    | .ok text =>
      match readAs (Options.read Json.maxLevels) text with
      | .ok options => .ok options
      | .error fault =>
        .error (failure ("Invalid options in '" ++ path ++ "': " ++ fault.message))

def loadTree (path : String) (file : String → Except String String) : Except Outcome Program :=
  match file path with
  | .error cause => .error (failure ("Failed to read '" ++ path ++ "': " ++ cause))
  | .ok text =>
    match readAs (Program.read Json.maxLevels) text with
    | .ok program => .ok program
    | .error fault =>
      .error (failure ("Invalid routine tree in '" ++ path ++ "': " ++ fault.message))

/-- The outcome of a call; `file` gives the text of a file, or why it could not be read. -/
def run (arguments : List String) (file : String → Except String String) : Outcome :=
  if arguments.contains "--help" || arguments.contains "-h" then { stdout := usage }
  else
    match tree? arguments with
    | none => { code := 1, stdout := usage }
    | some path =>
      if extension? path ≠ some "json" then
        failure ("Error: expected a .json routine tree, got " ++ path)
      else
        match loadOptions arguments file with
        | .error outcome => outcome
        | .ok options =>
          match loadTree path file with
          | .error outcome => outcome
          | .ok program => generateFrom arguments program options

end TurtleCode.CommandLine
