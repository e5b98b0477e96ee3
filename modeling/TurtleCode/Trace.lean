import TurtleCode.Generate

/-!
# The log of a run

What making a program reports on the way: where routines were placed, which calls were resolved and
which lines were cleaned.  A run that fails has reported what it did before.

* `Event` is one report, with its level and its wording.
* `trace` is the log of a run and its outcome.
-/

namespace TurtleCode

inductive Event
  | placed (index : UInt64) (name : String) (start stop : Nat)
  | main (name : String) (start : Nat)
  | assembled (lines : Nat)
  | resolved (call : ResolvedCall)
  | resolvedAll (calls : Nat)
  | cleaned (line : Nat)
  | cleanedAll (lines : Nat)
  | linked (lines : Nat)
deriving DecidableEq

namespace Event

/-- How important a report is: those of single calls and lines are only for a close look. -/
def level : Event → String
  | .resolved _ | .cleaned _ => "TRACE"
  | _ => "DEBUG"

def message : Event → String
  | .placed index name start stop => s!"subroutine {index.toNat} '{name}' at {start}..{stop}"
  | .main name start => s!"main program '{name}' at {start}"
  | .assembled lines => s!"assembled {lines} lines"
  | .resolved call => s!"line {call.line}: call {call.index.toNat} -> {call.start}"
  | .resolvedAll calls => s!"resolved {calls} subroutine calls"
  | .cleaned line => s!"heap cleanup on line {line}"
  | .cleanedAll lines => s!"inserted heap cleanup on {lines} lines"
  | .linked lines => s!"linked {lines} lines"

end Event

namespace Setting

/-- The reports on subroutines placed from `cursor` on, as far as that goes well, and the address
after the last one if all goes well. -/
def placeEvents (s : Setting) : Nat → List Subroutine → List Event × Option Nat
  | cursor, [] => ([], some cursor)
  | cursor, sub :: rest =>
    match s.subroutineLines sub cursor with
    | .error _ => ([], none)
    | .ok code =>
      let stop := cursor + code.length
      let (events, last) := s.placeEvents stop rest
      (.placed sub.index sub.name cursor stop :: events, last)

def assembleEvents (s : Setting) : List Event :=
  match s.startup with
  | .error _ => []
  | .ok first =>
    let cursor := if s.map.subroutines.isEmpty then first.length else first.length + 1
    match s.placeEvents cursor s.map.subroutines with
    | (events, some start) => events ++ [.main s.map.program.name start]
    | (events, none) => events

end Setting

def linkEvents (a : Assembly) : List Event :=
  let resolved := resolveCalls a.placements a.lines
  resolved.calls.map .resolved ++
    match resolved.fault with
    | some _ => []
    | none =>
      let (_, cleaned) := cleanupLines resolved.code
      .resolvedAll resolved.calls.length :: cleaned.map .cleaned ++ [.cleanedAll cleaned.length]

def trace (p : Program) (options : Options) : List Event × Result Pcode :=
  let s := Setting.of p options
  match s.assemble with
  | .error fault => (s.assembleEvents, .error fault)
  | .ok a =>
    let before := s.assembleEvents ++ .assembled a.lines.length :: linkEvents a
    match link a with
    | .error fault => (before, .error fault)
    | .ok linked => (before ++ [.linked linked.size], .ok linked)

end TurtleCode
