import FlatForth.CommandLine

/-!
The program. A session is answered line by line as it is read; anything else is worked out first
and then shown.
-/

namespace FlatForth.CommandLine

def Report.print (r : Report) : IO UInt32 := do
  IO.print r.output
  IO.eprint r.complaint
  match r.exit with
  | .normal => return 0
  | .code n => return n.toUInt32
  | .message text =>
    IO.eprintln text
    return 1
  | .failed why =>
    IO.eprintln ((why.message?).getD "nested too deep")
    return 1

def showEvents (events : List Event) : IO Unit :=
  for line in events.reverse.filterMap Event.line? do
    IO.println line

partial def converse (verbosity : Nat) (input : IO.FS.Stream) (m : Machine) : IO UInt32 := do
  IO.print Session.prompt
  let line ← input.getLine
  if line.isEmpty then return 0
  let t := Session.turn (record verbosity) nestingLimit line m []
  showEvents t.seen
  (← IO.getStdout).flush
  if !t.ends then converse verbosity input t.machine
  else
    match t.failure with
    | none => return 0
    | some why =>
      IO.eprintln ((why.message?).getD "nested too deep")
      return 1

end FlatForth.CommandLine

open FlatForth FlatForth.CommandLine in
def main (args : List String) : IO UInt32 := do
  match parse args with
  | .ok (.run o) =>
    if o.version || !o.sources.isEmpty then (execute nestingLimit o "").print
    else
      IO.println Session.greeting
      converse o.verbosity (← IO.getStdin) .fresh
  | _ => (run nestingLimit args "").print
