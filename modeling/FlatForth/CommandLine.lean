import FlatForth.CommandLine.Arguments
import FlatForth.Session

/-!
The command line: evaluates the texts it is given and prints the stack they leave, or else holds a
session with its input. What it shows are events in order; asking for more events shows more and
changes nothing else.
-/

namespace FlatForth.CommandLine

def version : String := "0.1.0"

def versionText : String := "tinyforth " ++ version

def usage : String := "usage: tinyforth [-h] [-e TEXT] [-v] [--version]"

def helpText : String :=
  "\n".intercalate
    [usage,
      "",
      "Evaluate Forth, or start a Forth REPL",
      "",
      "options:",
      "  -h, --help            show this help message and exit",
      "  -e TEXT, --eval TEXT  evaluate TEXT and print the resulting stack (may be",
      "                        repeated)",
      "  -v, --verbose         log definitions and loops (-vv to log every word)",
      "  --version             print version and exit"]

inductive Exit where
  | normal
  | code (n : Nat)
  | message (text : String)
  | failed (why : Failure)
deriving DecidableEq

/-- All that a run of the command line leaves behind. -/
structure Report where
  exit : Exit
  events : List Event
  complaint : String
  unread : String

def Report.output (r : Report) : String :=
  String.join ((r.events.filterMap Event.line?).map (· ++ "\n"))

/-- Keeps the events up to a level, the latest first. -/
def record (verbosity : Nat) (events : List Event) (e : Event) : List Event :=
  if e.level ≤ verbosity then e :: events else events

def evaluateAll {σ : Type} (note : σ → Event → σ) (room : Nat) : List Source → Action σ
  | [], m, s => ⟨m.done, s⟩
  | source :: rest, m, s =>
    let o := evaluate note room source m (note s (.evaluating source))
    match o.failure with
    | some _ => o
    | none => evaluateAll note room rest o.machine o.seen

/-- The stack is printed once every source has run. -/
def printStack {σ : Type} (note : σ → Event → σ) : Action σ := fun m s =>
  match formatStack? m.stack with
  | none => ⟨m.stop .integerTooLong, s⟩
  | some shown => ⟨m.done, note s (.printed shown)⟩

def runSources {σ : Type} (note : σ → Event → σ) (room : Nat) (sources : List Source) : Action σ :=
  fun m s =>
  let o := evaluateAll note room sources m s
  match o.failure with
  | some _ => o
  | none => printStack note o.machine o.seen

def Exit.ofSources : Option Failure → Exit
  | none => .normal
  | some (.fault f) => .message (f.name ++ ": " ++ f.message)
  | some why => .failed why

def Exit.ofSession : Option Failure → Exit
  | none => .normal
  | some why => .failed why

def execute (room : Nat) (o : Options) (input : String) : Report :=
  let note := record o.verbosity
  if o.version then ⟨.message versionText, [], "", input⟩
  else if o.sources.isEmpty then
    let s := Session.run note room input .fresh []
    ⟨.ofSession s.failure, s.seen.reverse, "", s.unread⟩
  else
    let r := runSources note room o.sources .fresh []
    ⟨.ofSources r.failure, r.seen.reverse, "", input⟩

/-- `cli_main`, given its arguments and its input. -/
def run (room : Nat) (args : List String) (input : String) : Report :=
  match parse args with
  | .error e => ⟨.code 2, [], usage ++ "\ntinyforth: error: " ++ e.message ++ "\n", input⟩
  | .ok .help => ⟨.code 0, [.printed helpText], "", input⟩
  | .ok (.run o) => execute room o input

end FlatForth.CommandLine
