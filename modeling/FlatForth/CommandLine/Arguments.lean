import FlatForth.Text.Digit
import FlatForth.Text.Lines
import FlatForth.Text.Quoted
import FlatForth.Word

/-!
The arguments of a command line. Each argument is first sorted by itself: an option, possibly with a
text joined to it, or an operand. Only then are the options taken in order, so a misspelt one is
reported before anything is done. There are no operands to take, so any that is left over is
refused, but not before all the options are read.
-/

namespace FlatForth.CommandLine

inductive Flag where
  | help
  | evaluate
  | verbose
  | version
deriving DecidableEq

namespace Flag

def spellings : List (String × Flag) :=
  [("-h", help), ("--help", help), ("-e", evaluate), ("--eval", evaluate), ("-v", verbose),
    ("--verbose", verbose), ("--version", version)]

def spelled? (name : String) : Option Flag := spellings.lookup name

def takesText (f : Flag) : Bool := f = evaluate

/-- A flag by all its spellings. -/
def label (f : Flag) : String :=
  "/".intercalate ((spellings.filter (·.2 = f)).map (·.1))

end Flag

inductive UsageError where
  | missingText (f : Flag)
  | unusedText (f : Flag) (text : String)
  | ambiguous (arg : String) (names : List String)
  | unrecognized (args : List String)
deriving DecidableEq

def UsageError.message : UsageError → String
  | missingText f => "argument " ++ f.label ++ ": expected one argument"
  | unusedText f text => "argument " ++ f.label ++ ": ignored explicit argument " ++ Text.quote text
  | ambiguous arg names => "ambiguous option: " ++ arg ++ " could match " ++ ", ".intercalate names
  | unrecognized args => "unrecognized arguments: " ++ " ".intercalate args

/-- What an argument is, taken by itself. Short flags may be followed by more of them. -/
inductive Form where
  | operand
  | separator
  | option (f : Flag) (short : Bool) (joined : Option String)
  | unknown
deriving DecidableEq

/-- The characters up to the first mark, and those after it if it is there. -/
def cutAt (mark : Char) (cs : List Char) : List Char × Option (List Char) :=
  (cs.takeWhile (· ≠ mark),
    if cs.contains mark then some ((cs.dropWhile (· ≠ mark)).drop 1) else none)

def isLong (arg : String) : Bool := "--".toList.isPrefixOf arg.toList

/-- A minus sign and digits, with at most one point among them, and not at their end. -/
def isNegativeNumber (arg : String) : Bool :=
  match Text.dropLineFeed arg.toList with
  | '-' :: cs =>
    let isDigit c := (Text.digit? c).isSome
    match cutAt '.' cs with
    | (whole, none) => !whole.isEmpty && whole.all isDigit
    | (whole, some fraction) => whole.all isDigit && !fraction.isEmpty && fraction.all isDigit
  | _ => false

/-- The spellings that an argument might stand for, and what it is under each: a long one may be cut
short, and a short one may have a text right behind it. -/
def candidates (arg : String) : List (String × Form) :=
  if isLong arg then
    let (name, text) := cutAt '=' arg.toList
    (Flag.spellings.filter (name.isPrefixOf ·.1.toList)).map fun (spelling, f) =>
      (spelling, .option f false (text.map String.ofList))
  else
    let spelling := String.ofList (arg.toList.take 2)
    match Flag.spelled? spelling with
    | none => []
    | some f => [(spelling, .option f true (some (String.ofList (arg.toList.drop 2))))]

/-- The form of an argument other than the separator. A full spelling is known at once, alone or up
to an equals sign; an argument that could still be a number or has a space in it is no option. -/
def sort (arg : String) : Except UsageError Form :=
  if !"-".toList.isPrefixOf arg.toList || arg = "-" then .ok .operand
  else
    match Flag.spelled? arg, cutAt '=' arg.toList with
    | some f, _ => .ok (.option f (!isLong arg) none)
    | none, (name, text) =>
      match text, Flag.spelled? (String.ofList name) with
      | some text, some f => .ok (.option f (!isLong arg) (some (String.ofList text)))
      | _, _ =>
        match candidates arg with
        | [] =>
          .ok (if isNegativeNumber arg || arg.toList.contains ' ' then .operand else .unknown)
        | [(_, form)] => .ok form
        | several => .error (.ambiguous arg (several.map (·.1)))

/-- Behind a separator there are operands only. -/
def sortAll : List String → Except UsageError (List (String × Form))
  | [] => .ok []
  | arg :: args =>
    if arg = "--" then .ok ((arg, .separator) :: args.map (·, .operand))
    else do
      let form ← sort arg
      let forms ← sortAll args
      return (arg, form) :: forms

/-- One thing that an option asks for. A flag that takes a text may have it in its own argument, or
await it in the next. -/
inductive Choice where
  | plain (f : Flag)
  | text (t : String)
  | awaited
deriving DecidableEq

def Choice.ofFlag (f : Flag) : Choice := if f.takesText then .awaited else .plain f

/-- The choices in a row of short flags, of which this is the first. -/
def cluster (f : Flag) : List Char → Except UsageError (List Choice)
  | [] => .ok [.ofFlag f]
  | c :: cs =>
    if f.takesText then .ok [.text (String.ofList (c :: cs))]
    else
      match Flag.spelled? (String.ofList ['-', c]) with
      | none => .error (.unusedText f (String.ofList (c :: cs)))
      | some next => (cluster next cs).map (.plain f :: ·)

def choices (f : Flag) (short : Bool) : Option String → Except UsageError (List Choice)
  | none => .ok [.ofFlag f]
  | some text =>
    if f.takesText then .ok [.text text]
    else if short && !text.isEmpty then cluster f text.toList
    else .error (.unusedText f text)

/-- What a run is asked to do: the sources to evaluate, in order, and how much to tell of it. -/
structure Options where
  verbosity : Nat
  version : Bool
  sources : List Source
deriving DecidableEq

namespace Options

def none : Options := ⟨0, false, []⟩

/-- A separator that is joined to a flag as its text counts for nothing, and leaves no words. -/
def sourceOf (text : String) : Source := if text = "--" then .words [] else .text text

def add (o : Options) (next : Option String) : Choice → Options
  | .plain .verbose => { o with verbosity := o.verbosity + 1 }
  | .plain .version => { o with version := true }
  | .plain _ => o
  | .text t => { o with sources := o.sources ++ [sourceOf t] }
  | .awaited => { o with sources := o.sources ++ next.toList.map .text }

end Options

inductive Command where
  | help
  | run (o : Options)
deriving DecidableEq

/-- Takes the options from front to back; help ends the reading where it is met. -/
def take (o : Options) (left : List String) : List (String × Form) → Except UsageError Command
  | [] => if left.isEmpty then .ok (.run o) else .error (.unrecognized left)
  | (arg, form) :: rest =>
    match form with
    | .option f short joined =>
      match choices f short joined with
      | .error e => .error e
      | .ok cs =>
        if cs.contains .awaited then
          match rest with
          | (next, .operand) :: rest =>
            if cs.contains (.plain .help) then .ok .help
            else take (cs.foldl (·.add (some next)) o) left rest
          | _ => .error (.missingText .evaluate)
        else if cs.contains (.plain .help) then .ok .help
        else take (cs.foldl (·.add Option.none) o) left rest
    | _ => take o (left ++ [arg]) rest

def parse (args : List String) : Except UsageError Command := do
  take .none [] (← sortAll args)

end FlatForth.CommandLine
