import FlatForth.Run
import FlatForth.Text.Lines

/-!
A session at the prompt. Every line is run on the machine as the lines before have left it, and is
answered by one line: the stack, if there is anything on it, and how the run ended. The session
ends with its input, at a line that says goodbye, or when a run ends without an answer.
-/

namespace FlatForth

variable {σ : Type}

namespace Session

def greeting : String := "Type \"BYE\" or input an end of file (Ctrl+D) to quit."

def prompt : String := ""

def goodbye : String := "bye"

/-- A line as it was typed, without the line feed that ends it. -/
def typed (line : String) : String := String.ofList (Text.dropLineFeed line.toList)

def saysGoodbye (line : String) : Bool := Text.fold (Text.strip (typed line)) = goodbye

def source (line : String) : Source := .text (typed line)

/-- The line that answers a run, if the run has an answer and the stack can be written. -/
def response (e : Ending) : Except Failure String :=
  match e.answer with
  | .error why => .error why
  | .ok answer =>
    if e.machine.stack.isEmpty then .ok answer
    else
      match formatStack? e.machine.stack with
      | none => .error .integerTooLong
      | some shown => .ok (shown ++ answer)

/-- What one line leads to: the machine after it, and whether it ends the session. Without a
failure it does so by goodbye. -/
structure Turn (σ : Type) extends Outcome σ where
  ends : Bool

def turn (note : σ → Event → σ) (room : Nat) (line : String) (m : Machine) (s : σ) : Turn σ :=
  if saysGoodbye line then ⟨⟨m.done, s⟩, true⟩
  else
    let o := evaluate note room (source line) m s
    match response o.toEnding with
    | .error why => ⟨{ o with failure := some why }, true⟩
    | .ok answer => ⟨⟨o.machine.done, note o.seen (.printed answer)⟩, false⟩

end Session

/-- How a session ended, and the input it has not read. -/
structure Session (σ : Type) extends Outcome σ where
  unread : String

namespace Session

def converse (note : σ → Event → σ) (room : Nat) : List String → Machine → σ → Session σ
  | [], m, s => ⟨⟨m.done, s⟩, ""⟩
  | line :: rest, m, s =>
    let t := turn note room line m s
    if t.ends then ⟨t.toOutcome, String.join rest⟩ else converse note room rest t.machine t.seen

/-- `forth_repl`: greets, and answers line by line. -/
def run (note : σ → Event → σ) (room : Nat) (input : String) (m : Machine) (s : σ) : Session σ :=
  converse note room (Text.lines input) m (note s (.printed greeting))

end Session

end FlatForth
