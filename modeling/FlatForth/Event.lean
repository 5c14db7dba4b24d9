import FlatForth.Cell
import FlatForth.Text.Quoted

/-!
What a run can tell whoever watches it, and how that reads as a line of text.
-/

namespace FlatForth

inductive Event where
  | printed (line : String)
  | probed (loops : List Int)
  | evaluating (source : Source)
  | defined (name : Word) (body : List Word)
  | declared (name : Word)
  | looping (start limit : Int) (body : List Word)
  | interpreting (w : Word) (stack : List Cell)
  | unclosedBranch
deriving DecidableEq

def Source.shown : Source → String
  | .text t => t
  | .words ws => "[" ++ ", ".intercalate (ws.map Text.quote) ++ "]"

namespace Cell

/-- A cell as a listing writes it. It cannot write an integer that is too long. -/
def listed? : Cell → Option String
  | int n => integerText? n
  | ref name => some ("VariableRef(name=" ++ Text.quote name ++ ")")
  | text t => some (Text.quote t)

end Cell

def listStack? (stack : List Cell) : Option String :=
  (stack.reverse.mapM Cell.listed?).map fun cells => "[" ++ ", ".intercalate cells ++ "]"

namespace Event

/-- How much has to be asked for before an event is shown: what is printed always is, the course of
a run on demand, and its every step on further demand. -/
def level : Event → Nat
  | printed _ | probed _ => 0
  | evaluating _ | defined _ _ | declared _ | looping _ _ _ => 1
  | interpreting _ _ | unclosedBranch => 2

/-- The line for an event. There is none for one that shows only to programs, nor for one with an
integer too long to be written. -/
def line? : Event → Option String
  | printed line => some line
  | probed _ => none
  | evaluating source => some ("evaluating: " ++ source.shown)
  | defined name body => some ("defined " ++ name ++ " as " ++ " ".intercalate body)
  | declared name => some ("declared variable " ++ name)
  | looping start limit body => do
    let start ← integerText? start
    let limit ← integerText? limit
    return "looping from " ++ start ++ " up to " ++ limit ++ " over " ++ " ".intercalate body
  | interpreting w stack => do
    let stack ← listStack? stack
    return "interpreting " ++ Text.quote w ++ " with stack " ++ stack
  | unclosedBranch => some ("unclosed " ++ Keyword.branch ++ " ran to the end of input")

end Event

end FlatForth
