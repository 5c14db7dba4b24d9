import FlatForth.Numeral

/-!
Stack cells, and the printed stack.
-/

namespace FlatForth

/-- A reference names a variable, which need not exist. Bare texts come only from outside. -/
inductive Cell where
  | int (n : Int)
  | ref (name : Word)
  | text (t : String)
deriving DecidableEq

namespace Cell

def isInt : Cell → Bool
  | int _ => true
  | _ => false

/-- The text of a cell, unless it is an integer too long to be written. -/
def text? : Cell → Option String
  | int n => integerText? n
  | ref name => some name
  | text t => some t

end Cell

/-- `format_stack`: a stack is kept top first and printed top last, its cells a space apart. -/
def formatStack? (stack : List Cell) : Option String :=
  (stack.reverse.mapM Cell.text?).map (" ".intercalate ·)

end FlatForth
