import FlatForth.Item
import FlatForth.Cell

/-!
What can go wrong. A fault is an error of the program that runs, and is answered at the prompt; the
other failures are limits of the machine itself, and end the session.
-/

namespace FlatForth

inductive Fault where
  | underflow
  | undefined (w : Word)
  | misdefinition (why : Misdefinition)
  | namelessVariable
  | unclosedLoop
  | outsideLoop
  | outsideNestedLoop
  | notVariable (c : Cell)
  | notNumber (c : Cell)
  | notStorable (value : Cell) (name : Word)
  | zeroDivisor
deriving DecidableEq

inductive Failure where
  | fault (f : Fault)
  | numeralTooLong (digits : Nat)
  | integerTooLong
  | nestedTooDeep
deriving DecidableEq

namespace Fault

/-- The name by which the command line reports a fault. -/
def name : Fault → String
  | underflow => "StackUnderflow"
  | undefined _ => "UnknownWord"
  | misdefinition _ => "MalformedDefinition"
  | namelessVariable => "MalformedDeclaration"
  | unclosedLoop => "MalformedLoop"
  | outsideLoop | outsideNestedLoop => "LoopContextMissing"
  | notVariable _ => "UndeclaredVariable"
  | notNumber _ | notStorable _ _ => "CellTypeError"
  | zeroDivisor => "DivisionByZero"

/-- A cell inside a message. A machine never words a fault around an integer too long to be
written, it fails for that reason instead. -/
def shown (c : Cell) : String := c.text?.getD ""

def message : Fault → String
  | underflow => "stack underflow"
  | undefined w => "undefined word: " ++ w
  | misdefinition .nameless => "no name given"
  | misdefinition (.number w) => "cannot redefine number " ++ w
  | misdefinition (.unclosed name) => "unclosed " ++ Keyword.define ++ " " ++ name
  | namelessVariable => "no variable name given"
  | unclosedLoop => "unclosed " ++ Keyword.loop
  | outsideLoop => "I outside of loop"
  | outsideNestedLoop => "J outside of nested loop"
  | notVariable c => "not a variable: " ++ shown c
  | notNumber c => "expected a number, got variable " ++ shown c
  | notStorable value name => "cannot store variable " ++ shown value ++ " in " ++ name
  | zeroDivisor => "division by zero"

end Fault

namespace Failure

def limitMessage (detail : String) : String :=
  "Exceeds the limit (" ++ Numeral.digitLimit.repr ++ " digits) for integer string conversion" ++
    detail ++ "; use sys.set_int_max_str_digits() to increase the limit"

/-- Nesting too deep has nothing more to say. -/
def message? : Failure → Option String
  | fault f => some f.message
  | numeralTooLong digits => some (limitMessage (": value has " ++ digits.repr ++ " digits"))
  | integerTooLong => some (limitMessage "")
  | nestedTooDeep => none

end Failure

end FlatForth
