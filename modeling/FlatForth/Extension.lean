import FlatForth.Machine

/-!
Samples of what a host may add to a machine: functions of none to four cells that give back nothing,
an integer or a row of cells, each made to take cells of any kind or, if it is `numeric`, to have
the machine refuse all but integers. They are there to be installed and called; no machine has them
by itself. Those that cannot fail are made by `StackFunction.ofHost`.
-/

namespace FlatForth.Extension

/-- Brings the third cell to the top. -/
def rotate (numeric : Bool) : StackFunction :=
  .ofHost 3 numeric fun
    | [c, b, a] => .row [b, c, a]
    | args => .row args

/-- Puts the topmost cells back upside down. -/
def reverse (arity : Nat) (numeric : Bool) : StackFunction := .ofHost arity numeric .row

def discard (arity : Nat) (numeric : Bool) : StackFunction :=
  .ofHost arity numeric fun _ => .nothing

def constant (result : Returned) (numeric : Bool) : StackFunction :=
  .ofHost 0 numeric fun _ => result

/-- Gives its cell back. A reference passes for a row of one text then, and a text for the row of
its characters. -/
def identity (numeric : Bool) : StackFunction :=
  .ofHost 1 numeric fun
    | [.int n] => .integer n
    | [.ref name] => .row [.text name]
    | [.text t] => .row (t.toList.map fun c => .text c.toString)
    | args => .row args

/-! Functions of integers fail on other cells, if they are not `numeric`. -/

def integer : Cell → Except Fault Int
  | .int n => .ok n
  | c => .error (.notNumber c)

def onIntegers (f : List Int → List Int) (args : List Cell) : Except Fault (List Cell) := do
  let ns ← args.mapM integer
  return (f ns).map Cell.int

def negate (numeric : Bool) : StackFunction := ⟨1, numeric, onIntegers (·.map (-·))⟩

/-- Joins digits to the base ten into a number, the highest digit being on top. -/
def join (arity : Nat) (numeric : Bool) : StackFunction :=
  ⟨arity, numeric, onIntegers fun ns => [ns.foldl (fun m n => 10 * m + n) 0]⟩

/-- Floor division, which looks at the divisor before it looks at the dividend. -/
def divide (numeric : Bool) : StackFunction :=
  ⟨2, numeric, fun
    | .int 0 :: _ => .error .zeroDivisor
    | args => onIntegers quotient args⟩
where
  quotient : List Int → List Int
    | [b, a] => [a.fdiv b]
    | ns => ns

end FlatForth.Extension
