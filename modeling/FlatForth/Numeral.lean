import FlatForth.Text.Digit
import FlatForth.Text.Lines
import FlatForth.Word

/-!
Numerals. A word is one when it has an optional minus sign, at least one decimal digit, and after
the digits nothing but at most one line feed. Its value is exact, and is only worked out up to a
fixed number of digits; the same number bounds the integers that can be written as text.
-/

namespace FlatForth

structure Numeral where
  negative : Bool
  digits : List Nat

namespace Numeral

/-- The most digits that are turned into an integer, or written for one. -/
def digitLimit : Nat := 4300

def splitSign : List Char → Bool × List Char
  | '-' :: cs => (true, cs)
  | cs => (false, cs)

def ofWord? (w : Word) : Option Numeral :=
  let (negative, cs) := splitSign (Text.dropLineFeed w.toList)
  if cs.isEmpty then none else (cs.mapM Text.digit?).map (⟨negative, ·⟩)

def magnitude (n : Numeral) : Nat := n.digits.foldl (fun m d => 10 * m + d) 0

def toInt (n : Numeral) : Int := if n.negative then -(n.magnitude : Int) else n.magnitude

/-- The value, unless the numeral has too many digits. Leading zeros count, the sign does not. -/
def value? (n : Numeral) : Option Int :=
  if n.digits.length ≤ digitLimit then some n.toInt else none

end Numeral

/-- `is_number`. -/
def isNumeral (w : Word) : Bool := (Numeral.ofWord? w).isSome

/-- The decimal text of an integer, unless it has too many digits. -/
def integerText? (n : Int) : Option String :=
  if n.natAbs.repr.length ≤ Numeral.digitLimit then some n.repr else none

end FlatForth
