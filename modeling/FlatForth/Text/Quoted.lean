import FlatForth.Text.GraphicTable

/-!
Quoted text: single quotes around it, or double ones when it holds a single quote and no double
one. The quote in use and the backslash are escaped, and so is whatever leaves no mark.
-/

namespace FlatForth.Text

def isGraphic (c : Char) : Bool := graphicRanges.any fun r => r.1 ≤ c.toNat && c.toNat ≤ r.2

def hexadecimal (width n : Nat) : List Char :=
  let ds := Nat.toDigits 16 n
  List.replicate (width - ds.length) '0' ++ ds

/-- The escape of a character by its number, as short as the number allows. -/
def escapeCode (n : Nat) : List Char :=
  if n < 0x100 then '\\' :: 'x' :: hexadecimal 2 n
  else if n < 0x10000 then '\\' :: 'u' :: hexadecimal 4 n
  else '\\' :: 'U' :: hexadecimal 8 n

def escapeChar (mark c : Char) : List Char :=
  if c = mark ∨ c = '\\' then ['\\', c]
  else if c = '\t' then ['\\', 't']
  else if c = '\n' then ['\\', 'n']
  else if c = '\r' then ['\\', 'r']
  else if isGraphic c then [c]
  else escapeCode c.toNat

def quoteMark (s : String) : Char :=
  if s.toList.contains '\'' && !s.toList.contains '"' then '"' else '\''

def quote (s : String) : String :=
  let mark := quoteMark s
  String.ofList (mark :: (s.toList.flatMap (escapeChar mark) ++ [mark]))

end FlatForth.Text
