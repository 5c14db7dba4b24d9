/-!
Blank characters, a text without the blanks around it, and the fields of a text: its longest
stretches without a blank.
-/

namespace FlatForth.Text

/-- First and last of each stretch of blanks: the spaces of every width, the line and paragraph
separators, and the control characters that move the page. -/
def blankRanges : List (Nat × Nat) :=
  [(0x0009, 0x000D), (0x001C, 0x0020), (0x0085, 0x0085), (0x00A0, 0x00A0), (0x1680, 0x1680),
    (0x2000, 0x200A), (0x2028, 0x2029), (0x202F, 0x202F), (0x205F, 0x205F), (0x3000, 0x3000)]

def isBlank (c : Char) : Bool := blankRanges.any fun r => r.1 ≤ c.toNat && c.toNat ≤ r.2

def strip (s : String) : String :=
  String.ofList ((s.toList.dropWhile isBlank).reverse.dropWhile isBlank).reverse

/-- What stands between blanks, in order; two blanks in a row have nothing between them. -/
def fields (s : String) : List String :=
  ((s.toList.splitOnP isBlank).filter (!·.isEmpty)).map String.ofList

end FlatForth.Text
