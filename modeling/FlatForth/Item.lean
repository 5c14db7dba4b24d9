import FlatForth.Block
import FlatForth.Numeral

/-!
Items: what a queue of words is made of. An opening word takes with it the construct it opens, any
other word stands for itself. Where the items end depends on the words alone, never on the machine
that runs them.
-/

namespace FlatForth

/-- Why what follows a colon defines nothing. -/
inductive Misdefinition where
  | nameless
  | number (w : Word)
  | unclosed (name : Word)
deriving DecidableEq

inductive Item where
  | word (w : Word)
  | define (name : Word) (body : List Word)
  | misdefine (why : Misdefinition)
  | declare (name : Option Word)
  | branch (whenTrue whenFalse : List Word) (closed : Bool)
  | loop (body : Option (List Word))
deriving DecidableEq

namespace Item

/-- The word an item begins with. -/
def opening : Item → Word
  | word w => w
  | define _ _ | misdefine _ => Keyword.define
  | declare _ => Keyword.declare
  | branch _ _ _ => Keyword.branch
  | loop _ => Keyword.loop

/-- A name that is missing or a numeral ends the item; any other name, even a colon, is followed by
a body that ends at the first semicolon. -/
def readDefinition : List Word → Item × List Word
  | [] => (misdefine .nameless, [])
  | name :: ws =>
    if isNumeral name then (misdefine (.number name), ws)
    else
      let b := definitionMarkers.scan ws
      (if b.closed then define name b.first else misdefine (.unclosed name), b.rest)

def readDeclaration (ws : List Word) : Item × List Word := (declare ws.head?, ws.tail)

def readBranch (ws : List Word) : Item × List Word :=
  let b := branchMarkers.scan ws
  (branch b.first (b.second.getD []) b.closed, b.rest)

def readLoop (ws : List Word) : Item × List Word :=
  let b := loopMarkers.scan ws
  (loop (if b.closed then some b.first else none), b.rest)

/-- The item that a word begins, given the words behind it, and the words left. -/
def read (w : Word) (ws : List Word) : Item × List Word :=
  if w = Keyword.define then readDefinition ws
  else if w = Keyword.declare then readDeclaration ws
  else if w = Keyword.branch then readBranch ws
  else if w = Keyword.loop then readLoop ws
  else (word w, ws)

theorem readDefinition_suffix (ws : List Word) : (readDefinition ws).2 <:+ ws := by
  cases ws with
  | nil => exact List.suffix_refl []
  | cons name ws =>
    by_cases h : isNumeral name = true
    · simp [readDefinition, h]
    · simpa [readDefinition, h] using
        (definitionMarkers.rest_scan_suffix ws).trans (List.suffix_cons name ws)

theorem read_suffix (w : Word) (ws : List Word) : (read w ws).2 <:+ ws := by
  unfold read
  split
  · exact readDefinition_suffix ws
  split
  · exact List.tail_suffix ws
  split
  · exact branchMarkers.rest_scan_suffix ws
  split
  · exact loopMarkers.rest_scan_suffix ws
  · exact List.suffix_refl ws

theorem opening_readDefinition (ws : List Word) :
    (readDefinition ws).1.opening = Keyword.define := by
  cases ws with
  | nil => rfl
  | cons name ws =>
    by_cases h : isNumeral name = true <;>
      by_cases hc : (definitionMarkers.scan ws).closed = true <;>
        simp [readDefinition, h, hc, opening]

theorem opening_read (w : Word) (ws : List Word) : (read w ws).1.opening = w := by
  unfold read
  split
  · rename_i h
    exact (opening_readDefinition ws).trans h.symm
  split
  · rename_i h
    exact h.symm
  split
  · rename_i h
    exact h.symm
  split
  · rename_i h
    exact h.symm
  · rfl

end Item

/-- The items of a queue, front to back. -/
def items : List Word → List Item
  | [] => []
  | w :: ws =>
    let r := Item.read w ws
    r.1 :: items r.2
termination_by ws => ws.length
decreasing_by exact Nat.lt_succ_of_le (Item.read_suffix w ws).length_le

end FlatForth
