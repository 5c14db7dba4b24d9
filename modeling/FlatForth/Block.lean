import FlatForth.Word

/-!
Blocks: the words up to a closing word, cut out of a queue. Openers and closers inside are counted
and kept, so a block within the block stays whole; a divider parts the block only where nothing is
open.
-/

namespace FlatForth

structure Markers where
  closer : Word
  opener : Option Word
  divider : Option Word

/-- A block and the words after it. There is a second part once a divider was met; further dividers
are dropped and part nothing. A block whose closer is missing takes the whole queue. -/
structure Block where
  first : List Word
  second : Option (List Word)
  closed : Bool
  rest : List Word
deriving DecidableEq

namespace Block

def parts (b : Block) : List (List Word) := b.first :: b.second.toList

def keep (w : Word) (b : Block) : Block := { b with first := w :: b.first }

/-- A divider before the block: both parts so far are the second part. -/
def divide (b : Block) : Block :=
  { b with first := [], second := some (b.first ++ b.second.getD []) }

end Block

namespace Markers

/-- How many blocks are open after a word that neither ends nor parts the block. -/
def depthAfter (k : Markers) (depth : Nat) (w : Word) : Nat :=
  if some w = k.opener then depth + 1 else if w = k.closer then depth - 1 else depth

/-- The loop of `parse_block`, with so many blocks open inside the one that is cut. -/
def scanFrom (k : Markers) : Nat → List Word → Block
  | _, [] => ⟨[], none, false, []⟩
  | depth, w :: ws =>
    if depth = 0 ∧ w = k.closer then ⟨[], none, true, ws⟩
    else if depth = 0 ∧ some w = k.divider then (k.scanFrom 0 ws).divide
    else (k.scanFrom (k.depthAfter depth w) ws).keep w

/-- `parse_block`: the block that a queue begins with, whose opening word is already gone. -/
def scan (k : Markers) (ws : List Word) : Block := k.scanFrom 0 ws

theorem rest_scanFrom_suffix (k : Markers) (depth : Nat) (ws : List Word) :
    (k.scanFrom depth ws).rest <:+ ws := by
  induction ws generalizing depth with
  | nil => simp [scanFrom]
  | cons w ws ih =>
    unfold scanFrom
    split
    · exact List.suffix_cons w ws
    · split
      · exact (ih 0).trans (List.suffix_cons w ws)
      · exact (ih _).trans (List.suffix_cons w ws)

theorem rest_scan_suffix (k : Markers) (ws : List Word) : (k.scan ws).rest <:+ ws :=
  k.rest_scanFrom_suffix 0 ws

theorem rest_scanFrom_of_not_closed (k : Markers) (depth : Nat) (ws : List Word)
    (h : (k.scanFrom depth ws).closed = false) : (k.scanFrom depth ws).rest = [] := by
  induction ws generalizing depth with
  | nil => rfl
  | cons w ws ih =>
    unfold scanFrom at h ⊢
    split at h
    · simp at h
    · rename_i hc
      rw [if_neg hc]
      split at h
      · rename_i hd
        rw [if_pos hd]
        exact ih 0 h
      · rename_i hd
        rw [if_neg hd]
        exact ih _ h

end Markers

/-! The three constructs that are cut as blocks. -/

def definitionMarkers : Markers := ⟨Keyword.endDefine, none, none⟩
def branchMarkers : Markers := ⟨Keyword.endBranch, some Keyword.branch, some Keyword.otherwise⟩
def loopMarkers : Markers := ⟨Keyword.endLoop, some Keyword.loop, none⟩

end FlatForth
