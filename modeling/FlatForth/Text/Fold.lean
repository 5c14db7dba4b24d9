import FlatForth.Text.FoldTable

/-!
Case folding: each character is replaced by its folded form, one to three characters, whatever
stands around it. So folding distributes over concatenation.
-/

namespace FlatForth.Text

def CaseRun.covers (r : CaseRun) (n : Nat) : Bool :=
  r.first ≤ n && n ≤ r.last && (n - r.first) % r.step == 0

/-- The code points that a code point folds to: itself, unless a table names it. -/
def foldCode (n : Nat) : List Nat :=
  match expansions.lookup n with
  | some ms => ms
  | none =>
    match caseRuns.find? (·.covers n) with
    | some r => [r.image + (n - r.first)]
    | none => [n]

def foldChar (c : Char) : List Char := (foldCode c.toNat).map Char.ofNat

def fold (s : String) : String := String.ofList (s.toList.flatMap foldChar)

theorem toList_fold (s : String) : (fold s).toList = s.toList.flatMap foldChar :=
  String.toList_ofList

theorem fold_append (s t : String) : fold (s ++ t) = fold s ++ fold t := by
  simp [fold]

end FlatForth.Text
