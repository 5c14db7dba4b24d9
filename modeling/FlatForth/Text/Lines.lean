/-!
Lines of a text, each with the line feed that ends it, so that the lines of a text make up the text
again. No other character ends a line, and the last line may lack its line feed.
-/

namespace FlatForth.Text

def splitLines : List Char → List (List Char)
  | [] => []
  | c :: cs =>
    if c = '\n' then [c] :: splitLines cs
    else
      match splitLines cs with
      | [] => [[c]]
      | l :: ls => (c :: l) :: ls

def lines (s : String) : List String := (splitLines s.toList).map String.ofList

def dropLineFeed (cs : List Char) : List Char :=
  if cs.getLast? = some '\n' then cs.dropLast else cs

theorem flatten_splitLines (cs : List Char) : (splitLines cs).flatten = cs := by
  induction cs with
  | nil => rfl
  | cons c cs ih =>
    unfold splitLines
    split
    · rw [List.flatten_cons, ih, List.singleton_append]
    · split
      · rename_i h
        rw [← ih, h]
        rfl
      · rename_i l ls h
        rw [List.flatten_cons, List.cons_append, ← List.flatten_cons, ← h, ih]

theorem join_lines (s : String) : String.join (lines s) = s := by
  rw [← String.toList_inj, String.toList_join, lines, List.flatMap_map]
  simp only [String.toList_ofList, List.flatMap_id']
  exact flatten_splitLines s.toList

end FlatForth.Text
