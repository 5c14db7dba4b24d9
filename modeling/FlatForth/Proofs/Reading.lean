import FlatForth.Item
import FlatForth.Proofs.Scan

/-!
What is read from a queue. Each item of a queue is what a word of it begins (`reads_of_mem_items`),
and takes along only words that stand behind that one, in their order (`Reads.content_sublist`). So
what is run as a body has fewer words than the queue it is read from, and none that are not in it
(`words_subset_of_mem_items`).
-/

namespace FlatForth

/-- The words that open a construct. -/
abbrev Keyword.openers : List Word := [define, declare, branch, loop]

namespace Item

/-- `Reads w ws item`: the word `w`, with `ws` behind it, begins `item`. -/
inductive Reads : Word → List Word → Item → Prop
  | word {w ws} : w ∉ Keyword.openers → Reads w ws (word w)
  | define {name rest} : isNumeral name = false → (definitionMarkers.scan rest).closed = true →
      Reads Keyword.define (name :: rest) (define name (definitionMarkers.scan rest).first)
  | misdefine {ws} (why : Misdefinition) : Reads Keyword.define ws (misdefine why)
  | declare (ws : List Word) : Reads Keyword.declare ws (declare ws.head?)
  | branch (ws : List Word) : Reads Keyword.branch ws (branch (branchMarkers.scan ws).first
      ((branchMarkers.scan ws).second.getD []) (branchMarkers.scan ws).closed)
  | loop (ws : List Word) : Reads Keyword.loop ws
      (loop (if (loopMarkers.scan ws).closed then some (loopMarkers.scan ws).first else none))

theorem reads_readDefinition (ws : List Word) : Reads Keyword.define ws (readDefinition ws).1 := by
  rcases ws with _ | ⟨name, ws⟩
  · exact .misdefine _
  · cases hn : isNumeral name with
    | true => simpa [readDefinition, hn] using Reads.misdefine _
    | false =>
      cases hc : (definitionMarkers.scan ws).closed with
      | true => simpa [readDefinition, hn, hc] using Reads.define hn hc
      | false => simpa [readDefinition, hn, hc] using Reads.misdefine _

theorem reads_read (w : Word) (ws : List Word) : Reads w ws (read w ws).1 := by
  unfold read
  split
  · rename_i h
    exact h ▸ reads_readDefinition ws
  split
  · rename_i h
    exact h ▸ .declare ws
  split
  · rename_i h
    exact h ▸ .branch ws
  split
  · rename_i h
    exact h ▸ .loop ws
  · rename_i hdefine hdeclare hbranch hloop
    exact .word (by simp [hdefine, hdeclare, hbranch, hloop])

/-- The words of an item but for its opening. -/
def content : Item → List Word
  | word _ | misdefine _ => []
  | define name body => name :: body
  | declare name => name.toList
  | branch whenTrue whenFalse _ => whenTrue ++ whenFalse
  | loop body => body.getD []

/-- The words of an item, its opening first. -/
def words (item : Item) : List Word := item.opening :: item.content

theorem Reads.opening {w : Word} {ws : List Word} {item : Item} (h : Reads w ws item) :
    item.opening = w := by
  cases h with
  | word _ | define _ _ | misdefine _ | declare | branch | loop => rfl

theorem Reads.content_sublist {w : Word} {ws : List Word} {item : Item} (h : Reads w ws item) :
    item.content.Sublist ws := by
  cases h with
  | word _ | misdefine _ => exact List.nil_sublist ws
  | @define name rest _ _ => exact (definitionMarkers.first_scan_sublist rest).cons_cons name
  | declare =>
    cases ws with
    | nil => exact List.nil_sublist []
    | cons name ws => exact (List.nil_sublist ws).cons_cons name
  | branch => exact branchMarkers.parts_scan_sublist ws
  | loop =>
    cases (loopMarkers.scan ws).closed with
    | true => exact loopMarkers.first_scan_sublist ws
    | false => exact List.nil_sublist ws

end Item

theorem reads_of_mem_items {ws : List Word} {item : Item} (h : item ∈ items ws) :
    ∃ w rest, (w :: rest).Sublist ws ∧ Item.Reads w rest item := by
  induction ws using items.induct with
  | case1 => simp [items] at h
  | case2 w ws r ih =>
    rw [items] at h
    rcases List.mem_cons.1 h with rfl | h
    · exact ⟨w, ws, List.Sublist.refl _, Item.reads_read w ws⟩
    · obtain ⟨v, rest, hsub, hv⟩ := ih h
      exact ⟨v, rest, hsub.trans ((Item.read_suffix w ws).sublist.cons w), hv⟩

theorem words_subset_of_mem_items {ws : List Word} {item : Item} (h : item ∈ items ws) :
    item.words ⊆ ws := by
  obtain ⟨w, rest, hsub, hread⟩ := reads_of_mem_items h
  rw [Item.words, hread.opening]
  exact ((hread.content_sublist.cons_cons w).trans hsub).subset

end FlatForth
