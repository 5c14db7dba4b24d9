import FlatForth.Proofs.Rereading
import FlatForth.Session
import Mathlib.Data.List.TakeWhile

/-!
A word between blanks. A text that is nothing but one word and blanks around it is that word once it
is stripped, and the word is its only field (`strip_eq_iff`, `fields_eq_singleton_iff`). So it is
the same lines that say goodbye, whether they are stripped and then folded or folded and then cut
(`saysGoodbye_iff`).
-/

namespace FlatForth

namespace Text

def Blanks (cs : List Char) : Prop := ∀ c ∈ cs, isBlank c = true

/-- `cs` is `w` with blanks before and after it. -/
def Padded (w cs : List Char) : Prop :=
  ∃ before after, Blanks before ∧ Blanks after ∧ cs = before ++ (w ++ after)

section

variable {w : List Char} (hne : w ≠ []) (hw : ∀ c ∈ w, isBlank c = false)

include hne hw

theorem dropWhile_blanks {before : List Char} (h : Blanks before) (after : List Char) :
    (before ++ (w ++ after)).dropWhile isBlank = w ++ after := by
  obtain ⟨c, rest, rfl⟩ := List.exists_cons_of_ne_nil hne
  rw [List.dropWhile_append_of_pos h, List.cons_append,
    List.dropWhile_cons_of_neg (by simp [hw c List.mem_cons_self])]

theorem stripped_iff {cs : List Char} :
    ((cs.dropWhile isBlank).reverse.dropWhile isBlank).reverse = w ↔ Padded w cs := by
  constructor
  · intro h
    -- What is dropped in front, and what is dropped behind of the rest, upside down.
    have hfront := List.takeWhile_append_dropWhile (p := isBlank) (l := cs)
    have hback := List.takeWhile_append_dropWhile (p := isBlank)
      (l := (cs.dropWhile isBlank).reverse)
    refine ⟨cs.takeWhile isBlank, ((cs.dropWhile isBlank).reverse.takeWhile isBlank).reverse,
      fun c hc => List.mem_takeWhile_imp hc,
      fun c hc => List.mem_takeWhile_imp (List.mem_reverse.1 hc), ?_⟩
    have hrest : w ++ ((cs.dropWhile isBlank).reverse.takeWhile isBlank).reverse =
        cs.dropWhile isBlank := by
      rw [← h, ← List.reverse_append, hback, List.reverse_reverse]
    rw [hrest, hfront]
  · rintro ⟨before, after, hbefore, hafter, rfl⟩
    have hreverse : (w ++ after).reverse = after.reverse ++ (w.reverse ++ []) := by simp
    have hback : Blanks after.reverse := fun c hc => hafter c (List.mem_reverse.1 hc)
    rw [dropWhile_blanks hne hw hbefore, hreverse,
      dropWhile_blanks (by simpa using hne) (fun c hc => hw c (List.mem_reverse.1 hc)) hback]
    simp

end

theorem strip_eq_iff {s w : String} (hne : w ≠ "") (hw : ∀ c ∈ w.toList, isBlank c = false) :
    strip s = w ↔ Padded w.toList s.toList := by
  have hne : w.toList ≠ [] := fun h => hne (String.toList_eq_nil_iff.1 h)
  rw [← stripped_iff hne hw, strip, ← String.toList_inj, String.toList_ofList]

/-! The same of fields. -/

def pieces (cs : List Char) : List (List Char) := (cs.splitOnP isBlank).filter (!·.isEmpty)

theorem pieces_cons_blank {c : Char} (h : isBlank c = true) (cs : List Char) :
    pieces (c :: cs) = pieces cs := by
  rw [pieces, List.splitOnP_cons_eq_if_modifyHead, if_pos h]
  rfl

theorem pieces_blanks {before : List Char} (h : Blanks before) (cs : List Char) :
    pieces (before ++ cs) = pieces cs := by
  induction before with
  | nil => rfl
  | cons c before ih =>
    rw [List.cons_append, pieces_cons_blank (h c List.mem_cons_self),
      ih fun d hd => h d (List.mem_cons_of_mem c hd)]

theorem blanks_of_pieces {cs : List Char} (h : pieces cs = []) : Blanks cs := by
  induction cs with
  | nil => exact nofun
  | cons c cs ih =>
    cases hc : isBlank c with
    | true => exact List.forall_mem_cons.2 ⟨hc, ih (pieces_cons_blank hc cs ▸ h)⟩
    | false =>
      obtain ⟨first, rest, hs⟩ := List.exists_cons_of_ne_nil (List.splitOnP_ne_nil isBlank cs)
      simp [pieces, List.splitOnP_cons_eq_if_modifyHead, hc, hs] at h

/-- A word with a blank or the end behind it is the first of the `pieces`. -/
theorem pieces_word {w rest : List Char} (hne : w ≠ []) (hw : ∀ c ∈ w, isBlank c = false)
    (hrest : ∀ c ∈ rest.head?, isBlank c = true) : pieces (w ++ rest) = w :: pieces rest := by
  cases rest with
  | nil => simp [pieces, List.splitOnP_eq_singleton hw, hne]
  | cons c rest =>
    have hc : isBlank c = true := hrest c rfl
    rw [pieces_cons_blank hc, pieces, splitOnP_append hw, List.splitOnP_cons_eq_if_modifyHead,
      if_pos hc]
    simp [pieces, hne]

theorem exists_pieces {c : Char} (h : isBlank c = false) (cs : List Char) :
    ∃ first rest, c :: cs = c :: first ++ rest ∧
      pieces (c :: cs) = (c :: first) :: pieces rest := by
  have hcut := List.takeWhile_append_dropWhile (p := (!isBlank ·)) (l := cs)
  have hword : ∀ d ∈ c :: cs.takeWhile (!isBlank ·), isBlank d = false := by
    refine List.forall_mem_cons.2 ⟨h, fun d hd => ?_⟩
    simpa using List.mem_takeWhile_imp hd
  have hrest : ∀ d ∈ (cs.dropWhile (!isBlank ·)).head?, isBlank d = true := by
    intro d hd
    have hnot := List.head?_dropWhile_not (!isBlank ·) cs
    rw [Option.mem_def.1 hd] at hnot
    simpa using hnot
  refine ⟨cs.takeWhile (!isBlank ·), cs.dropWhile (!isBlank ·), ?_, ?_⟩
  · rw [List.cons_append, hcut]
  · have hpieces := pieces_word (List.cons_ne_nil c _) hword hrest
    rwa [List.cons_append, hcut] at hpieces

theorem padded_of_pieces {w cs : List Char} (h : pieces cs = [w]) : Padded w cs := by
  induction cs with
  | nil => cases h
  | cons c cs ih =>
    cases hc : isBlank c with
    | true =>
      rw [pieces_cons_blank hc] at h
      obtain ⟨before, after, hbefore, hafter, rfl⟩ := ih h
      exact ⟨c :: before, after, List.forall_mem_cons.2 ⟨hc, hbefore⟩, hafter, rfl⟩
    | false =>
      obtain ⟨first, after, hcs, hpieces⟩ := exists_pieces hc cs
      rw [hpieces] at h
      obtain ⟨rfl, hafter⟩ := List.cons.inj h
      exact ⟨[], after, nofun, blanks_of_pieces hafter, hcs⟩

theorem pieces_eq_singleton_iff {w cs : List Char} (hne : w ≠ [])
    (hw : ∀ c ∈ w, isBlank c = false) : pieces cs = [w] ↔ Padded w cs := by
  constructor
  · exact padded_of_pieces
  · rintro ⟨before, after, hbefore, hafter, rfl⟩
    have hnil : pieces after = [] := by
      rw [← List.append_nil after, pieces_blanks hafter]
      rfl
    have hhead : ∀ c ∈ after.head?, isBlank c = true := fun c hc =>
      hafter c (List.mem_of_mem_head? hc)
    rw [pieces_blanks hbefore, pieces_word hne hw hhead, hnil]

theorem fields_eq_singleton_iff {s w : String} (hne : w ≠ "")
    (hw : ∀ c ∈ w.toList, isBlank c = false) :
    fields s = [w] ↔ Padded w.toList s.toList := by
  have hne : w.toList ≠ [] := fun h => hne (String.toList_eq_nil_iff.1 h)
  rw [← pieces_eq_singleton_iff hne hw]
  change (pieces s.toList).map String.ofList = [w] ↔ _
  rw [List.map_eq_singleton_iff]
  constructor
  · rintro ⟨cs, hcs, rfl⟩
    rw [hcs, String.toList_ofList]
  · intro h
    exact ⟨w.toList, h, String.ofList_toList⟩

theorem of_fold_eq_goodbye {w : String} (h : fold w = Session.goodbye) :
    w ≠ "" ∧ ∀ c ∈ w.toList, isBlank c = false := by
  constructor
  · rintro rfl
    exact absurd h (by decide +kernel)
  · intro c hc
    refine Bool.eq_false_iff.2 fun hb => ?_
    have hmem : c ∈ (fold w).toList := by
      rw [toList_fold]
      exact List.mem_flatMap.2 ⟨c, hc, foldChar_of_isBlank hb ▸ List.mem_singleton_self c⟩
    rw [h] at hmem
    have hletters : (Session.goodbye.toList.all (!isBlank ·)) = true := by decide +kernel
    simpa [hb] using List.all_eq_true.1 hletters c hmem

end Text

theorem Session.saysGoodbye_iff (line : String) :
    saysGoodbye line = true ↔ (source line).queue = [goodbye] := by
  have hqueue : (source line).queue = (Text.fields (typed line)).map Text.fold :=
    Text.fields_fold (typed line)
  rw [saysGoodbye, decide_eq_true_eq, hqueue, List.map_eq_singleton_iff]
  constructor
  · intro h
    obtain ⟨hne, hw⟩ := Text.of_fold_eq_goodbye h
    have hpadded := (Text.strip_eq_iff hne hw).1 rfl
    exact ⟨_, (Text.fields_eq_singleton_iff hne hw).2 hpadded, h⟩
  · rintro ⟨w, hw, h⟩
    obtain ⟨hne, hblank⟩ := Text.of_fold_eq_goodbye h
    have hpadded := (Text.fields_eq_singleton_iff hne hblank).1 hw
    rwa [(Text.strip_eq_iff hne hblank).2 hpadded]

end FlatForth
