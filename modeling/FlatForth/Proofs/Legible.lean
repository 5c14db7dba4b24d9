import FlatForth.Proofs.Folding
import FlatForth.Proofs.SelfContained

/-!
Words that are read as they are written. However they are given, as a list or a space apart in a
text, the queue has just these words (`queue_words_legible`, `queue_text_legible`).
-/

namespace FlatForth

structure Word.Legible (w : Word) : Prop where
  ne_empty : w ≠ ""
  not_blank : ∀ c ∈ w.toList, Text.isBlank c = false
  folded : Text.fold w = w

instance (w : Word) : Decidable w.Legible :=
  decidable_of_iff (w ≠ "" ∧ (w.toList.all (!Text.isBlank ·)) = true ∧ Text.fold w = w)
    ⟨fun h => ⟨h.1, by simpa using h.2.1, h.2.2⟩,
      fun h => ⟨h.ne_empty, by simpa using h.not_blank, h.folded⟩⟩

theorem Text.fields_of_not_blank {s : String} (hne : s ≠ "")
    (h : ∀ c ∈ s.toList, isBlank c = false) : fields s = [s] := by
  have hs : s.toList ≠ [] := fun hs => hne (String.toList_eq_nil_iff.1 hs)
  rw [fields, List.splitOnP_eq_singleton h]
  simp [hs]

theorem queue_words_legible {ws : List Word} (h : ∀ w ∈ ws, w.Legible) :
    (Source.words ws).queue = ws := queue_words_folded fun w hw => (h w hw).folded

theorem queue_text_legible {ws : List Word} (h : ∀ w ∈ ws, w.Legible) :
    (Source.text (" ".intercalate ws)).queue = ws := by
  induction ws with
  | nil => decide +kernel
  | cons w ws ih =>
    obtain ⟨hne, hblank, hfold⟩ := h w List.mem_cons_self
    have hw : (Source.text w).queue = [w] := by
      rw [Source.queue, hfold, Text.fields_of_not_blank hne hblank]
    cases ws with
    | nil => simpa using hw
    | cons v ws =>
      have hjoin : " ".intercalate (w :: v :: ws) = w ++ " " ++ " ".intercalate (v :: ws) := by
        simp
      rw [hjoin, queue_text_append, hw, ih fun u hu => h u (List.mem_cons_of_mem w hu)]
      rfl

end FlatForth
