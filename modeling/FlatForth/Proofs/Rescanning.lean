import FlatForth.Queue
import FlatForth.Proofs.Folding
import FlatForth.Proofs.Scan

/-!
Blocks written out again. What a scan puts into the parts of a closed block is in balance, part by
part, also where dropped dividers have brought pieces together. So the parts, with one divider
between them and a closer behind, are cut into the same parts again, and a part taken for itself
into itself, whatever comes behind it (`block_rescanned`). No two of the markers need to differ.
-/

namespace FlatForth

namespace Markers

variable {k : Markers}

/-- The parts with the divider between them, the closer, and the words `after` it. -/
def render (k : Markers) (parts : List (List Word)) (after : List Word) : List Word :=
  k.divider.toList.intercalate parts ++ k.closer :: after

theorem render_whole (part after : List Word) :
    k.render [part] after = part ++ k.closer :: after := by
  simp [render, List.intercalate]

theorem render_parted {d : Word} (hd : k.divider = some d) (first second after : List Word) :
    k.render [first, second] after = first ++ d :: (second ++ k.closer :: after) := by
  simp [render, List.intercalate, hd]

/-- A scan keeps `ws`, and `depth` more blocks are open before them than after them. -/
def Closing (k : Markers) (depth : Nat) (ws : List Word) : Prop :=
  ∀ base rest, k.scanFrom (base + depth) (ws ++ rest) = (k.scanFrom base rest).keepAll ws

theorem depthAfter_add {depth : Nat} {w : Word} (hw : ¬(depth = 0 ∧ w = k.closer)) (base : Nat) :
    k.depthAfter (base + depth) w = base + k.depthAfter depth w := by
  unfold depthAfter
  split
  · rfl
  · split
    · rename_i hc
      have hdepth : depth ≠ 0 := fun hdepth => hw ⟨hdepth, hc⟩
      omega
    · rfl

theorem Closing.cons {depth : Nat} {w : Word} {ws : List Word}
    (hw : ¬(depth = 0 ∧ w = k.closer)) (hd : ¬(depth = 0 ∧ some w = k.divider))
    (h : k.Closing (k.depthAfter depth w) ws) : k.Closing depth (w :: ws) := by
  intro base rest
  have inner {p : Prop} (hp : ¬(depth = 0 ∧ p)) : ¬(base + depth = 0 ∧ p) :=
    fun hbase => hp ⟨(Nat.add_eq_zero_iff.1 hbase.1).2, hbase.2⟩
  rw [List.cons_append, scanFrom, if_neg (inner hw), if_neg (inner hd), depthAfter_add hw, h]
  rfl

/-- In a closed scan the first part closes what is open, and the second is in balance. -/
theorem closing_of_closed {depth : Nat} {ws : List Word}
    (h : (k.scanFrom depth ws).closed = true) :
    k.Closing depth (k.scanFrom depth ws).first ∧
      k.Balanced ((k.scanFrom depth ws).second.getD []) := by
  induction ws generalizing depth with
  | nil => simp [scanFrom] at h
  | cons w ws ih =>
    unfold scanFrom at h ⊢
    by_cases hw : depth = 0 ∧ w = k.closer
    · obtain ⟨rfl, rfl⟩ := hw
      simp only [and_self, if_true]
      exact ⟨balanced_nil, balanced_nil⟩
    · rw [if_neg hw] at h ⊢
      by_cases hd : depth = 0 ∧ some w = k.divider
      · rw [if_pos hd] at h ⊢
        obtain ⟨rfl, -⟩ := hd
        obtain ⟨hfirst, hsecond⟩ := ih h
        exact ⟨balanced_nil, balanced_append hfirst hsecond⟩
      · rw [if_neg hd] at h ⊢
        obtain ⟨hfirst, hsecond⟩ := ih h
        exact ⟨hfirst.cons hw hd, hsecond⟩

theorem divider_of_second {depth : Nat} {ws second : List Word}
    (h : (k.scanFrom depth ws).second = some second) :
    ∃ d ∈ ws, k.divider = some d ∧ d ≠ k.closer := by
  induction ws generalizing depth second with
  | nil => simp [scanFrom] at h
  | cons w ws ih =>
    unfold scanFrom at h
    by_cases hw : depth = 0 ∧ w = k.closer
    · rw [if_pos hw] at h
      cases h
    · rw [if_neg hw] at h
      by_cases hd : depth = 0 ∧ some w = k.divider
      · have hc : w ≠ k.closer := fun hc => hw ⟨hd.1, hc⟩
        exact ⟨w, List.mem_cons_self, hd.2.symm, hc⟩
      · rw [if_neg hd] at h
        obtain ⟨d, hmem, hdivider⟩ := ih h
        exact ⟨d, List.mem_cons_of_mem w hmem, hdivider⟩

/-- One part in balance, or two with a divider that is not the closer, all of words of `queue`. -/
inductive Separable (k : Markers) (queue : List Word) : List (List Word) → Prop
  | whole {part} : part ⊆ queue → k.Balanced part → k.Separable queue [part]
  | parted {first second d} : first ⊆ queue → k.Balanced first → second ⊆ queue →
      k.Balanced second → d ∈ queue → k.divider = some d → d ≠ k.closer →
      k.Separable queue [first, second]

theorem separable_parts {queue : List Word} (h : (k.scan queue).closed = true) :
    k.Separable queue (k.scan queue).parts := by
  have hwords := (k.parts_scan_sublist queue).subset
  obtain ⟨hfirst, hsecond⟩ : k.Balanced (k.scan queue).first ∧
      k.Balanced ((k.scan queue).second.getD []) := closing_of_closed h
  have hsub : (k.scan queue).first ⊆ queue := List.Subset.trans (List.subset_append_left _ _) hwords
  have hsub' : (k.scan queue).second.getD [] ⊆ queue :=
    List.Subset.trans (List.subset_append_right _ _) hwords
  cases hs : (k.scan queue).second with
  | none =>
    have hparts : (k.scan queue).parts = [(k.scan queue).first] := by simp [Block.parts, hs]
    rw [hparts]
    exact .whole hsub hfirst
  | some second =>
    have hparts : (k.scan queue).parts = [(k.scan queue).first, second] := by
      simp [Block.parts, hs]
    obtain ⟨d, hmem, hdivider, hcloser⟩ := divider_of_second hs
    rw [hs] at hsecond hsub'
    rw [hparts]
    exact .parted hsub hfirst hsub' hsecond hmem hdivider hcloser

namespace Separable

variable {queue : List Word} {parts : List (List Word)} (h : k.Separable queue parts)

include h

theorem length_parts : parts.length = 1 ∨ parts.length = 2 ∧ ∃ d, k.divider = some d := by
  cases h with
  | whole => exact .inl rfl
  | parted _ _ _ _ _ hd _ => exact .inr ⟨rfl, _, hd⟩

theorem part {part : List Word} (hpart : part ∈ parts) : k.Separable queue [part] := by
  cases h with
  | whole hsub hbalanced =>
    rw [List.mem_singleton.1 hpart]
    exact .whole hsub hbalanced
  | parted hsub hfirst hsub' hsecond _ _ _ =>
    rcases List.mem_cons.1 hpart with rfl | hpart
    · exact .whole hsub hfirst
    · rw [List.mem_singleton.1 hpart]
      exact .whole hsub' hsecond

theorem serve_render (after : List Word) :
    (Request.block k).serve (k.render parts after) = (.block parts true, after) := by
  cases h with
  | whole _ hbalanced => simp [Request.serve, render_whole, scan_balanced hbalanced, Block.parts]
  | parted _ hfirst _ hsecond _ hd hc =>
    simp [Request.serve, render_parted hd, scan_divided hfirst hsecond hd hc, Block.parts]

theorem render_subset (hc : k.closer ∈ queue) : k.render parts [] ⊆ queue := by
  cases h with
  | whole hsub _ =>
    rw [render_whole]
    exact List.append_subset.2 ⟨hsub, List.cons_subset.2 ⟨hc, List.nil_subset queue⟩⟩
  | parted hsub _ hsub' _ hmem hd _ =>
    rw [render_parted hd]
    exact List.append_subset.2 ⟨hsub, List.cons_subset.2 ⟨hmem,
      List.append_subset.2 ⟨hsub', List.cons_subset.2 ⟨hc, List.nil_subset queue⟩⟩⟩⟩

end Separable

end Markers

/-- Let a queue be served a closed block with these parts, of which there are one or two. All of
them, rendered with the divider in between and the closer behind, or any one rendered for itself,
are served as the same parts again, and leave whatever stands `after` them. If the words of the
queue are folded, what is rendered is also the queue of itself as a source. -/
theorem block_rescanned (k : Markers) {queue rest : List Word} {parts : List (List Word)}
    (h : (Request.block k).serve queue = (.block parts true, rest)) :
    (parts.length = 1 ∨ parts.length = 2 ∧ ∃ d, k.divider = some d) ∧
    ∀ taken, (taken = parts ∨ ∃ part ∈ parts, taken = [part]) → ∀ after : List Word,
      (Request.block k).serve (k.render taken after) = (.block taken true, after) ∧
      ((∀ w ∈ queue, w.Folded) →
        (Source.words (k.render taken after)).queue =
          k.render taken (Source.words after).queue) := by
  obtain ⟨hanswer, -⟩ := Prod.mk.inj h
  obtain ⟨rfl, hclosed⟩ := Answer.block.inj hanswer
  have hparts := Markers.separable_parts hclosed
  refine ⟨hparts.length_parts, fun taken ht after => ?_⟩
  have htaken : k.Separable queue taken := by
    rcases ht with rfl | ⟨part, hpart, rfl⟩
    · exact hparts
    · exact hparts.part hpart
  refine ⟨htaken.serve_render after, fun hfolded => ?_⟩
  have hsub := htaken.render_subset (k.closer_mem_of_closed hclosed)
  have hrender (after : List Word) : k.render taken after = k.render taken [] ++ after := by
    simp [Markers.render]
  have hkept : (Source.words (k.render taken [])).queue = k.render taken [] :=
    queue_words_folded fun w hw => hfolded w (hsub hw)
  calc (Source.words (k.render taken after)).queue
      = (Source.words (k.render taken [])).queue ++ (Source.words after).queue := by
        rw [hrender]
        exact List.map_append
    _ = k.render taken (Source.words after).queue := by rw [hkept, ← hrender]

/-- The second divider at depth zero is dropped, which glues the fork to the word before it. The
part for itself is cut out again where nothing comes behind it, and both of them are read again
before a word in capitals. -/
theorem block_rescanned_glued :
    (Request.block branchMarkers).serve ["a", "else", "b", "else", "if", "c", "else", "d", "then",
        "then", "e"] =
      (.block [["a"], ["b", "if", "c", "else", "d", "then"]] true, ["e"]) ∧
    (Request.block branchMarkers).serve (branchMarkers.render
        [["b", "if", "c", "else", "d", "then"]] []) =
      (.block [["b", "if", "c", "else", "d", "then"]] true, []) ∧
    (Source.words (branchMarkers.render [["a"], ["b", "if", "c", "else", "d", "then"]]
        ["THEN"])).queue =
      branchMarkers.render [["a"], ["b", "if", "c", "else", "d", "then"]] ["then"] := by
  have h : (Request.block branchMarkers).serve ["a", "else", "b", "else", "if", "c", "else", "d",
        "then", "then", "e"] =
      (.block [["a"], ["b", "if", "c", "else", "d", "then"]] true, ["e"]) := by decide
  have hfolded : ∀ w ∈ ["a", "else", "b", "else", "if", "c", "else", "d", "then", "then", "e"],
      Word.Folded w := by decide +kernel
  have hlast : (Source.words ["THEN"]).queue = ["then"] := by decide +kernel
  obtain ⟨-, hrescanned⟩ := block_rescanned branchMarkers h
  refine ⟨h, (hrescanned _ (.inr ⟨_, .tail _ (.head _), rfl⟩) []).1, ?_⟩
  rw [(hrescanned _ (.inl rfl) ["THEN"]).2 hfolded, hlast]

end FlatForth
