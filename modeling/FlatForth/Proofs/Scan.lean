import FlatForth.Block

/-!
Scanning words that are known in part. A block that is closed is the same whatever words come after
it (`scan_append`), and words in balance, which open and close nothing outside themselves, are kept
as they stand at every depth (`Markers.Balanced`). Of words that are not known, a block has at least
their order, and adds none (`scanFrom_sublist`).
-/

namespace FlatForth

def Block.keepAll (ws : List Word) (b : Block) : Block := { b with first := ws ++ b.first }

namespace Markers

variable (k : Markers)

theorem scanFrom_append {depth : Nat} {ws : List Word} (h : (k.scanFrom depth ws).closed = true)
    (after : List Word) :
    k.scanFrom depth (ws ++ after) =
      { k.scanFrom depth ws with rest := (k.scanFrom depth ws).rest ++ after } := by
  induction ws generalizing depth with
  | nil => simp [scanFrom] at h
  | cons w ws ih =>
    rw [List.cons_append]
    unfold scanFrom at h ⊢
    by_cases hc : depth = 0 ∧ w = k.closer
    · simp only [hc, and_self, if_true]
    · rw [if_neg hc] at h ⊢
      by_cases hd : depth = 0 ∧ some w = k.divider
      · rw [if_pos hd] at h
        rw [if_neg hc, if_pos hd, if_pos hd, ih h]
        rfl
      · rw [if_neg hd] at h
        rw [if_neg hc, if_neg hd, if_neg hd, ih h]
        rfl

theorem scan_append {ws : List Word} (h : (k.scan ws).closed = true) (after : List Word) :
    k.scan (ws ++ after) = { k.scan ws with rest := (k.scan ws).rest ++ after } :=
  k.scanFrom_append h after

theorem scanFrom_sublist (depth : Nat) (ws : List Word) :
    ((k.scanFrom depth ws).first ++ ((k.scanFrom depth ws).second.getD [] ++
      (k.scanFrom depth ws).rest)).Sublist ws := by
  induction ws generalizing depth with
  | nil => exact List.nil_sublist []
  | cons w ws ih =>
    unfold scanFrom
    split
    · exact List.sublist_cons_self w ws
    · split
      · refine List.Sublist.trans ?_ (List.sublist_cons_self w ws)
        simpa [Block.divide] using ih 0
      · exact (ih _).cons_cons w

theorem parts_scan_sublist (ws : List Word) :
    ((k.scan ws).first ++ (k.scan ws).second.getD []).Sublist ws := by
  have h := k.scanFrom_sublist 0 ws
  rw [← List.append_assoc] at h
  exact (List.sublist_append_left _ _).trans h

theorem first_scan_sublist (ws : List Word) : (k.scan ws).first.Sublist ws :=
  (List.sublist_append_left _ _).trans (k.parts_scan_sublist ws)

theorem closer_mem_of_closed {depth : Nat} {ws : List Word}
    (h : (k.scanFrom depth ws).closed = true) : k.closer ∈ ws := by
  induction ws generalizing depth with
  | nil => simp [scanFrom] at h
  | cons w ws ih =>
    unfold scanFrom at h
    split at h
    · rename_i hc
      exact hc.2 ▸ List.mem_cons_self
    · split at h
      · exact List.mem_cons_of_mem w (ih h)
      · exact List.mem_cons_of_mem w (ih h)

/-- Without an opener, the first closer ends the block. -/
theorem closer_not_mem_first (ho : k.opener = none) (ws : List Word) :
    k.closer ∉ (k.scan ws).first := by
  unfold scan
  induction ws with
  | nil => exact List.not_mem_nil
  | cons w ws ih =>
    unfold scanFrom
    split
    · exact List.not_mem_nil
    · rename_i hc
      have hw : w ≠ k.closer := fun h => hc ⟨rfl, h⟩
      split
      · exact List.not_mem_nil
      · have hdepth : k.depthAfter 0 w = 0 := by simp [depthAfter, ho, hw]
        rw [hdepth]
        exact fun h => (List.mem_cons.1 h).elim (fun h => hw h.symm) ih

/-- The word is no marker. -/
structure Plain (w : Word) : Prop where
  not_closer : w ≠ k.closer
  not_opener : some w ≠ k.opener
  not_divider : some w ≠ k.divider

instance (w : Word) : Decidable (k.Plain w) :=
  decidable_of_iff (w ≠ k.closer ∧ some w ≠ k.opener ∧ some w ≠ k.divider)
    ⟨fun h => ⟨h.1, h.2.1, h.2.2⟩, fun h => ⟨h.not_closer, h.not_opener, h.not_divider⟩⟩

def Balanced (ws : List Word) : Prop :=
  ∀ depth rest, k.scanFrom depth (ws ++ rest) = (k.scanFrom depth rest).keepAll ws

variable {k}

/-- At a depth above zero every word is kept. -/
theorem scanFrom_succ (depth : Nat) (w : Word) (ws : List Word) :
    k.scanFrom (depth + 1) (w :: ws) = (k.scanFrom (k.depthAfter (depth + 1) w) ws).keep w := by
  simp [scanFrom]

theorem scanFrom_plain {w : Word} (h : k.Plain w) (depth : Nat) (ws : List Word) :
    k.scanFrom depth (w :: ws) = (k.scanFrom depth ws).keep w := by
  simp [scanFrom, depthAfter, h.not_closer, h.not_opener, h.not_divider]

theorem balanced_nil : k.Balanced [] := fun _ _ => rfl

theorem balanced_append {ws vs : List Word} (hw : k.Balanced ws) (hv : k.Balanced vs) :
    k.Balanced (ws ++ vs) := by
  intro depth rest
  rw [List.append_assoc, hw, hv]
  simp [Block.keepAll]

theorem balanced_singleton {w : Word} (h : k.Plain w) : k.Balanced [w] := fun depth rest =>
  scanFrom_plain h depth rest

theorem balanced_of_plain {ws : List Word} (h : ∀ w ∈ ws, k.Plain w) : k.Balanced ws := by
  induction ws with
  | nil => exact balanced_nil
  | cons w ws ih =>
    exact balanced_append (balanced_singleton (h w List.mem_cons_self))
      (ih fun v hv => h v (List.mem_cons_of_mem w hv))

theorem scan_balanced {ws : List Word} (h : k.Balanced ws) (rest : List Word) :
    k.scan (ws ++ k.closer :: rest) = ⟨ws, none, true, rest⟩ := by
  rw [scan, h]
  simp [scanFrom, Block.keepAll]

theorem scan_divided {ws vs : List Word} (hw : k.Balanced ws) (hv : k.Balanced vs) {d : Word}
    (hd : k.divider = some d) (hc : d ≠ k.closer) (rest : List Word) :
    k.scan (ws ++ d :: (vs ++ k.closer :: rest)) = ⟨ws, some vs, true, rest⟩ := by
  have hs : k.scanFrom 0 (vs ++ k.closer :: rest) = ⟨vs, none, true, rest⟩ := scan_balanced hv rest
  rw [scan, hw, scanFrom, if_neg (by simp [hc]), if_pos (by simp [hd]), hs]
  simp [Block.keepAll, Block.divide]

section

variable {o : Word} (ho : k.opener = some o) (hc : o ≠ k.closer) (hd : some o ≠ k.divider)

include ho hc hd

/-- An opener, words that are kept at a depth above zero, and the closer are in balance. The words
by themselves need not be: they may have a divider. -/
theorem balanced_nested {ws : List Word}
    (h : ∀ depth rest, k.scanFrom (depth + 1) (ws ++ rest) =
      (k.scanFrom (depth + 1) rest).keepAll ws) :
    k.Balanced (o :: (ws ++ [k.closer])) := by
  intro depth rest
  have hopen : k.scanFrom depth (o :: (ws ++ k.closer :: rest)) =
      (k.scanFrom (depth + 1) (ws ++ k.closer :: rest)).keep o := by
    simp [scanFrom, depthAfter, ho, hc, hd]
  have hclose : k.scanFrom (depth + 1) (k.closer :: rest) =
      (k.scanFrom depth rest).keep k.closer := by
    rw [scanFrom_succ]
    simp [depthAfter, ho, hc.symm]
  rw [List.cons_append, List.append_assoc, List.singleton_append, hopen, h, hclose]
  simp [Block.keepAll, Block.keep]

end

end Markers

end FlatForth
