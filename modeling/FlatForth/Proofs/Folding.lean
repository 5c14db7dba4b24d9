import FlatForth.Word

/-!
Folding once is enough. No letter that some letter folds to folds any further, so a folded text is
its own folded form (`fold_fold`), and so is every word that is read from a source
(`fold_of_mem_queue`). Words that are folded already are read from a list as they stand
(`queue_words_folded`).
-/

namespace FlatForth

namespace Text

/-- The letters of a run, counted from `start` in its steps: from `first` on those that fold, from
`image` on those they fold to. -/
def CaseRun.letters (r : CaseRun) (start : Nat) : List Nat :=
  (List.range ((r.last - r.first) / r.step + 1)).map (start + r.step * ·)

def foldingLetters : List Nat :=
  (caseRuns.flatMap fun r => r.letters r.first) ++ expansions.map (·.1)

def foldedLetters : List Nat :=
  (caseRuns.flatMap fun r => r.letters r.image) ++ expansions.flatMap (·.2)

/-- The set of `ns` as a number, in which bit `n` is set for each `n` of `ns`. -/
def bits (ns : List Nat) : Nat := ns.foldr (fun n set => set ||| 1 <<< n) 0

theorem testBit_bits {ns : List Nat} {n : Nat} : (bits ns).testBit n = true ↔ n ∈ ns := by
  induction ns with
  | nil => simp [bits]
  | cons m ns ih =>
    have hm : (1 <<< m).testBit n = decide (m = n) := by
      rw [Nat.one_shiftLeft, Nat.testBit_two_pow]
    rw [bits, List.foldr_cons, Nat.testBit_or, Bool.or_eq_true, ← bits, ih, hm,
      decide_eq_true_eq, List.mem_cons, or_comm, eq_comm]

theorem not_mem_of_bits_and {ns ms : List Nat} (h : bits ns &&& bits ms = 0) {n : Nat}
    (hn : n ∈ ns) : n ∉ ms := by
  intro hm
  have hbit : (bits ns &&& bits ms).testBit n = true := by
    rw [Nat.testBit_and, testBit_bits.2 hn, testBit_bits.2 hm, Bool.and_self]
  rw [h, Nat.zero_testBit] at hbit
  exact Bool.false_ne_true hbit

-- Sets of bits are compared at once, letters only one with the other.
theorem bits_foldedLetters_and : bits foldedLetters &&& bits foldingLetters = 0 := by
  decide +kernel

theorem not_mem_foldingLetters {n : Nat} (h : n ∈ foldedLetters) : n ∉ foldingLetters :=
  not_mem_of_bits_and bits_foldedLetters_and h

theorem CaseRun.mem_letters {r : CaseRun} {n : Nat} (h : r.covers n = true) (start : Nat) :
    start + (n - r.first) ∈ r.letters start := by
  simp only [covers, Bool.and_eq_true, decide_eq_true_eq, beq_iff_eq] at h
  obtain ⟨⟨-, hlast⟩, hstep⟩ := h
  refine List.mem_map.2 ⟨(n - r.first) / r.step, List.mem_range.2 (Nat.lt_succ_of_le ?_), ?_⟩
  · exact Nat.div_le_div_right (Nat.sub_le_sub_right hlast r.first)
  · rw [Nat.mul_div_cancel' (Nat.dvd_of_mod_eq_zero hstep)]

theorem foldCode_of_not_mem {n : Nat} (h : n ∉ foldingLetters) : foldCode n = [n] := by
  have hexp : expansions.lookup n = none := by
    refine List.lookup_eq_none_iff.2 fun e he => ?_
    have hne : n ≠ e.1 := fun heq =>
      h (List.mem_append_right _ (List.mem_map.2 ⟨e, he, heq.symm⟩))
    simp [hne]
  have hrun : caseRuns.find? (·.covers n) = none := by
    refine List.find?_eq_none.2 fun r hr hc => h (List.mem_append_left _ ?_)
    have hfirst : r.first ≤ n := by
      simp only [CaseRun.covers, Bool.and_eq_true, decide_eq_true_eq] at hc
      exact hc.1.1
    have hmem := r.mem_letters hc r.first
    rw [Nat.add_sub_cancel' hfirst] at hmem
    exact List.mem_flatMap.2 ⟨r, hr, hmem⟩
  simp only [foldCode, hexp, hrun]

theorem self_or_mem_foldedLetters {n m : Nat} (h : m ∈ foldCode n) :
    foldCode n = [n] ∧ m = n ∨ m ∈ foldedLetters := by
  cases hlookup : expansions.lookup n with
  | some ms =>
    simp only [foldCode, hlookup] at h
    obtain ⟨before, after, he, -⟩ := List.lookup_eq_some_iff.1 hlookup
    have hmem : (n, ms) ∈ expansions := he ▸ List.mem_append_right before List.mem_cons_self
    exact .inr (List.mem_append_right _ (List.mem_flatMap.2 ⟨(n, ms), hmem, h⟩))
  | none =>
    cases hfind : caseRuns.find? (·.covers n) with
    | some r =>
      simp only [foldCode, hlookup, hfind, List.mem_singleton] at h
      have hc : r.covers n = true := by simpa using List.find?_some hfind
      exact .inr (List.mem_append_left _ (List.mem_flatMap.2
        ⟨r, List.mem_of_find?_eq_some hfind, h ▸ r.mem_letters hc r.image⟩))
    | none =>
      have hself : foldCode n = [n] := by simp only [foldCode, hlookup, hfind]
      exact .inl ⟨hself, by simpa [hself] using h⟩

theorem foldCode_of_mem {n m : Nat} (h : m ∈ foldCode n) : foldCode m = [m] := by
  rcases self_or_mem_foldedLetters h with ⟨hself, rfl⟩ | hm
  · exact hself
  · exact foldCode_of_not_mem (not_mem_foldingLetters hm)

/-- This holds as well for an `m` that is no code point: `Char.ofNat m` is zero then. -/
theorem foldChar_ofNat {m : Nat} (h : foldCode m = [m]) :
    foldChar (Char.ofNat m) = [Char.ofNat m] := by
  by_cases hm : m.isValidChar
  · have hn : (Char.ofNat m).toNat = m := by rw [Char.ofNat, dif_pos hm]; rfl
    rw [foldChar, hn, h]
    rfl
  · have hz : Char.ofNat m = Char.ofNat 0 := by rw [Char.ofNat, dif_neg hm]; rfl
    rw [hz]
    decide +kernel

theorem foldChar_of_mem_fold {s : String} {c : Char} (h : c ∈ (fold s).toList) :
    foldChar c = [c] := by
  rw [toList_fold] at h
  obtain ⟨b, -, hc⟩ := List.mem_flatMap.1 h
  obtain ⟨m, hm, rfl⟩ := List.mem_map.1 hc
  exact foldChar_ofNat (foldCode_of_mem hm)

theorem fold_eq_self {s : String} (h : ∀ c ∈ s.toList, foldChar c = [c]) : fold s = s := by
  have hs : s.toList.flatMap foldChar = s.toList := by
    rw [List.flatMap, List.map_congr_left h, ← List.flatMap, List.flatMap_singleton']
  rw [fold, hs, String.ofList_toList]

theorem fold_fold (s : String) : fold (fold s) = fold s :=
  fold_eq_self fun _ => foldChar_of_mem_fold

theorem of_mem_splitOnP {p : Char → Bool} {cs part : List Char} (h : part ∈ cs.splitOnP p) :
    ∀ c ∈ part, c ∈ cs ∧ p c = false := by
  induction cs generalizing part with
  | nil =>
    obtain rfl : part = [] := by simpa using h
    exact fun c hc => absurd hc List.not_mem_nil
  | cons d cs ih =>
    have later {part : List Char} (h : part ∈ cs.splitOnP p) (c : Char) (hc : c ∈ part) :
        c ∈ d :: cs ∧ p c = false := (ih h c hc).imp_left (List.mem_cons_of_mem d)
    rw [List.splitOnP_cons_eq_if_modifyHead] at h
    split at h
    · rcases List.mem_cons.1 h with rfl | h
      · exact fun c hc => absurd hc List.not_mem_nil
      · exact later h
    · rename_i hd
      obtain ⟨first, rest, hs⟩ := List.exists_cons_of_ne_nil (List.splitOnP_ne_nil p cs)
      rw [hs] at h later
      rcases List.mem_cons.1 h with rfl | h
      · intro c hc
        rcases List.mem_cons.1 hc with rfl | hc
        · exact ⟨List.mem_cons_self, Bool.eq_false_iff.2 hd⟩
        · exact later List.mem_cons_self c hc
      · exact later (List.mem_cons_of_mem first h)

theorem mem_of_mem_fields {s w : String} (h : w ∈ fields s) {c : Char} (hc : c ∈ w.toList) :
    c ∈ s.toList := by
  obtain ⟨cs, hcs, rfl⟩ := List.mem_map.1 h
  rw [String.toList_ofList] at hc
  exact (of_mem_splitOnP (List.mem_filter.1 hcs).1 c hc).1

end Text

theorem fold_of_mem_queue {source : Source} {w : Word} (h : w ∈ source.queue) :
    Text.fold w = w := by
  cases source with
  | text t =>
    exact Text.fold_eq_self fun c hc => Text.foldChar_of_mem_fold (Text.mem_of_mem_fields h hc)
  | words ws =>
    obtain ⟨v, -, rfl⟩ := List.mem_map.1 h
    exact Text.fold_fold v

abbrev Word.Folded (w : Word) : Prop := Text.fold w = w

theorem Keyword.folded : ∀ w ∈ all, w.Folded := by decide +kernel

theorem queue_words_folded {ws : List Word} (h : ∀ w ∈ ws, w.Folded) :
    (Source.words ws).queue = ws :=
  (List.map_congr_left h).trans (List.map_id ws)

end FlatForth
