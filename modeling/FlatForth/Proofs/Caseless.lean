import FlatForth.Proofs.Folding
import FlatForth.Proofs.Spelling

/-!
Characters without case. Such a character comes from no other by folding, so a text that is folded
to such characters only was folded already (`fold_eq_self_of_caseless`). The digits of every script,
the minus sign and the line feed have no case: a word is a numeral exactly when its folded form is
one (`isNumeral_fold`).
-/

namespace FlatForth

namespace Text

/-- The character folds to itself, and no other character folds to it. -/
structure Caseless (c : Char) : Prop where
  not_folding : c.toNat ∉ foldingLetters
  not_folded : c.toNat ∉ foldedLetters

theorem caseless_of_bits {ns : List Nat} (h : bits ns &&& bits foldingLetters = 0)
    (h' : bits ns &&& bits foldedLetters = 0) {c : Char} (hc : c.toNat ∈ ns) : Caseless c :=
  ⟨not_mem_of_bits_and h hc, not_mem_of_bits_and h' hc⟩

theorem foldChar_of_caseless {c : Char} (h : Caseless c) : foldChar c = [c] := by
  rw [foldChar, foldCode_of_not_mem h.not_folding, List.map_singleton, Char.ofNat_toNat]

theorem toNat_of_mem_foldedLetters {m : Nat} (h : m ∈ foldedLetters) : (Char.ofNat m).toNat = m := by
  have hall : (foldedLetters.all fun m => (Char.ofNat m).toNat == m) = true := by decide +kernel
  simpa using List.all_eq_true.1 hall m h

theorem eq_of_mem_foldChar {c d : Char} (hd : d ∈ foldChar c) (h : Caseless d) : c = d := by
  obtain ⟨m, hm, rfl⟩ := List.mem_map.1 hd
  rcases self_or_mem_foldedLetters hm with ⟨-, rfl⟩ | hm
  · exact (Char.ofNat_toNat c).symm
  · refine absurd ?_ h.not_folded
    rwa [toNat_of_mem_foldedLetters hm]

theorem foldChar_ne_nil (c : Char) : foldChar c ≠ [] := by
  have hall : (expansions.all fun e => !e.2.isEmpty) = true := by decide +kernel
  intro h
  have hnil : foldCode c.toNat = [] := List.map_eq_nil_iff.1 h
  unfold foldCode at hnil
  split at hnil
  · rename_i ms hlookup
    obtain ⟨before, after, he, -⟩ := List.lookup_eq_some_iff.1 hlookup
    have hmem : (c.toNat, ms) ∈ expansions := he ▸ List.mem_append_right before List.mem_cons_self
    simpa [hnil] using List.all_eq_true.1 hall _ hmem
  · split at hnil <;> cases hnil

theorem fold_eq_self_of_caseless {s : String} (h : ∀ c ∈ (fold s).toList, Caseless c) :
    fold s = s := by
  refine fold_eq_self fun c hc => ?_
  obtain ⟨d, hd⟩ := List.exists_mem_of_ne_nil _ (foldChar_ne_nil c)
  have hmem : d ∈ (fold s).toList := by
    rw [toList_fold]
    exact List.mem_flatMap.2 ⟨c, hc, hd⟩
  obtain rfl := eq_of_mem_foldChar hd (h d hmem)
  exact foldChar_of_caseless (h c hmem)

theorem fold_eq_iff_of_caseless {s t : String} (h : ∀ c ∈ t.toList, Caseless c) :
    fold s = t ↔ s = t := by
  constructor
  · intro hs
    rw [← hs, fold_eq_self_of_caseless (hs ▸ h)]
  · intro hs
    rw [hs, fold_eq_self fun c hc => foldChar_of_caseless (h c hc)]

/-- The code points of the minus sign, the line feed and the digits of all scripts. -/
def numeralChars : List Nat := '-'.toNat :: '\n'.toNat :: zeros.flatMap (List.range' · 10)

theorem caseless_of_mem_numeralChars {c : Char} (h : c.toNat ∈ numeralChars) : Caseless c :=
  caseless_of_bits (by decide +kernel) (by decide +kernel) h

theorem mem_numeralChars_of_isDigit {c : Char} {d : Nat} (h : IsDigit c d) :
    c.toNat ∈ numeralChars := by
  obtain ⟨hd, z, hz, hc⟩ := h
  refine List.mem_cons_of_mem _ (List.mem_cons_of_mem _ (List.mem_flatMap.2 ⟨z, hz, ?_⟩))
  rw [List.mem_range'_1]
  omega

end Text

theorem Numeral.Written.mem_numeralChars {n : Numeral} {w : Word} (h : n.Written w) :
    ∀ c ∈ w.toList, c.toNat ∈ Text.numeralChars := by
  obtain ⟨cs, ending, hending, hdigits, hw⟩ := h.spelled
  intro c hc
  rw [hw, List.append_assoc] at hc
  rcases List.mem_append.1 hc with hsign | hc
  · obtain rfl : c = '-' := by
      unfold sign at hsign
      split at hsign
      · exact List.mem_singleton.1 hsign
      · cases hsign
    exact List.mem_cons_self
  · rcases List.mem_append.1 hc with hc | hc
    · obtain ⟨d, hd⟩ := exists_of_mem_of_forall₂ hdigits hc
      exact Text.mem_numeralChars_of_isDigit hd
    · simp only [List.mem_cons, List.not_mem_nil, or_false] at hending
      rcases hending with rfl | rfl
      · cases hc
      · exact List.mem_singleton.1 hc ▸ List.mem_cons_of_mem _ List.mem_cons_self

theorem mem_numeralChars_of_isNumeral {w : Word} (h : isNumeral w = true) :
    ∀ c ∈ w.toList, c.toNat ∈ Text.numeralChars := by
  obtain ⟨n, hn⟩ := Option.isSome_iff_exists.1 h
  exact (Numeral.ofWord?_eq_some_iff.1 hn).mem_numeralChars

theorem isNumeral_fold (w : Word) : isNumeral (Text.fold w) = isNumeral w := by
  have caseless {v : Word} (h : isNumeral v = true) (c : Char) (hc : c ∈ v.toList) :
      Text.Caseless c := Text.caseless_of_mem_numeralChars (mem_numeralChars_of_isNumeral h c hc)
  refine Bool.eq_iff_iff.2 ⟨fun h => ?_, fun h => ?_⟩
  · rwa [Text.fold_eq_self_of_caseless (caseless h)] at h
  · rwa [(Text.fold_eq_iff_of_caseless (caseless h)).2 rfl]

theorem fold_eq_endDefine_iff {w : Word} : Text.fold w = Keyword.endDefine ↔ w = Keyword.endDefine := by
  refine Text.fold_eq_iff_of_caseless fun c hc => ?_
  have hmem : c.toNat ∈ [';'.toNat] := List.mem_map_of_mem (f := Char.toNat) hc
  exact Text.caseless_of_bits (by decide +kernel) (by decide +kernel) hmem

end FlatForth
