import FlatForth.Machine
import FlatForth.Proofs.Legible
import FlatForth.Proofs.Spelling

/-!
Decimal texts. The text of an integer is a numeral, which reads back as that integer unless it has
too many digits (`pushNumeral_repr`), and a legible word that is no keyword (`repr_legible`,
`repr_not_keyword`).
-/

namespace FlatForth

namespace Text

theorem isDigit_of_decimal {c : Char} (h : c.isDigit = true) : IsDigit c (c.toNat - '0'.toNat) := by
  obtain ⟨hlow, hhigh⟩ := Char.isDigit_iff_toNat.1 h
  have hrow : '9'.toNat = '0'.toNat + 9 := rfl
  exact ⟨by omega, '0'.toNat, by decide, by omega⟩

/-- The minus sign and the ten digits of `Int.repr`. -/
def decimalChars : List Char := "-0123456789".toList

theorem mem_decimalChars_of_isDigit {c : Char} (h : c.isDigit = true) : c ∈ decimalChars := by
  obtain ⟨hlow, hhigh⟩ := Char.isDigit_iff_toNat.1 h
  have hall : ∀ k < 10, Char.ofNat ('0'.toNat + k) ∈ decimalChars := by decide
  have hmem := hall (c.toNat - '0'.toNat) (by
    have hz : '9'.toNat = '0'.toNat + 9 := rfl
    omega)
  rwa [Nat.add_sub_cancel' hlow, Char.ofNat_toNat] at hmem

theorem decimalChars_plain {c : Char} (h : c ∈ decimalChars) :
    isBlank c = false ∧ foldChar c = [c] := by
  have hall : (decimalChars.all fun c => !isBlank c && foldChar c == [c]) = true := by
    decide +kernel
  simpa using List.all_eq_true.1 hall c h

end Text

theorem toList_repr (n : Int) :
    n.repr.toList = (if n < 0 then ['-'] else []) ++ Nat.toDigits 10 n.natAbs := by
  rw [Int.repr_eq_if]
  by_cases hn : n < 0
  · have habs : (-n).toNat = n.natAbs := by omega
    rw [if_neg (by omega), if_pos hn, String.toList_append, habs, Nat.toList_repr]
    rfl
  · have habs : n.toNat = n.natAbs := by omega
    rw [if_pos (by omega), if_neg hn, habs, Nat.toList_repr, List.nil_append]

theorem mem_decimalChars {n : Int} {c : Char} (h : c ∈ n.repr.toList) : c ∈ Text.decimalChars := by
  rw [toList_repr] at h
  rcases List.mem_append.1 h with h | h
  · split at h
    · exact List.mem_singleton.1 h ▸ List.mem_cons_self
    · cases h
  · exact Text.mem_decimalChars_of_isDigit
      (Nat.isDigit_of_mem_toDigits (by decide) (by decide) h)

theorem repr_legible (n : Int) : Word.Legible n.repr where
  ne_empty h := by
    have hnil : n.repr.toList = [] := String.toList_eq_nil_iff.2 h
    rw [toList_repr] at hnil
    exact Nat.toDigits_ne_nil (List.append_eq_nil_iff.1 hnil).2
  not_blank _ hc := (Text.decimalChars_plain (mem_decimalChars hc)).1
  folded := Text.fold_eq_self fun _ hc => (Text.decimalChars_plain (mem_decimalChars hc)).2

theorem repr_not_keyword (n : Int) : n.repr ∉ Keyword.all := by
  intro h
  have hall : (Keyword.all.all fun w => w.toList.any (!Text.decimalChars.contains ·)) = true := by
    decide +kernel
  obtain ⟨c, hc, hnot⟩ := List.any_eq_true.1 (List.all_eq_true.1 hall n.repr h)
  simp [mem_decimalChars hc] at hnot

namespace Numeral

/-- The numeral that `n.repr` spells. -/
def ofInt (n : Int) : Numeral :=
  ⟨n < 0, (Nat.toDigits 10 n.natAbs).map fun c => c.toNat - '0'.toNat⟩

theorem ofInt_toInt (n : Int) : (ofInt n).toInt = n := by
  have hmag : (ofInt n).magnitude = n.natAbs := by
    unfold magnitude ofInt
    rw [List.foldl_map]
    exact Nat.ofDigitChars_ten_toDigits
  rw [toInt, hmag]
  by_cases hn : n < 0
  · simp only [ofInt, hn, decide_true, if_true]
    omega
  · simp only [ofInt, hn, decide_false, Bool.false_eq_true, if_false]
    omega

theorem length_digits_ofInt (n : Int) : (ofInt n).digits.length = n.natAbs.repr.length := by
  rw [ofInt, List.length_map, ← String.length_toList, Nat.toList_repr]

theorem ofInt_written (n : Int) : (ofInt n).Written n.repr where
  digits_ne_nil h := Nat.toDigits_ne_nil (List.map_eq_nil_iff.1 h)
  spelled := by
    refine ⟨Nat.toDigits 10 n.natAbs, [], by simp, ?_, ?_⟩
    · rw [ofInt, List.forall₂_map_right_iff, List.forall₂_same]
      exact fun c hc =>
        Text.isDigit_of_decimal (Nat.isDigit_of_mem_toDigits (by decide) (by decide) hc)
    · simp [toList_repr, sign, ofInt]

theorem ofWord?_repr (n : Int) : ofWord? n.repr = some (ofInt n) :=
  ofWord?_eq_some_iff.2 (ofInt_written n)

end Numeral

theorem isNumeral_repr (n : Int) : isNumeral n.repr = true := by
  rw [isNumeral, Numeral.ofWord?_repr]
  rfl

theorem pushNumeral_repr {n : Int} (h : n.natAbs.repr.length ≤ Numeral.digitLimit) (m : Machine) :
    m.pushNumeral n.repr = (m.push (.int n)).done := by
  have hvalue : (Numeral.ofInt n).value? = some n := by
    rw [Numeral.value?, Numeral.length_digits_ofInt, if_pos h, Numeral.ofInt_toInt]
  simp only [Machine.pushNumeral, Numeral.ofWord?_repr, hvalue]

end FlatForth
