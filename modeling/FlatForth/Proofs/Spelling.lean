import FlatForth.Numeral
import Mathlib.Data.List.Forall2
import Mathlib.Data.Nat.Digits.Defs

/-!
The spelling of numerals. A word is read as a numeral exactly when it is one of the ways to write
it: its sign, its digits, each taken from any script, and at most one line feed
(`ofWord?_eq_some_iff`).
-/

namespace FlatForth

theorem exists_of_mem_of_forall₂ {α β : Type} {R : α → β → Prop} {as : List α} {bs : List β}
    (h : List.Forall₂ R as bs) {a : α} (ha : a ∈ as) : ∃ b, R a b := by
  induction h with
  | nil => cases ha
  | @cons _ b _ _ hb _ ih =>
    rcases List.mem_cons.1 ha with rfl | ha
    · exact ⟨b, hb⟩
    · exact ih ha

namespace Text

/-- `c` is the digit of value `d` in some script. -/
def IsDigit (c : Char) (d : Nat) : Prop := d < 10 ∧ ∃ z ∈ zeros, c.toNat = z + d

/-- The digits of two scripts do not overlap. -/
theorem zeros_apart : ∀ z ∈ zeros, ∀ z' ∈ zeros, z = z' ∨ z + 10 ≤ z' ∨ z' + 10 ≤ z := by
  decide +kernel

theorem digit?_eq_some_iff {c : Char} {d : Nat} : digit? c = some d ↔ IsDigit c d := by
  constructor
  · intro h
    have hd := digit?_lt h
    obtain ⟨z, hz, rfl⟩ := Option.map_eq_some_iff.1 h
    have hrow := List.find?_some hz
    simp only [Bool.and_eq_true, decide_eq_true_eq] at hrow
    exact ⟨hd, z, List.mem_of_find?_eq_some hz, by omega⟩
  · intro h
    obtain ⟨hd, z, hz, hc⟩ := h
    have hsome : (zeros.find? fun z => z ≤ c.toNat && c.toNat ≤ z + 9).isSome = true := by
      rw [List.find?_isSome]
      refine ⟨z, hz, ?_⟩
      simp only [Bool.and_eq_true, decide_eq_true_eq]
      omega
    obtain ⟨z', hz'⟩ := Option.isSome_iff_exists.1 hsome
    have hrow := List.find?_some hz'
    simp only [Bool.and_eq_true, decide_eq_true_eq] at hrow
    have happart := zeros_apart z hz z' (List.mem_of_find?_eq_some hz')
    rw [digit?, hz', Option.map_some, Option.some.injEq]
    omega

theorem mapM_digit?_eq_some_iff {cs : List Char} {ds : List Nat} :
    cs.mapM digit? = some ds ↔ List.Forall₂ IsDigit cs ds := by
  induction cs generalizing ds with
  | nil => simp [eq_comm]
  | cons c cs ih =>
    simp only [List.mapM_cons, Option.bind_eq_bind, Option.bind_eq_some_iff, digit?_eq_some_iff, ih,
      List.forall₂_cons_left_iff, Option.pure_def, Option.some.injEq]
    constructor
    · intro h
      obtain ⟨d, hd, rest, hrest, rfl⟩ := h
      exact ⟨d, rest, hd, hrest, rfl⟩
    · intro h
      obtain ⟨d, rest, hd, hrest, rfl⟩ := h
      exact ⟨d, hd, rest, hrest, rfl⟩

theorem not_mem_of_isDigit {c : Char} (h : digit? c = none) {cs : List Char} {ds : List Nat}
    (hdigits : List.Forall₂ IsDigit cs ds) : c ∉ cs := by
  intro hc
  obtain ⟨d, hd⟩ := exists_of_mem_of_forall₂ hdigits hc
  simp [digit?_eq_some_iff.2 hd] at h

/-- What may stand behind the digits. -/
abbrev endings : List (List Char) := [[], ['\n']]

theorem exists_ending (cs : List Char) : ∃ ending ∈ endings, cs = dropLineFeed cs ++ ending := by
  unfold dropLineFeed
  split
  · rename_i hlast
    obtain ⟨before, rfl⟩ := List.getLast?_eq_some_iff.1 hlast
    exact ⟨['\n'], by simp, by simp⟩
  · exact ⟨[], by simp, by simp⟩

theorem dropLineFeed_append {cs ending : List Char} (h : '\n' ∉ cs) (hending : ending ∈ endings) :
    dropLineFeed (cs ++ ending) = cs := by
  have hlast : cs.getLast? ≠ some '\n' := fun hlast => h (List.mem_of_getLast? hlast)
  simp only [List.mem_cons, List.not_mem_nil, or_false] at hending
  rcases hending with rfl | rfl
  · simp [dropLineFeed, hlast]
  · simp [dropLineFeed]

end Text

namespace Numeral

def sign (n : Numeral) : List Char := if n.negative then ['-'] else []

/-- `w` spells `n`: a minus sign if it is negative, its digits in any scripts, and at most one line
feed. -/
structure Written (n : Numeral) (w : Word) : Prop where
  digits_ne_nil : n.digits ≠ []
  spelled : ∃ cs, ∃ ending ∈ Text.endings, List.Forall₂ Text.IsDigit cs n.digits ∧
    w.toList = n.sign ++ cs ++ ending

theorem sign_append_splitSign (cs : List Char) (digits : List Nat) :
    sign ⟨(splitSign cs).1, digits⟩ ++ (splitSign cs).2 = cs := by
  unfold splitSign
  split <;> rfl

theorem splitSign_sign_append {n : Numeral} {cs : List Char} (h : '-' ∉ cs) :
    splitSign (n.sign ++ cs) = (n.negative, cs) := by
  unfold sign
  cases n.negative with
  | true => rfl
  | false =>
    simp only [Bool.false_eq_true, if_false, List.nil_append]
    unfold splitSign
    split
    · simp at h
    · rfl

theorem ofWord?_eq_some_iff {w : Word} {n : Numeral} : ofWord? w = some n ↔ n.Written w := by
  constructor
  · intro h
    obtain ⟨ending, hending, hw⟩ := Text.exists_ending w.toList
    have hsplit := sign_append_splitSign (Text.dropLineFeed w.toList)
    simp only [ofWord?, Option.ite_none_left_eq_some, Option.map_eq_some_iff] at h
    obtain ⟨hcs, ds, hds, rfl⟩ := h
    have hdigits := Text.mapM_digit?_eq_some_iff.1 hds
    refine ⟨fun hnil => hcs ?_, _, ending, hending, hdigits, ?_⟩
    · simpa [show ds = [] from hnil] using hdigits
    · rw [hsplit, ← hw]
  · intro h
    obtain ⟨cs, ending, hending, hdigits, hw⟩ := h.spelled
    have hsign : '\n' ∉ n.sign := by
      unfold sign
      split <;> decide
    have hfeed : '\n' ∉ cs := Text.not_mem_of_isDigit (by decide) hdigits
    have hminus : '-' ∉ cs := Text.not_mem_of_isDigit (by decide) hdigits
    have hcs : cs ≠ [] := fun hnil => h.digits_ne_nil (by simpa [hnil] using hdigits)
    have hdrop : Text.dropLineFeed w.toList = n.sign ++ cs := by
      rw [hw, Text.dropLineFeed_append (by simp [hsign, hfeed]) hending]
    simp [ofWord?, hdrop, splitSign_sign_append hminus, hcs, Text.mapM_digit?_eq_some_iff.2 hdigits]

end Numeral

end FlatForth
