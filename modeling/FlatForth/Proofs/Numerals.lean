import FlatForth.Proofs.Caseless
import FlatForth.Proofs.Decimal
import FlatForth.Proofs.Depth
import FlatForth.Proofs.WellFormed

/-!
Numerals on a machine. Variables and the dictionary come before numerals when a word is looked up.
Yet no name that a machine comes to have in its dictionary is a numeral, so a numeral stands for its
value unless a variable of that name was declared (`takesNumeral_after`). The value is that of the
digits to the base ten, with leading zeros or without, and of whatever script they are
(`evaluate_numeral`).
-/

namespace FlatForth

namespace Numeral

theorem magnitude_eq_ofDigits (n : Numeral) : n.magnitude = Nat.ofDigits 10 n.digits.reverse := by
  rw [magnitude, Nat.ofDigits_eq_foldr, List.foldr_reverse]
  simp only [Nat.cast_id, Nat.add_comm]

theorem toInt_eq_ofDigits (n : Numeral) :
    n.toInt = (if n.negative then -1 else 1) * (Nat.ofDigits 10 n.digits.reverse : Nat) := by
  rw [toInt, magnitude_eq_ofDigits]
  split <;> simp

theorem toInt_of_leading_zeros (negative : Bool) (z : Nat) (ds : List Nat) :
    toInt ⟨negative, List.replicate z 0 ++ ds⟩ = toInt ⟨negative, ds⟩ := by
  have hzeros : (List.replicate z 0).foldl (fun m d => 10 * m + d) 0 = 0 := by
    induction z with
    | zero => rfl
    | succ z ih => simpa [List.replicate_succ] using ih
  simp only [toInt, magnitude, List.foldl_append, hzeros]

theorem natAbs_toInt (n : Numeral) : n.toInt.natAbs = n.magnitude := by
  unfold toInt
  split <;> simp

/-- The decimal text of the magnitude is no longer than the digits of the numeral. -/
theorem Written.length_repr_le {n : Numeral} {w : Word} (h : n.Written w) :
    n.toInt.natAbs.repr.length ≤ n.digits.length := by
  obtain ⟨cs, ending, -, hdigits, -⟩ := h.spelled
  have hlow : ∀ d ∈ n.digits.reverse, d < 10 := by
    intro d hd
    obtain ⟨c, hlow, -⟩ := exists_of_mem_of_forall₂ hdigits.flip (List.mem_reverse.1 hd)
    exact hlow
  have hbound := Nat.ofDigits_lt_base_pow_length (by decide) hlow
  rw [List.length_reverse, ← magnitude_eq_ofDigits, ← natAbs_toInt] at hbound
  exact Nat.repr_length _ _ (List.length_pos_iff.2 h.digits_ne_nil) hbound

theorem Written.isNumeral {n : Numeral} {w : Word} (h : n.Written w) : isNumeral w = true := by
  rw [FlatForth.isNumeral, ofWord?_eq_some_iff.2 h]
  rfl

theorem Written.fold_eq {n : Numeral} {w : Word} (h : n.Written w) : Text.fold w = w :=
  Text.fold_eq_self fun c hc =>
    Text.foldChar_of_caseless (Text.caseless_of_mem_numeralChars (h.mem_numeralChars c hc))

end Numeral

namespace Machine

theorem evaluate_eq_runItems (m : Machine) (room : Nat) (source : Source) : ∃ inner,
    m.evaluate room source = (runItems unwatched inner (items source.queue) m ()).toEnding :=
  ⟨runWords unwatched room, rfl⟩

/-- How `m` evaluates a word `w` that spells `n`: as a reference if `w` is a variable, else as the
value, unless it has too many digits. The decimal text of the value is evaluated alike, if neither
is a variable. A definition of `w` fails. -/
structure TakesNumeral (m : Machine) (room : Nat) (w : Word) (n : Numeral) : Prop where
  value : m.variables.contains w = false → n.digits.length ≤ Numeral.digitLimit →
    m.evaluate room (.words [w]) = done { m with stack := .int n.toInt :: m.stack }
  tooLong : m.variables.contains w = false → Numeral.digitLimit < n.digits.length →
    m.evaluate room (.words [w]) = m.stop (.numeralTooLong n.digits.length)
  reference : m.variables.contains w = true →
    m.evaluate room (.words [w]) = done { m with stack := .ref w :: m.stack }
  canonical : m.variables.contains w = false → m.variables.contains n.toInt.repr = false →
    n.digits.length ≤ Numeral.digitLimit →
      m.evaluate room (.words [w]) = m.evaluate room (.words [n.toInt.repr])
  misdefined : ∀ source rest, source.queue = Keyword.define :: w :: rest →
    m.evaluate room source = m.fault (.misdefinition (.number w))

end Machine

section

variable {n : Numeral} {w : Word} (h : n.Written w)

include h

theorem pushNumeral_of_written (m : Machine) :
    m.pushNumeral w = if n.digits.length ≤ Numeral.digitLimit then (m.push (.int n.toInt)).done
      else m.stop (.numeralTooLong n.digits.length) := by
  by_cases hlength : n.digits.length ≤ Numeral.digitLimit
  · simp [Machine.pushNumeral, Numeral.ofWord?_eq_some_iff.2 h, Numeral.value?, hlength]
  · simp [Machine.pushNumeral, Numeral.ofWord?_eq_some_iff.2 h, Numeral.value?, hlength]

theorem evaluate_of_written {m : Machine} (hd : m.dictionary.find? w = none) (room : Nat) :
    m.evaluate room (.words [w]) =
      if m.variables.contains w then (m.push (.ref w)).done else m.pushNumeral w := by
  have hplain : w ∉ Keyword.openers := by
    intro hw
    have hopeners : ∀ k ∈ Keyword.openers, isNumeral k = false := by decide +kernel
    simpa [h.isNumeral] using hopeners w hw
  have hitems : items (Source.words [w]).queue = [.word w] := by
    rw [Source.queue, List.map_singleton, h.fold_eq, items_of_read (Item.read_word hplain []), items]
  obtain ⟨inner, hrun⟩ := m.evaluate_eq_runItems room (.words [w])
  have hcall : step unwatched inner (.word w) m () = call unwatched inner w m () := rfl
  rw [hrun, hitems, runItems_cons, runItems_nil, Action.andThen_skip, hcall, call, hd]
  split <;> rfl

theorem evaluate_definition_of_written {source : Source} {rest : List Word}
    (hs : source.queue = Keyword.define :: w :: rest) (m : Machine) (room : Nat) :
    m.evaluate room source = m.fault (.misdefinition (.number w)) := by
  obtain ⟨inner, hrun⟩ := m.evaluate_eq_runItems room source
  rw [hrun, hs, runItems_numeral_definition unwatched inner h.isNumeral rest]
  rfl

theorem evaluate_after (calls : List Call) (room : Nat) :
    (Machine.after calls).evaluate room (.words [w]) =
      if (Machine.after calls).variables.contains w then ((Machine.after calls).push (.ref w)).done
      else if n.digits.length ≤ Numeral.digitLimit then
        ((Machine.after calls).push (.int n.toInt)).done
      else (Machine.after calls).stop (.numeralTooLong n.digits.length) := by
  have hd : (Machine.after calls).dictionary.find? w = none := by
    cases hfind : (Machine.after calls).dictionary.find? w with
    | none => rfl
    | some e =>
      have hname := (wellFormed_after calls).names w (by simp [Table.contains, hfind])
      simpa [h.isNumeral] using hname.1
  rw [evaluate_of_written h hd, pushNumeral_of_written h]

theorem takesNumeral_after (calls : List Call) (room : Nat) :
    (Machine.after calls).TakesNumeral room w n where
  value hv hlength := by simp [evaluate_after h, hv, hlength, Machine.push]
  tooLong hv hlength := by simp [evaluate_after h, hv, hlength]
  reference hv := by simp [evaluate_after h, hv, Machine.push]
  canonical hv hv' hlength := by
    have hshort : (Numeral.ofInt n.toInt).digits.length ≤ Numeral.digitLimit := by
      rw [Numeral.length_digits_ofInt]
      exact h.length_repr_le.trans hlength
    simp [evaluate_after h, evaluate_after (Numeral.ofInt_written n.toInt), hv, hv', hlength, hshort,
      Numeral.ofInt_toInt]
  misdefined _ _ hs := evaluate_definition_of_written h hs _ room

end

/-- `isNumeral` holds of the words that some numeral is `Written` as, with digits of any script. The
value of the numeral is that of its digits to the base ten, which leading zeros do not change, and a
machine `after` any calls `TakesNumeral`: for its value, for a reference if there is such a
variable, and never for a name to define. The text of an integer is written as a numeral of that
value. -/
theorem evaluate_numeral :
    (∀ w, isNumeral w = true ↔ ∃ n : Numeral, n.Written w) ∧
    (∀ (n : Numeral) w, n.Written w →
      n.toInt = (if n.negative then -1 else 1) * (Nat.ofDigits 10 n.digits.reverse : Nat) ∧
      (∀ rest, Item.read Keyword.define (w :: rest) = (.misdefine (.number w), rest)) ∧
      ∀ calls room, (Machine.after calls).TakesNumeral room w n) ∧
    (∀ negative z ds,
      Numeral.toInt ⟨negative, List.replicate z 0 ++ ds⟩ = Numeral.toInt ⟨negative, ds⟩) ∧
    ∀ k : Int, (Numeral.ofInt k).Written k.repr ∧ (Numeral.ofInt k).toInt = k ∧
      (Numeral.ofInt k).digits.length = k.natAbs.repr.length := by
  refine ⟨fun w => ?_, fun n w h => ?_, Numeral.toInt_of_leading_zeros, fun k => ?_⟩
  · rw [isNumeral, Option.isSome_iff_exists]
    exact exists_congr fun n => Numeral.ofWord?_eq_some_iff
  · exact ⟨n.toInt_eq_ofDigits, Item.read_numeral_definition h.isNumeral, takesNumeral_after h⟩
  · exact ⟨Numeral.ofInt_written k, Numeral.ofInt_toInt k, Numeral.length_digits_ofInt k⟩

/-- Minus forty-two with a leading zero, in three scripts, on a machine where the Arabic three is a
variable. -/
theorem evaluate_numeral_scripts :
    let m := Machine.after [.evaluate nestingLimit (.text "variable \u0663 : \u0663 4 ;")]
    let run := m.evaluate nestingLimit
    m.variables.contains "\u0663" = true ∧
    run (.words ["-\u0660\u096a2\n"]) = Machine.done { m with stack := .int (-42) :: m.stack } ∧
    run (.words ["-\u0660\u096a2\n"]) = run (.words ["-42"]) ∧
    run (.words ["\u0663"]) = Machine.done { m with stack := .ref "\u0663" :: m.stack } ∧
    run (.text ": -42 + ;") = m.fault (.misdefinition (.number "-42")) := by
  intro m run
  have hw : (⟨true, [0, 4, 2]⟩ : Numeral).Written "-\u0660\u096a2\n" :=
    Numeral.ofWord?_eq_some_iff.1 rfl
  have hv : (⟨false, [3]⟩ : Numeral).Written "\u0663" := Numeral.ofWord?_eq_some_iff.1 rfl
  obtain ⟨hdeclared, hundeclared, hcanonical⟩ : m.variables.contains "\u0663" = true ∧
      m.variables.contains "-\u0660\u096a2\n" = false ∧ m.variables.contains "-42" = false := by
    decide +kernel
  obtain ⟨-, htakes, -, hcanon⟩ := evaluate_numeral
  obtain ⟨-, -, takes⟩ := htakes _ _ hw
  obtain ⟨-, -, refers⟩ := htakes _ _ hv
  obtain ⟨-, -, defines⟩ := htakes _ _ (hcanon (-42)).1
  exact ⟨hdeclared, (takes _ _).value hundeclared (by decide),
    (takes _ _).canonical hundeclared hcanonical (by decide), (refers _ _).reference hdeclared,
    (defines _ _).misdefined _ ["+", ";"] (by decide +kernel)⟩

end FlatForth
