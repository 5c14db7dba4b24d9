import FlatForth.Machine

/-!
What works on stack and variables only. The primitives and the numerals do: they look at no word,
and leave words and loops as they are. A primitive declares nothing either: it stores only where
there is a variable already (`primitive_declared`).
-/

namespace FlatForth

/-- The dictionary and the loops do not matter to `f`, and `f` leaves them as they are. -/
def Machine.ByItself (f : Machine → Ending) : Prop :=
  ∀ stack vars dictionary loops, f ⟨stack, vars, dictionary, loops⟩ =
    let e := f ⟨stack, vars, .empty, loops⟩
    ⟨⟨e.machine.stack, e.machine.variables, dictionary, loops⟩, e.failure⟩

theorem primitive_byItself (p : Primitive) : Machine.ByItself p.run := by
  intro stack vars dictionary loops
  have declared (c : Cell) : Machine.declared? ⟨stack, vars, dictionary, loops⟩ c =
      Machine.declared? ⟨stack, vars, .empty, loops⟩ c := Machine.declared?_congr rfl c
  cases p with
  | function f =>
    simp only [Primitive.run, Machine.apply]
    split
    · rfl
    · split <;> rfl
  | innerIndex => cases loops <;> rfl
  | outerIndex => rcases loops with _ | ⟨i, _ | ⟨j, loops⟩⟩ <;> rfl
  | fetch =>
    simp only [Primitive.run, Machine.fetch, declared]
    split
    · rfl
    · split <;> rfl
  | store =>
    simp only [Primitive.run, Machine.store, declared]
    split
    · split <;> rfl
    · rfl

theorem pushNumeral_byItself (w : Word) : Machine.ByItself (Machine.pushNumeral w) := by
  intro stack vars dictionary loops
  simp only [Machine.pushNumeral]
  split
  · rfl
  · split <;> rfl

theorem pushNumeral_variables (w : Word) (m : Machine) :
    (m.pushNumeral w).machine.variables = m.variables := by
  unfold Machine.pushNumeral
  split
  · rfl
  · split <;> rfl

theorem primitive_dictionary (p : Primitive) (m : Machine) :
    (p.run m).machine.dictionary = m.dictionary := by
  rw [primitive_byItself p m.stack m.variables m.dictionary m.loops]

theorem primitive_declared (p : Primitive) (m : Machine) (w : Word) :
    (p.run m).machine.variables.contains w = m.variables.contains w := by
  have same {e e' : Ending} (h : e = e') :
      e.machine.variables.contains w = e'.machine.variables.contains w := by rw [h]
  cases p with
  | function f =>
    rcases m.apply_cases f with ⟨e, -, h⟩ | ⟨args, below, -, ⟨e, -, h⟩ | ⟨cells, -, h⟩⟩
    · exact same h
    · exact same h
    · exact same h
  | innerIndex =>
    rcases m.pushInnerIndex_cases with h | ⟨i, h⟩
    · exact same h
    · exact same h
  | outerIndex =>
    rcases m.pushOuterIndex_cases with h | ⟨j, h⟩
    · exact same h
    · exact same h
  | fetch =>
    rcases m.fetch_cases with h | ⟨c, below, -, -, h⟩ | ⟨name, n, below, -, -, h⟩
    · exact same h
    · exact same h
    · exact same h
  | store =>
    rcases m.store_cases with h | ⟨c, below, -, -, h⟩ | ⟨name, value, below, -, h⟩ |
      ⟨name, n, below, -, hname, h⟩
    · exact same h
    · exact same h
    · exact same h
    · refine (same h).trans ?_
      change (m.variables.insert name n).contains w = _
      rw [Table.contains_insert]
      by_cases hw : w = name
      · rw [hw, hname, Bool.or_true]
      · rw [decide_eq_false hw, Bool.false_or]

end FlatForth
