import FlatForth.Run

/-!
One action after another. A run of items is a sequence of its steps and a loop a sequence of its
turns, so both may be cut anywhere (`runItems_append`, `turns_add`).
-/

namespace FlatForth

variable {σ : Type}

namespace Action

def skip : Action σ := .quiet Machine.done

/-- `a` and, unless it fails, `b` on the machine that `a` leaves. -/
def andThen (a b : Action σ) : Action σ := fun m s =>
  let o := a m s
  match o.failure with
  | some _ => o
  | none => b o.machine o.seen

variable {a b : Action σ} {m m' : Machine} {s s' : σ}

theorem andThen_of_done (h : a m s = ⟨m'.done, s'⟩) : a.andThen b m s = b m' s' := by
  simp only [andThen, h, Machine.done]

theorem andThen_of_failure {why : Failure} (h : (a m s).failure = some why) :
    a.andThen b m s = a m s := by
  simp only [andThen, h]

theorem done_or_failure (a : Action σ) (m : Machine) (s : σ) :
    (∃ (m' : Machine) (s' : σ), a m s = ⟨m'.done, s'⟩) ∨ ∃ why, (a m s).failure = some why := by
  rcases h : a m s with ⟨⟨m', _ | why⟩, s'⟩
  · exact .inl ⟨m', s', rfl⟩
  · exact .inr ⟨why, rfl⟩

@[simp] theorem skip_andThen (a : Action σ) : skip.andThen a = a := rfl

@[simp] theorem andThen_skip (a : Action σ) : a.andThen skip = a := by
  funext m s
  rcases a.done_or_failure m s with ⟨m', s', h⟩ | ⟨why, h⟩
  · rw [andThen_of_done h, h]
    rfl
  · exact andThen_of_failure h

theorem andThen_assoc (a b c : Action σ) : (a.andThen b).andThen c = a.andThen (b.andThen c) := by
  funext m s
  rcases a.done_or_failure m s with ⟨m', s', h⟩ | ⟨why, h⟩
  · rw [andThen_of_done h]
    simp only [andThen, h, Machine.done]
  · have hab : (a.andThen b m s).failure = some why := by rwa [andThen_of_failure h]
    rw [andThen_of_failure h, andThen_of_failure hab, andThen_of_failure h]

end Action

section

variable (note : σ → Event → σ) (inner : List Word → Action σ)

theorem runItems_nil : runItems note inner [] = .skip := rfl

theorem runItems_cons (item : Item) (rest : List Item) :
    runItems note inner (item :: rest) =
      (step note inner item).andThen (runItems note inner rest) := rfl

theorem runItems_append (its its' : List Item) :
    runItems note inner (its ++ its') =
      (runItems note inner its).andThen (runItems note inner its') := by
  induction its with
  | nil => rfl
  | cons item rest ih => rw [List.cons_append, runItems_cons, ih, runItems_cons, Action.andThen_assoc]

theorem turns_zero (body : List Word) (index : Int) : turns inner body 0 index = .skip := rfl

theorem turns_succ (body : List Word) (n : Nat) (index : Int) :
    turns inner body (n + 1) index =
      (turn inner body index).andThen (turns inner body n (index + 1)) := rfl

theorem turns_add (body : List Word) (k n : Nat) (index : Int) :
    turns inner body (k + n) index =
      (turns inner body k index).andThen (turns inner body n (index + k)) := by
  induction k generalizing index with
  | zero => simp [turns_zero]
  | succ k ih =>
    rw [Nat.succ_add_eq_add_succ, Nat.add_succ, turns_succ, ih, turns_succ, Action.andThen_assoc,
      show index + 1 + (k : Int) = index + (k + 1 : Nat) by omega]

end

end FlatForth
