import FlatForth.Proofs.Operands
import FlatForth.Proofs.Pairing

/-!
Cells under the stack. A run that does not find the stack too short does not notice what lies under
it: with more cells at the bottom it does the same on top of them (`evaluate_deepen`). A run that
does find it too short may go on to anything when it is deepened.
-/

namespace FlatForth

/-- The machine with `cells` below its stack. -/
def Machine.deepen (m : Machine) (cells : List Cell) : Machine :=
  { m with stack := m.stack ++ cells }

def Ending.deepen (e : Ending) (cells : List Cell) : Ending := ⟨e.machine.deepen cells, e.failure⟩

/-- A machine beside the one with `cells` below its stack. Only the first may underflow. -/
def deepening (cells : List Cell) : Pairing where
  Like m m' := m' = m.deepen cells
  Excused why := why = .fault .underflow

section

variable (cells : List Cell)

theorem apply_deepen (f : StackFunction) (m : Machine) :
    (deepening cells).Ends (m.apply f) ((m.deepen cells).apply f) := by
  unfold Machine.apply
  rw [show (m.deepen cells).stack = m.stack ++ cells from rfl]
  cases h : arguments f.numeric f.arity m.stack with
  | error e =>
    rcases arguments_error_cases h with ⟨rfl, -⟩ | ⟨hnumeric, c, rfl, hc⟩
    · exact .inl ⟨.fault .underflow, rfl, rfl⟩
    · rw [hnumeric, arguments_obstructs (hc.deepen cells)]
      exact .inr ⟨rfl, rfl⟩
  | ok r =>
    obtain ⟨args, below⟩ := r
    rw [arguments_supplies ((supplies_of_arguments h).deepen cells)]
    dsimp only
    cases f.apply args with
    | error e => exact .inr ⟨rfl, rfl⟩
    | ok pushed => exact .inr ⟨rfl, by simp [deepening, Machine.deepen, Machine.done]⟩

theorem declared?_deepen (m : Machine) (c : Cell) :
    (m.deepen cells).declared? c = m.declared? c := Machine.declared?_congr rfl c

theorem fetch_deepen (m : Machine) : (deepening cells).Ends m.fetch (m.deepen cells).fetch := by
  unfold Machine.fetch
  rw [show (m.deepen cells).stack = m.stack ++ cells from rfl]
  cases hs : m.stack with
  | nil => exact .inl ⟨_, rfl, rfl⟩
  | cons c below =>
    simp only [List.cons_append, declared?_deepen]
    split
    · exact .inr ⟨rfl, rfl⟩
    · exact .inr ⟨rfl, rfl⟩

theorem store_deepen (m : Machine) : (deepening cells).Ends m.store (m.deepen cells).store := by
  unfold Machine.store
  rw [show (m.deepen cells).stack = m.stack ++ cells from rfl]
  rcases hs : m.stack with _ | ⟨c, _ | ⟨value, below⟩⟩
  · exact .inl ⟨_, rfl, rfl⟩
  · exact .inl ⟨_, rfl, rfl⟩
  · simp only [List.cons_append, declared?_deepen]
    split <;> exact .inr ⟨rfl, rfl⟩

theorem operand_deepen (stack : List Cell) :
    operand stack = .error .underflow ∨
    (∃ f, operand stack = .error f ∧ operand (stack ++ cells) = .error f) ∨
    ∃ n below, operand stack = .ok (n, below) ∧
      operand (stack ++ cells) = .ok (n, below ++ cells) := by
  rcases stack with _ | ⟨_ | _ | _, below⟩
  · exact .inl rfl
  · exact .inr (.inr ⟨_, below, rfl, rfl⟩)
  · exact .inr (.inl ⟨_, rfl, rfl⟩)
  · exact .inr (.inl ⟨_, rfl, rfl⟩)

theorem bounds_deepen (stack : List Cell) :
    bounds stack = .error .underflow ∨
    (∃ f, bounds stack = .error f ∧ bounds (stack ++ cells) = .error f) ∨
    ∃ start limit below, bounds stack = .ok (start, limit, below) ∧
      bounds (stack ++ cells) = .ok (start, limit, below ++ cells) := by
  rcases stack with _ | ⟨c, _ | ⟨d, below⟩⟩
  · exact .inl rfl
  · cases c <;> exact .inl rfl
  · cases d with
    | int limit =>
      cases c with
      | int start => exact .inr (.inr ⟨start, limit, below, rfl, rfl⟩)
      | ref name => exact .inr (.inl ⟨_, rfl, rfl⟩)
      | text t => exact .inr (.inl ⟨_, rfl, rfl⟩)
    | ref name => cases c <;> exact .inr (.inl ⟨_, rfl, rfl⟩)
    | text t => cases c <;> exact .inr (.inl ⟨_, rfl, rfl⟩)

theorem deepening_lawful : (deepening cells).Lawful where
  declared := by rintro m _ rfl w; rfl
  dictionary := by rintro m _ rfl w; rfl
  push := by rintro m _ rfl c; rfl
  primitive := by
    rintro m _ rfl q
    cases q with
    | function f => exact apply_deepen cells f m
    | innerIndex =>
      change (deepening cells).Ends m.pushInnerIndex (m.deepen cells).pushInnerIndex
      unfold Machine.pushInnerIndex
      rw [show (m.deepen cells).loops = m.loops from rfl]
      split <;> exact .inr ⟨rfl, rfl⟩
    | outerIndex =>
      change (deepening cells).Ends m.pushOuterIndex (m.deepen cells).pushOuterIndex
      unfold Machine.pushOuterIndex
      rw [show (m.deepen cells).loops = m.loops from rfl]
      split <;> exact .inr ⟨rfl, rfl⟩
    | fetch => exact fetch_deepen cells m
    | store => exact store_deepen cells m
  operand := by
    rintro m _ rfl
    rcases operand_deepen cells m.stack with ho | ⟨f, ho, ho'⟩ | ⟨n, below, ho, ho'⟩
    · exact .inl ⟨_, ho, .inl rfl⟩
    · exact .inl ⟨f, ho, .inr ho'⟩
    · exact .inr ⟨n, below, _, ho, ho', rfl⟩
  bounds := by
    rintro m _ rfl
    rcases bounds_deepen cells m.stack with hb | ⟨f, hb, hb'⟩ | ⟨start, limit, below, hb, hb'⟩
    · exact .inl ⟨_, hb, .inl rfl⟩
    · exact .inl ⟨f, hb, .inr hb'⟩
    · exact .inr ⟨start, limit, below, _, hb, hb', rfl⟩
  define := by rintro m _ rfl name e; rfl
  set := by rintro m _ rfl name n; rfl
  enter := by rintro m _ rfl index; rfl
  leave := by rintro m _ n _ rfl rfl; rfl

end

/-- If evaluating a source on `m` does not end in an underflow, then on `m.deepen cells` it ends in
the same failure or in none, on the same machine with `cells` below its stack. -/
theorem evaluate_deepen (m : Machine) (room : Nat) (source : Source) (cells : List Cell)
    (h : (m.evaluate room source).failure ≠ some (.fault .underflow)) :
    (m.deepen cells).evaluate room source = (m.evaluate room source).deepen cells := by
  have hk := Pairing.runWords_keeps (deepening_lawful cells) (fun (_ : Unit) _ => ())
    (fun (_ : Unit) _ => ()) (Nat.le_refl (room + 1)) (.inl rfl) source.queue
  rcases hk m (m.deepen cells) () () rfl with ⟨why, hw, rfl⟩ | ⟨hf, hm⟩
  · exact absurd hw h
  · have hmachine : ((m.deepen cells).evaluate room source).machine =
        (m.evaluate room source).machine.deepen cells := hm
    have hfailure : ((m.deepen cells).evaluate room source).failure =
        (m.evaluate room source).failure := hf.symm
    calc (m.deepen cells).evaluate room source
        = ⟨((m.deepen cells).evaluate room source).machine,
            ((m.deepen cells).evaluate room source).failure⟩ := rfl
      _ = (m.evaluate room source).deepen cells := by rw [hmachine, hfailure]; rfl

/-- The cell at the bottom stays where it is, in a run that goes well and in one that fails. -/
theorem evaluate_deepen_square :
    let m := { Machine.fresh with stack := [.int 3, .ref "x"] }
    (m.evaluate nestingLimit (.text "dup *")).machine.stack = [.int 9, .ref "x"] ∧
      (m.evaluate nestingLimit (.text "dup @")).failure =
        some (.fault (.notVariable (.int 3))) := by
  have h := evaluate_deepen { Machine.fresh with stack := [.int 3] } nestingLimit (.text "dup *")
    [.ref "x"] (by decide +kernel)
  have h' := evaluate_deepen { Machine.fresh with stack := [.int 3] } nestingLimit (.text "dup @")
    [.ref "x"] (by decide +kernel)
  exact ⟨(congrArg (·.machine.stack) h).trans (by decide +kernel),
    (congrArg (·.failure) h').trans (by decide +kernel)⟩

end FlatForth
