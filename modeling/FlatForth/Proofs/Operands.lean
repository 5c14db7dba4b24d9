import FlatForth.Machine

/-!
What is found on the stack. Of the three answers that a function can get when it asks for its
arguments, the stack alone decides which it is: there are too few cells, or one of them is in the
way, or they are supplied (`arguments_supplies`, `arguments_obstructs`, `arguments_short`, and no
other answer by `arguments_answer`).
-/

namespace FlatForth

/-- The stack is `args`, `n` cells with the top one first, on `below`. If `numeric` is set, the
arguments are integers. -/
structure Supplies (numeric : Bool) (n : Nat) (stack args below : List Cell) : Prop where
  stack_eq : stack = args ++ below
  length_eq : args.length = n
  integers : numeric = true → ∀ c ∈ args, c.isInt = true

/-- `c` is the deepest of the `n` topmost cells that is no integer. -/
def Obstructs (n : Nat) (stack : List Cell) (c : Cell) : Prop :=
  ∃ above deeper below, stack = above ++ c :: deeper ++ below ∧ (above ++ c :: deeper).length = n ∧
    c.isInt = false ∧ ∀ d ∈ deeper, d.isInt = true

section

variable {numeric : Bool} {n : Nat} {stack args below : List Cell}

theorem Supplies.cons (h : Supplies numeric n stack args below) {c : Cell}
    (hc : numeric = true → c.isInt = true) :
    Supplies numeric (n + 1) (c :: stack) (c :: args) below where
  stack_eq := by simp [h.stack_eq]
  length_eq := by simp [h.length_eq]
  integers hnumeric := List.forall_mem_cons.2 ⟨hc hnumeric, h.integers hnumeric⟩

theorem Obstructs.cons {c : Cell} (h : Obstructs n stack c) (d : Cell) :
    Obstructs (n + 1) (d :: stack) c := by
  obtain ⟨above, deeper, below, hstack, hlength, hc, hdeeper⟩ := h
  exact ⟨d :: above, deeper, below, by simp [hstack], by simp [← hlength], hc, hdeeper⟩

theorem Obstructs.mem {c : Cell} (h : Obstructs n stack c) : c ∈ stack := by
  obtain ⟨above, deeper, below, rfl, -⟩ := h
  simp

theorem Supplies.deepen (h : Supplies numeric n stack args below) (cells : List Cell) :
    Supplies numeric n (stack ++ cells) args (below ++ cells) where
  stack_eq := by simp [h.stack_eq]
  length_eq := h.length_eq
  integers := h.integers

theorem Obstructs.deepen {c : Cell} (h : Obstructs n stack c) (cells : List Cell) :
    Obstructs n (stack ++ cells) c := by
  obtain ⟨above, deeper, below, rfl, hlength, hc, hdeeper⟩ := h
  exact ⟨above, deeper, below ++ cells, by simp, hlength, hc, hdeeper⟩

theorem arguments_short (h : stack.length < n) : arguments numeric n stack = .error .underflow := by
  induction n generalizing stack with
  | zero => simp at h
  | succ n ih =>
    cases stack with
    | nil => rfl
    | cons c stack =>
      have hlower : stack.length < n := by simpa using h
      simp [arguments, ih hlower]

theorem arguments_supplies (h : Supplies numeric n stack args below) :
    arguments numeric n stack = .ok (args, below) := by
  obtain ⟨rfl, rfl, hints⟩ := h
  induction args with
  | nil => rfl
  | cons c args ih =>
    have hlower := ih fun hnumeric d hd => hints hnumeric d (List.mem_cons_of_mem c hd)
    have hc : (numeric && !c.isInt) = false := by
      cases hnumeric : numeric with
      | false => rfl
      | true => simp [hints hnumeric c List.mem_cons_self]
    simp [arguments, hlower, hc]

theorem arguments_obstructs {c : Cell} (h : Obstructs n stack c) :
    arguments true n stack = .error (.notNumber c) := by
  obtain ⟨above, deeper, below, rfl, rfl, hc, hdeeper⟩ := h
  induction above with
  | nil =>
    have hlower : arguments true deeper.length (deeper ++ below) = .ok (deeper, below) :=
      arguments_supplies ⟨rfl, rfl, fun _ => hdeeper⟩
    simp [arguments, hlower, hc]
  | cons d above ih =>
    have hlower : arguments true (above.length + (deeper.length + 1))
        (above ++ c :: (deeper ++ below)) = .error (.notNumber c) := by simpa using ih
    simp [arguments, hlower]

/-- A stack that is long enough `Supplies` arguments, unless one of them `Obstructs` it. -/
theorem arguments_answer (numeric : Bool) (n : Nat) (stack : List Cell) :
    stack.length < n ∨ (∃ args below, Supplies numeric n stack args below) ∨
      numeric = true ∧ ∃ c, Obstructs n stack c := by
  induction n generalizing stack with
  | zero => exact .inr (.inl ⟨[], stack, rfl, rfl, by simp⟩)
  | succ n ih =>
    cases stack with
    | nil => exact .inl (by simp)
    | cons c stack =>
      rcases ih stack with hshort | ⟨args, below, hargs⟩ | ⟨hnumeric, d, hd⟩
      · exact .inl (by simpa using hshort)
      · by_cases hc : numeric = true → c.isInt = true
        · exact .inr (.inl ⟨c :: args, below, hargs.cons hc⟩)
        · obtain ⟨hnumeric, hnot⟩ := Classical.not_imp.1 hc
          refine .inr (.inr ⟨hnumeric, c, [], args, below, ?_, ?_, by simpa using hnot, ?_⟩)
          · simp [hargs.stack_eq]
          · simp [hargs.length_eq]
          · exact hargs.integers hnumeric
      · exact .inr (.inr ⟨hnumeric, d, hd.cons c⟩)

theorem supplies_of_arguments (h : arguments numeric n stack = .ok (args, below)) :
    Supplies numeric n stack args below := by
  rcases arguments_answer numeric n stack with hshort | ⟨args', below', hargs⟩ | ⟨rfl, c, hc⟩
  · rw [arguments_short hshort] at h
    cases h
  · rw [arguments_supplies hargs] at h
    cases h
    exact hargs
  · rw [arguments_obstructs hc] at h
    cases h

theorem arguments_error_cases {f : Fault} (h : arguments numeric n stack = .error f) :
    (f = .underflow ∧ stack.length < n) ∨
      numeric = true ∧ ∃ c, f = .notNumber c ∧ Obstructs n stack c := by
  rcases arguments_answer numeric n stack with hshort | ⟨args, below, hargs⟩ | ⟨rfl, c, hc⟩
  · rw [arguments_short hshort] at h
    cases h
    exact .inl ⟨rfl, hshort⟩
  · rw [arguments_supplies hargs] at h
    cases h
  · rw [arguments_obstructs hc] at h
    cases h
    exact .inr ⟨rfl, c, rfl, hc⟩

theorem arguments_eq_error {f : Fault} (h : arguments numeric n stack = .error f) :
    f = .underflow ∨ ∃ c ∈ stack, f = .notNumber c :=
  (arguments_error_cases h).imp And.left fun ⟨_, c, hf, hc⟩ => ⟨c, hc.mem, hf⟩

end

namespace Machine

variable {m : Machine} {f : StackFunction}

theorem apply_short (h : m.stack.length < f.arity) : m.apply f = m.fault .underflow := by
  rw [apply, arguments_short h]

theorem apply_obstructs {c : Cell} (hnumeric : f.numeric = true) (h : Obstructs f.arity m.stack c) :
    m.apply f = m.fault (.notNumber c) := by
  rw [apply, hnumeric, arguments_obstructs h]

section

variable {args below : List Cell} (h : Supplies f.numeric f.arity m.stack args below)

include h

theorem apply_eq_fault {why : Fault} (hwhy : f.apply args = .error why) :
    m.apply f = fault { m with stack := below } why := by
  simp [apply, arguments_supplies h, hwhy]

theorem apply_eq_done {cells : List Cell} (hcells : f.apply args = .ok cells) :
    m.apply f = done { m with stack := cells.reverse ++ below } := by
  simp [apply, arguments_supplies h, hcells]

end

end Machine

end FlatForth
