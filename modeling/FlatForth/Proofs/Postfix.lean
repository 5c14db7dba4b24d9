import FlatForth.Proofs.Decimal
import FlatForth.Proofs.TreeRun
import FlatForth.Proofs.WellFormed

/-!
Arithmetic in postfix. The words of an expression are those of a tree, so they are run as the tree
is; what comes out is the value of the expression, or the fault of the first zero divisor that it
comes to (`run_tree`). Only conditions nest bodies, one level each, and that is the one way for an
expression to fail that has a value (`tower_too_deep`).
-/

namespace FlatForth

theorem Machine.apply_binary (f : Int → Int → Except Fault Int) (a b : Int) (m : Machine) :
    ((m.push (.int a)).push (.int b)).apply (.binary f) =
      match f a b with
      | .error e => m.fault e
      | .ok n => (m.push (.int n)).done := by
  simp only [apply, StackFunction.binary, push, arguments, Cell.isInt, Bool.not_true, Bool.and_false,
    Bool.false_eq_true, if_false]
  cases f a b <;> rfl

inductive Operator where
  | add
  | subtract
  | multiply
  | divide
  | equal
  | less
  | greater

namespace Operator

def word : Operator → Word
  | add => "+"
  | subtract => "-"
  | multiply => "*"
  | divide => "/"
  | equal => "="
  | less => "<"
  | greater => ">"

/-- There is no quotient by zero, and any other is rounded down. Truth is -1. -/
def value? (a b : Int) : Operator → Option Int
  | add => some (a + b)
  | subtract => some (a - b)
  | multiply => some (a * b)
  | divide => if b = 0 then none else some (a.fdiv b)
  | equal => some (if a = b then -1 else 0)
  | less => some (if a < b then -1 else 0)
  | greater => some (if a > b then -1 else 0)

def function : Operator → StackFunction
  | add => .add
  | subtract => .subtract
  | multiply => .multiply
  | divide => .divide
  | equal => .equal
  | less => .less
  | greater => .greater

theorem find?_builtins (op : Operator) :
    builtins.find? op.word = some (.primitive (.function op.function)) := by
  cases op <;> rfl

theorem word_not_keyword (op : Operator) : op.word ∉ Keyword.all := by
  cases op <;> decide

theorem word_legible (op : Operator) : op.word.Legible := by
  cases op <;> decide +kernel

theorem apply_function (op : Operator) (a b : Int) (m : Machine) :
    ((m.push (.int a)).push (.int b)).apply op.function =
      match op.value? a b with
      | some n => (m.push (.int n)).done
      | none => m.fault .zeroDivisor := by
  cases op with
  | add | subtract | multiply => exact m.apply_binary _ a b
  | equal | less | greater =>
    refine (m.apply_binary _ a b).trans ?_
    simp [value?, StackFunction.truth]
  | divide =>
    refine (m.apply_binary _ a b).trans ?_
    by_cases hb : b = 0
    · simp [value?, hb]
    · simp [value?, hb]

/-- `q` is the quotient exactly if the remainder has the sign of the divisor and a smaller
magnitude. -/
theorem divide_eq_some_iff (a b q : Int) :
    divide.value? a b = some q ↔
      ∃ r, a = q * b + r ∧ (0 ≤ r ∧ r < b ∨ b < r ∧ r ≤ 0) := by
  have hvalue (hb : b ≠ 0) : divide.value? a b = some q ↔ a.fdiv b = q := by simp [value?, hb]
  rcases Int.lt_trichotomy b 0 with hb | rfl | hb
  · rw [hvalue (by omega)]
    constructor
    · intro hq
      obtain ⟨hr, hrange⟩ := (Int.fdiv_fmod_unique' hb).1 ⟨hq, rfl⟩
      exact ⟨a.fmod b, hr.symm.trans (by rw [Int.mul_comm b q, Int.add_comm]), .inr hrange⟩
    · rintro ⟨r, ha, hrange⟩
      have hr : b < r ∧ r ≤ 0 := by omega
      exact ((Int.fdiv_fmod_unique' hb).2
        ⟨by rw [ha, Int.mul_comm b q, Int.add_comm], hr⟩).1
  · refine ⟨fun h => by simp [value?] at h, ?_⟩
    rintro ⟨r, -, hrange⟩
    omega
  · rw [hvalue (by omega)]
    constructor
    · intro hq
      obtain ⟨hr, hrange⟩ := (Int.fdiv_fmod_unique hb).1 ⟨hq, rfl⟩
      exact ⟨a.fmod b, hr.symm.trans (by rw [Int.mul_comm b q, Int.add_comm]), .inl hrange⟩
    · rintro ⟨r, ha, hrange⟩
      have hr : 0 ≤ r ∧ r < b := by omega
      exact ((Int.fdiv_fmod_unique hb).2
        ⟨by rw [ha, Int.mul_comm b q, Int.add_comm], hr⟩).1

end Operator

/-- An integer whose decimal text is within the limit. -/
structure Literal where
  value : Int
  short : value.natAbs.repr.length ≤ Numeral.digitLimit

def Literal.word (l : Literal) : Word := l.value.repr

inductive Expr where
  | literal (l : Literal)
  | apply (op : Operator) (first second : Expr)
  | cond (test whenTrue whenFalse : Expr)

namespace Expr

/-- The words of an expression, operators behind their operands. -/
def render : Expr → List Word
  | literal l => [l.word]
  | apply op a b => a.render ++ b.render ++ [op.word]
  | cond c a b =>
    c.render ++ Keyword.branch :: (a.render ++ Keyword.otherwise :: (b.render ++ [Keyword.endBranch]))

/-- The value, worked out from left to right, unless there is a division by zero in the course. -/
def value? : Expr → Option Int
  | literal l => some l.value
  | apply op a b => a.value?.bind fun x => b.value?.bind fun y => op.value? x y
  | cond c a b => c.value?.bind fun n => if n ≠ 0 then a.value? else b.value?

/-- How deep the parts of conditions nest in each other. -/
def nesting : Expr → Nat
  | literal _ => 0
  | apply _ a b => max a.nesting b.nesting
  | cond c a b => max c.nesting (max a.nesting b.nesting + 1)

/-- `m` has no variable or entry named like a literal of the expression, and its operators mean what
they mean to a fresh machine. -/
def Clear (m : Machine) : Expr → Prop
  | literal l => m.variables.contains l.word = false ∧ m.dictionary.find? l.word = none
  | apply op a b => a.Clear m ∧ b.Clear m ∧
    m.variables.contains op.word = false ∧ m.dictionary.find? op.word = builtins.find? op.word
  | cond c a b => c.Clear m ∧ a.Clear m ∧ b.Clear m

theorem Clear.push {m : Machine} {e : Expr} (h : e.Clear m) (c : Cell) : e.Clear (m.push c) := by
  induction e with
  | literal l => exact h
  | apply op a b iha ihb => exact ⟨iha h.1, ihb h.2.1, h.2.2⟩
  | cond c a b ihc iha ihb => exact ⟨ihc h.1, iha h.2.1, ihb h.2.2⟩

theorem clear_fresh (e : Expr) : e.Clear .fresh := by
  induction e with
  | literal l =>
    refine ⟨rfl, Option.eq_none_iff_forall_ne_some.2 fun entry he => ?_⟩
    have hname : Machine.fresh.dictionary.contains l.word = true := by
      rw [Table.contains, he]
      rfl
    have hnot := (Machine.fresh_wellFormed.names l.word hname).1
    rw [Literal.word, isNumeral_repr] at hnot
    cases hnot
  | apply op a b iha ihb => exact ⟨iha, ihb, rfl, rfl⟩
  | cond c a b ihc iha ihb => exact ⟨ihc, iha, ihb⟩

def tree : Expr → Tree false
  | literal l => .word ⟨l.word, repr_not_keyword l.value⟩
  | apply op a b => .seq (.seq a.tree b.tree) (.word ⟨op.word, op.word_not_keyword⟩)
  | cond c a b => .seq c.tree (.fork a.tree b.tree)

theorem flatten_tree (e : Expr) : e.tree.flatten = e.render := by
  induction e with
  | literal l => rfl
  | apply op a b iha ihb => simp [tree, Tree.flatten, render, iha, ihb]
  | cond c a b ihc iha ihb => simp [tree, Tree.flatten, render, ihc, iha, ihb]

theorem render_ne_nil (e : Expr) : e.render ≠ [] := by
  cases e <;> simp [render]

theorem render_legible (e : Expr) : ∀ w ∈ e.render, w.Legible := by
  have keyword : ∀ w ∈ Keyword.all, w.Legible := by decide +kernel
  induction e with
  | literal l =>
    intro w hw
    exact List.mem_singleton.1 hw ▸ repr_legible l.value
  | apply op a b iha ihb =>
    intro w hw
    simp only [render, List.mem_append, List.mem_singleton] at hw
    rcases hw with (hw | hw) | rfl
    · exact iha w hw
    · exact ihb w hw
    · exact op.word_legible
  | cond c a b ihc iha ihb =>
    intro w hw
    simp only [render, List.mem_append, List.mem_cons, List.not_mem_nil, or_false] at hw
    rcases hw with hw | rfl | hw | rfl | hw | rfl
    · exact ihc w hw
    · exact keyword _ (by decide)
    · exact iha w hw
    · exact keyword _ (by decide)
    · exact ihb w hw
    · exact keyword _ (by decide)

end Expr

/-- `e` leaves the value on top of the stack of `m` or, if there is none, is the fault of a zero
divisor with some cells left on that stack. -/
def Machine.WorksOut (m : Machine) : Option Int → Ending → Prop
  | some n, e => e = Machine.done { m with stack := .int n :: m.stack }
  | none, e => ∃ cells, e = Machine.fault { m with stack := cells ++ m.stack } .zeroDivisor

theorem Machine.WorksOut.eq_push {m : Machine} {n : Int} {e : Ending} (h : m.WorksOut (some n) e) :
    e = (m.push (.int n)).done := h

theorem Ending.done_andThen (m : Machine) (f : Machine → Ending) : m.done.andThen f = f m := rfl

/-- The cells that such a failure leaves may be counted from further down. -/
theorem Machine.WorksOut.under {m : Machine} {c : Cell} {e : Ending}
    (h : (m.push c).WorksOut none e) : m.WorksOut none e := by
  obtain ⟨cells, rfl⟩ := h
  exact ⟨cells ++ [c], by simp [push]⟩

theorem Machine.WorksOut.andThen_none {m : Machine} {e : Ending} (h : m.WorksOut none e)
    (f : Machine → Ending) : m.WorksOut none (e.andThen f) := by
  obtain ⟨cells, rfl⟩ := h
  exact ⟨cells, rfl⟩

namespace Expr

variable {m : Machine} {depth : Nat}

theorem run_literal {l : Literal} (h : (literal l).Clear m) :
    (Task.tree (literal l).tree).run depth m = (m.push (.int l.value)).done := by
  rw [tree, Task.run_word, h.1, h.2]
  exact pushNumeral_repr l.short m

theorem run_operator {op : Operator} (hv : m.variables.contains op.word = false)
    (hd : m.dictionary.find? op.word = builtins.find? op.word) :
    (Task.tree (.word ⟨op.word, op.word_not_keyword⟩ : Tree false)).run depth m =
      m.apply op.function := by
  rw [Task.run_word, hv, hd, op.find?_builtins]
  rfl

theorem run_part {e : Expr} (hd : 0 < depth) :
    Task.runPart depth m e.tree = (Task.tree e.tree).run (depth - 1) m := by
  rw [Task.runPart, if_neg (e.flatten_tree ▸ e.render_ne_nil), ← Task.runWithin_flatten,
    Nat.sub_add_cancel hd]

theorem run_fork_push (n : Int) (a b : Tree false) :
    (Task.tree (.fork a b)).run depth (m.push (.int n)) =
      Task.runPart depth m (if n ≠ 0 then a else b) := Task.run_fork depth _ a b

theorem run_apply {op : Operator} {x y : Int} (hv : m.variables.contains op.word = false)
    (hd : m.dictionary.find? op.word = builtins.find? op.word) :
    m.WorksOut (op.value? x y)
      ((Task.tree (.word ⟨op.word, op.word_not_keyword⟩ : Tree false)).run depth
        ((m.push (.int x)).push (.int y))) := by
  rw [run_operator (m := (m.push (.int x)).push (.int y)) hv hd, op.apply_function]
  cases op.value? x y with
  | none => exact ⟨[], rfl⟩
  | some n => rfl

theorem run_tree (e : Expr) (h : e.Clear m) (hd : e.nesting ≤ depth) :
    m.WorksOut e.value? ((Task.tree e.tree).run depth m) := by
  induction e generalizing m depth with
  | literal l => exact run_literal h
  | apply op a b iha ihb =>
    obtain ⟨ha, hb, hv, hop⟩ := h
    have first := iha ha (Nat.le_trans (Nat.le_max_left _ _) hd)
    rw [tree, Task.run_seq, Task.run_seq, value?]
    cases hx : a.value? with
    | none =>
      rw [hx] at first
      exact (first.andThen_none _).andThen_none _
    | some x =>
      rw [hx] at first
      have second := ihb (hb.push (.int x)) (Nat.le_trans (Nat.le_max_right _ _) hd)
      rw [first.eq_push, Ending.done_andThen]
      cases hy : b.value? with
      | none =>
        rw [hy] at second
        exact (second.andThen_none _).under
      | some y =>
        rw [hy] at second
        rw [second.eq_push, Ending.done_andThen]
        exact run_apply hv hop
  | cond c a b ihc iha ihb =>
    obtain ⟨hc, ha, hb⟩ := h
    have hparts : max a.nesting b.nesting + 1 ≤ depth := Nat.le_trans (Nat.le_max_right _ _) hd
    have test := ihc hc (Nat.le_trans (Nat.le_max_left _ _) hd)
    rw [tree, Task.run_seq, value?]
    cases hn : c.value? with
    | none =>
      rw [hn] at test
      exact test.andThen_none _
    | some n =>
      rw [hn] at test
      rw [test.eq_push, Ending.done_andThen, run_fork_push, Option.bind_some]
      split
      · rw [run_part (by omega)]
        exact iha ha (by omega)
      · rw [run_part (by omega)]
        exact ihb hb (by omega)

end Expr

/-- Let the words of `e` be `Clear` on `m`. Given as a list or as a text, their run `WorksOut` the
value of `e`, at every depth above the nesting of `e` and wherever it does not end in
`nestedTooDeep`. The value of a quotient is the one that is rounded down. -/
theorem evaluate_postfix (e : Expr) {m : Machine} (h : e.Clear m) :
    (Source.words e.render).queue = e.render ∧
    (Source.text (" ".intercalate e.render)).queue = e.render ∧
    (∀ source : Source, source.queue = e.render →
      (∀ depth > e.nesting, m.WorksOut e.value? (m.runWithin depth source.queue)) ∧
      ∀ room, ((m.evaluate room source).failure ≠ some .nestedTooDeep →
          m.WorksOut e.value? (m.evaluate room source)) ∧
        (e.nesting ≤ room → m.WorksOut e.value? (m.evaluate room source))) ∧
    ∀ a b q, Operator.divide.value? a b = some q ↔
      ∃ r, a = q * b + r ∧ (0 ≤ r ∧ r < b ∨ b < r ∧ r ≤ 0) := by
  have run (depth : Nat) (hd : depth > e.nesting) :
      m.WorksOut e.value? (m.runWithin depth e.render) := by
    obtain ⟨depth, rfl⟩ : ∃ n, depth = n + 1 := ⟨depth - 1, by omega⟩
    rw [← e.flatten_tree, Task.runWithin_flatten]
    exact e.run_tree h (by omega)
  refine ⟨queue_words_legible e.render_legible, queue_text_legible e.render_legible,
    fun source hs => ⟨hs ▸ run, fun room => ⟨fun hdeep => ?_, fun hn => ?_⟩⟩,
    Operator.divide_eq_some_iff⟩
  · have hsame : m.runWithin (max (room + 1) (e.nesting + 1)) source.queue = m.evaluate room source :=
      runWords_deeper unwatched unwatched (Nat.le_max_left _ _) hdeep ()
    rw [← hsame, hs]
    exact run _ (Nat.lt_of_lt_of_le (Nat.lt_succ_self _) (Nat.le_max_right _ _))
  · unfold Machine.evaluate
    exact hs ▸ run (room + 1) (Nat.lt_succ_of_le hn)

/-- `7 2 - 0 if 1 0 / else -7 2 / then *`: the quotient by zero is not worked out. -/
theorem evaluate_postfix_lazy :
    let lit (n : Int) (h : n.natAbs.repr.length ≤ Numeral.digitLimit) : Expr := .literal ⟨n, h⟩
    let e : Expr := .apply .multiply (.apply .subtract (lit 7 (by decide)) (lit 2 (by decide)))
      (.cond (lit 0 (by decide)) (.apply .divide (lit 1 (by decide)) (lit 0 (by decide)))
        (.apply .divide (lit (-7) (by decide)) (lit 2 (by decide))))
    e.Clear .fresh ∧ e.value? = some (-20) ∧
      Machine.fresh.evaluate nestingLimit (.text "7 2 - 0 if 1 0 / else -7 2 / then *") =
        Machine.done { Machine.fresh with stack := [.int (-20)] } := by
  intro lit e
  obtain ⟨-, -, hrun, -⟩ := evaluate_postfix e e.clear_fresh
  have hq : (Source.text "7 2 - 0 if 1 0 / else -7 2 / then *").queue = e.render := by
    decide +kernel
  exact ⟨e.clear_fresh, rfl, ((hrun _ hq).2 nestingLimit).2 (by decide)⟩

/-! Conditions within conditions. -/

namespace Expr

def zero : Expr := .literal ⟨0, by decide⟩
def one : Expr := .literal ⟨1, by decide⟩

/-- `n` conditions, each in the part of the one before that is run. -/
def tower : Nat → Expr
  | 0 => one
  | n + 1 => .cond one (tower n) zero

theorem value?_tower (n : Nat) : (tower n).value? = some 1 := by
  induction n with
  | zero => rfl
  | succ n ih => exact ih

theorem tower_too_deep {m : Machine} (h1 : one.Clear m) {n depth : Nat} (hd : depth ≤ n) :
    (m.runWithin depth (tower n).render).failure = some .nestedTooDeep := by
  induction n generalizing depth with
  | zero =>
    obtain rfl : depth = 0 := by omega
    rfl
  | succ n ih =>
    cases depth with
    | zero => rfl
    | succ depth =>
      have htest : (Task.tree one.tree).run depth m = (m.push (.int 1)).done := run_literal h1
      rw [← flatten_tree, Task.runWithin_flatten, tower, tree, Task.run_seq, htest,
        Ending.done_andThen, run_fork_push, if_pos (by decide), Task.runPart, flatten_tree,
        if_neg (tower n).render_ne_nil]
      exact ih (by omega)

end Expr

theorem tower_not_worked_out {room n : Nat} (hn : room < n) {source : Source}
    (hs : source.queue = (Expr.tower n).render) :
    (Machine.fresh.evaluate room source).failure = some .nestedTooDeep ∧
      ¬Machine.fresh.WorksOut (Expr.tower n).value? (Machine.fresh.evaluate room source) := by
  have hdeep : (Machine.fresh.evaluate room source).failure = some .nestedTooDeep := by
    rw [Machine.evaluate, hs]
    exact Expr.tower_too_deep Expr.one.clear_fresh hn
  refine ⟨hdeep, fun hworks => ?_⟩
  rw [Expr.value?_tower] at hworks
  have hdone := hdeep.symm.trans (congrArg (·.failure) hworks)
  cases hdone

/-- Two thousand conditions within each other have a value, but nest too deep. -/
theorem tower_two_thousand_too_deep :
    (Expr.tower 2000).Clear .fresh ∧ (Expr.tower 2000).value? = some 1 ∧
      (Machine.fresh.evaluate nestingLimit
        (.text (" ".intercalate (Expr.tower 2000).render))).failure = some .nestedTooDeep ∧
      ¬Machine.fresh.WorksOut (Expr.tower 2000).value? (Machine.fresh.evaluate nestingLimit
        (.text (" ".intercalate (Expr.tower 2000).render))) :=
  ⟨(Expr.tower 2000).clear_fresh, Expr.value?_tower 2000,
    tower_not_worked_out (by decide) (queue_text_legible (Expr.tower 2000).render_legible)⟩

end FlatForth
