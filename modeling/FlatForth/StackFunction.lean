import FlatForth.Fault

/-!
Functions of the topmost cells. Their arguments are checked before any is popped, so a call that is
refused leaves the stack as it was; a function that fails by itself has lost its arguments.
-/

namespace FlatForth

/-- `apply` is given `arity` cells, the top one first, integers all of them if `numeric` is set. It
answers with the cells to push, the first of them lowest. -/
structure StackFunction where
  arity : Nat
  numeric : Bool
  apply : List Cell → Except Fault (List Cell)

/-- What a function of the host gives back. -/
inductive Returned where
  | nothing
  | integer (n : Int)
  | row (cells : List Cell)

def Returned.cells : Returned → List Cell
  | nothing => []
  | integer n => [.int n]
  | row cells => cells

/-- A function of the host, which is called with so many cells and does not fail. -/
def StackFunction.ofHost (n : Nat) (integers : Bool) (f : List Cell → Returned) : StackFunction :=
  ⟨n, integers, fun args => .ok (f args).cells⟩

/-- The topmost cells, top first, and those below. Too few cells are reported before a cell that is
no integer, and of several of those the deepest. For integers this is `_pop_integers`, else
`_require` and as many times `_pop`. -/
def arguments (numeric : Bool) : Nat → List Cell → Except Fault (List Cell × List Cell)
  | 0, below => .ok ([], below)
  | _ + 1, [] => .error .underflow
  | n + 1, c :: stack =>
    match arguments numeric n stack with
    | .error f => .error f
    | .ok (args, below) =>
      if numeric && !c.isInt then .error (.notNumber c) else .ok (c :: args, below)

/-- `_pop_integers` of one cell: the integer on top, and the cells below. -/
def operand : List Cell → Except Fault (Int × List Cell)
  | [] => .error .underflow
  | .int n :: below => .ok (n, below)
  | c :: _ => .error (.notNumber c)

/-- `_pop_integers` of two cells: the start on top, the limit under it, and the cells below. -/
def bounds : List Cell → Except Fault (Int × Int × List Cell)
  | .int start :: .int limit :: below => .ok (start, limit, below)
  | c :: .int _ :: _ => .error (.notNumber c)
  | _ :: c :: _ => .error (.notNumber c)
  | _ => .error .underflow

theorem operand_eq_ok {stack below : List Cell} {n : Int} (h : operand stack = .ok (n, below)) :
    stack = .int n :: below := by
  unfold operand at h
  split at h <;> simp_all

theorem bounds_eq_ok {stack below : List Cell} {start limit : Int}
    (h : bounds stack = .ok (start, limit, below)) :
    stack = .int start :: .int limit :: below := by
  unfold bounds at h
  split at h <;> simp_all

theorem operand_eq_error {stack : List Cell} {f : Fault} (h : operand stack = .error f) :
    f = .underflow ∨ ∃ c ∈ stack, f = .notNumber c := by
  unfold operand at h
  split at h <;> cases h
  · exact .inl rfl
  · exact .inr ⟨_, List.mem_cons_self, rfl⟩

theorem bounds_eq_error {stack : List Cell} {f : Fault} (h : bounds stack = .error f) :
    f = .underflow ∨ ∃ c ∈ stack, f = .notNumber c := by
  unfold bounds at h
  split at h <;> cases h
  · exact .inr ⟨_, List.mem_cons_self, rfl⟩
  · exact .inr ⟨_, List.mem_cons_of_mem _ List.mem_cons_self, rfl⟩
  · exact .inl rfl

namespace StackFunction

/-! Truth is all bits set, and any other value but zero passes for it. -/

def truth (b : Bool) : Int := if b then -1 else 0

/-- A function of two integers; the second operand is on top. -/
def binary (f : Int → Int → Except Fault Int) : StackFunction where
  arity := 2
  numeric := true
  apply
    | [.int b, .int a] => (f a b).map fun n => [.int n]
    | _ => .ok []

theorem binary_eq_error {f : Int → Int → Except Fault Int} {args : List Cell} {why : Fault}
    (h : (binary f).apply args = .error why) :
    ∃ a b, args = [.int b, .int a] ∧ f a b = .error why := by
  simp only [binary] at h
  split at h
  · rename_i b a
    cases hn : f a b with
    | error e => exact ⟨a, b, rfl, by simpa [hn, Except.map] using h⟩
    | ok n => simp [hn, Except.map] at h
  · cases h

def add : StackFunction := binary fun a b => .ok (a + b)
def subtract : StackFunction := binary fun a b => .ok (a - b)
def multiply : StackFunction := binary fun a b => .ok (a * b)
def divide : StackFunction :=
  binary fun a b => if b = 0 then .error .zeroDivisor else .ok (a.fdiv b)
def equal : StackFunction := binary fun a b => .ok (truth (a = b))
def less : StackFunction := binary fun a b => .ok (truth (a < b))
def greater : StackFunction := binary fun a b => .ok (truth (a > b))

/-- A function that moves cells of any kind about. -/
def shuffle (arity : Nat) (f : List Cell → List Cell) : StackFunction where
  arity
  numeric := false
  apply args := .ok (f args)

def dup : StackFunction := shuffle 1 fun args => args ++ args
def drop : StackFunction := shuffle 1 fun _ => []
def swap : StackFunction := shuffle 2 id
def «over» : StackFunction := shuffle 2 fun args => args.reverse ++ args.drop 1

end StackFunction

end FlatForth
