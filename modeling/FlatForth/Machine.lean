import FlatForth.StackFunction
import FlatForth.Table

/-!
The machine, and the words it runs by itself. A definition is kept as the words it was given, so
what they mean is looked up whenever they are run.
-/

namespace FlatForth

/-- What a machine does by itself, without reading words. -/
inductive Primitive where
  | function (f : StackFunction)
  | innerIndex
  | outerIndex
  | fetch
  | store

/-- What a dictionary holds under a name. A probe does nothing but show the loops that are running
to whoever watches. -/
inductive Entry where
  | primitive (p : Primitive)
  | probe
  | words (body : List Word)

/-- The stack has its top first, and the running loops are innermost first. -/
structure Machine where
  stack : List Cell
  «variables» : Table Int
  dictionary : Table Entry
  loops : List Int

/-- The machine that is left, and what stopped it, if anything did. -/
structure Ending where
  machine : Machine
  failure : Option Failure

def builtins : Table Entry :=
  let function (w : Word) (f : StackFunction) : Word × Entry := (w, .primitive (.function f))
  ⟨[("!", .primitive .store),
    function "*" .multiply,
    function "+" .add,
    function "-" .subtract,
    function "/" .divide,
    function "<" .less,
    function "=" .equal,
    function ">" .greater,
    ("@", .primitive .fetch),
    function "drop" .drop,
    function "dup" .dup,
    ("i", .primitive .innerIndex),
    ("j", .primitive .outerIndex),
    function "over" .over,
    function "swap" .swap], by decide +kernel⟩

theorem find?_builtins_ne_words (w : Word) (body : List Word) :
    builtins.find? w ≠ some (.words body) := by
  intro hw
  have hmem := Table.mem_of_find? hw
  simp [builtins] at hmem

/-- Of the functions only division can fail by itself; the others are arithmetic, and shuffles. -/
theorem function_of_builtin {P : StackFunction → Prop} {w : Word} {f : StackFunction}
    (h : builtins.find? w = some (.primitive (.function f)))
    (total : ∀ op : Int → Int → Int, P (.binary fun a b => .ok (op a b))) (divide : P .divide)
    (dup : P .dup) (drop : P .drop) (swap : P .swap) («over» : P .over) : P f := by
  have hmem := Table.mem_of_find? h
  simp only [builtins, List.mem_cons, Prod.mk.injEq, Entry.primitive.injEq, reduceCtorEq, and_false,
    Primitive.function.injEq, false_or, List.not_mem_nil, or_false] at hmem
  rcases hmem with ⟨-, rfl⟩ | ⟨-, rfl⟩ | ⟨-, rfl⟩ | ⟨-, rfl⟩ | ⟨-, rfl⟩ | ⟨-, rfl⟩ | ⟨-, rfl⟩ |
    ⟨-, rfl⟩ | ⟨-, rfl⟩ | ⟨-, rfl⟩ | ⟨-, rfl⟩
  · exact total _
  · exact total _
  · exact total _
  · exact divide
  · exact total _
  · exact total _
  · exact total _
  · exact drop
  · exact dup
  · exact «over»
  · exact swap

/-- No function of a fresh machine complains of anything but a divisor. -/
theorem zeroDivisor_of_builtin {w : Word} {f : StackFunction}
    (h : builtins.find? w = some (.primitive (.function f))) {args : List Cell} {why : Fault}
    (hwhy : f.apply args = .error why) : why = .zeroDivisor ∧ ∃ a, args = [.int 0, .int a] := by
  revert hwhy
  refine function_of_builtin (P := fun f => f.apply args = .error why →
    why = .zeroDivisor ∧ ∃ a, args = [.int 0, .int a]) h
    (fun op hwhy => ?_) (fun hwhy => ?_) nofun nofun nofun nofun
  · obtain ⟨a, b, -, ho⟩ := StackFunction.binary_eq_error hwhy
    cases ho
  · obtain ⟨a, b, rfl, ho⟩ := StackFunction.binary_eq_error hwhy
    split at ho
    · rename_i hb
      exact ⟨(Except.error.inj ho).symm, a, by rw [hb]⟩
    · cases ho

namespace Machine

def fresh : Machine := ⟨[], .empty, builtins, []⟩

def done (m : Machine) : Ending := ⟨m, none⟩

def stop (m : Machine) (why : Failure) : Ending := ⟨m, some why⟩

def fault (m : Machine) (f : Fault) : Ending := m.stop (.fault f)

def push (m : Machine) (c : Cell) : Machine := { m with stack := c :: m.stack }

def define (m : Machine) (name : Word) (e : Entry) : Machine :=
  { m with dictionary := m.dictionary.insert name e }

/-- Setting a variable declares it. -/
def set (m : Machine) (name : Word) (n : Int) : Machine :=
  { m with «variables» := m.variables.insert name n }

/-- Words that come from outside are folded, as those that are read are. -/
def install (m : Machine) (w : Word) (e : Entry) : Machine := m.define (Text.fold w) e

/-- The names that a fresh machine does not have. -/
def addedNames (m : Machine) : List Word := m.dictionary.names.filter (!builtins.contains ·)

/-- `stack_helper`, which `add_stackmethod` installs for a function: it pops the arguments and
pushes what is returned. -/
def apply (f : StackFunction) (m : Machine) : Ending :=
  match arguments f.numeric f.arity m.stack with
  | .error e => m.fault e
  | .ok (args, below) =>
    match f.apply args with
    | .error e => { m with stack := below }.fault e
    | .ok cells => { m with stack := cells.reverse ++ below }.done

/-- The word `i` (`_loop_i`). -/
def pushInnerIndex (m : Machine) : Ending :=
  match m.loops with
  | i :: _ => (m.push (.int i)).done
  | [] => m.fault .outsideLoop

/-- The word `j` (`_loop_j`). -/
def pushOuterIndex (m : Machine) : Ending :=
  match m.loops with
  | _ :: j :: _ => (m.push (.int j)).done
  | _ => m.fault .outsideNestedLoop

/-- The complaint that a cell is no variable, if the cell can be written. -/
def notVariable (c : Cell) : Failure :=
  if c.text?.isSome then .fault (.notVariable c) else .integerTooLong

/-- The variable a cell refers to, if there is one, and its value. -/
def declared? (m : Machine) : Cell → Option (Word × Int)
  | .ref name => (m.variables.find? name).map (name, ·)
  | _ => none

theorem declared?_eq_some {m : Machine} {c : Cell} {name : Word} {n : Int}
    (h : m.declared? c = some (name, n)) : c = .ref name ∧ m.variables.find? name = some n := by
  cases c with
  | ref v =>
    obtain ⟨k, hk, he⟩ := Option.map_eq_some_iff.1 h
    cases he
    exact ⟨rfl, hk⟩
  | int k => cases h
  | text t => cases h

theorem declared?_congr {m m' : Machine} (h : m'.variables = m.variables) (c : Cell) :
    m'.declared? c = m.declared? c := by
  cases c with
  | ref name => rw [declared?, declared?, h]
  | int n => rfl
  | text t => rfl

/-- `_fetch`, the word `@`. -/
def fetch (m : Machine) : Ending :=
  match m.stack with
  | [] => m.fault .underflow
  | c :: below =>
    match m.declared? c with
    | none => m.stop (notVariable c)
    | some (_, n) => { m with stack := .int n :: below }.done

/-- `_store`, the word `!`. -/
def store (m : Machine) : Ending :=
  match m.stack with
  | c :: value :: below =>
    match m.declared? c, value with
    | none, _ => m.stop (notVariable c)
    | some (name, _), .int n => ({ m with stack := below }.set name n).done
    | some (name, _), value => m.fault (.notStorable value name)
  | _ => m.fault .underflow

/-! Everything that can come of a primitive. -/

theorem apply_cases (f : StackFunction) (m : Machine) :
    (∃ e, arguments f.numeric f.arity m.stack = .error e ∧ m.apply f = m.fault e) ∨
    ∃ args below, arguments f.numeric f.arity m.stack = .ok (args, below) ∧
      ((∃ e, f.apply args = .error e ∧ m.apply f = { m with stack := below }.fault e) ∨
        ∃ cells, f.apply args = .ok cells ∧
          m.apply f = { m with stack := cells.reverse ++ below }.done) := by
  unfold apply
  split
  · rename_i e he
    exact .inl ⟨e, he, rfl⟩
  · rename_i args below ha
    refine .inr ⟨args, below, ha, ?_⟩
    split
    · rename_i e he
      exact .inl ⟨e, he, rfl⟩
    · rename_i cells hcells
      exact .inr ⟨cells, hcells, rfl⟩

theorem pushInnerIndex_cases (m : Machine) :
    m.pushInnerIndex = m.fault .outsideLoop ∨ ∃ i, m.pushInnerIndex = (m.push (.int i)).done := by
  unfold pushInnerIndex
  split
  · exact .inr ⟨_, rfl⟩
  · exact .inl rfl

theorem pushOuterIndex_cases (m : Machine) :
    m.pushOuterIndex = m.fault .outsideNestedLoop ∨
      ∃ j, m.pushOuterIndex = (m.push (.int j)).done := by
  unfold pushOuterIndex
  split
  · exact .inr ⟨_, rfl⟩
  · exact .inl rfl

theorem fetch_cases (m : Machine) :
    m.fetch = m.fault .underflow ∨
    (∃ c below, m.stack = c :: below ∧ m.declared? c = none ∧ m.fetch = m.stop (notVariable c)) ∨
    ∃ name n below, m.stack = .ref name :: below ∧ m.variables.find? name = some n ∧
      m.fetch = { m with stack := .int n :: below }.done := by
  unfold fetch
  split
  · exact .inl rfl
  · rename_i c below hs
    split
    · rename_i hd
      exact .inr (.inl ⟨c, below, hs, hd, rfl⟩)
    · rename_i name n hd
      obtain ⟨rfl, hn⟩ := declared?_eq_some hd
      exact .inr (.inr ⟨name, n, below, hs, hn, rfl⟩)

theorem store_cases (m : Machine) :
    m.store = m.fault .underflow ∨
    (∃ c below, m.stack = c :: below ∧ m.declared? c = none ∧ m.store = m.stop (notVariable c)) ∨
    (∃ name value below, m.stack = .ref name :: value :: below ∧
      m.store = m.fault (.notStorable value name)) ∨
    ∃ name n below, m.stack = .ref name :: .int n :: below ∧ m.variables.contains name = true ∧
      m.store = ({ m with stack := below }.set name n).done := by
  unfold store
  split
  · rename_i c value below hs
    split
    · rename_i hd
      exact .inr (.inl ⟨c, _, hs, hd, rfl⟩)
    · rename_i name k n hd
      obtain ⟨rfl, hn⟩ := declared?_eq_some hd
      exact .inr (.inr (.inr ⟨name, n, below, hs, by simp [Table.contains, hn], rfl⟩))
    · rename_i name _ hd _
      obtain ⟨rfl, -⟩ := declared?_eq_some hd
      exact .inr (.inr (.inl ⟨name, _, _, hs, rfl⟩))
  · exact .inl rfl

/-- A word that names nothing is a numeral or unknown. -/
def pushNumeral (w : Word) (m : Machine) : Ending :=
  match Numeral.ofWord? w with
  | none => m.fault (.undefined w)
  | some n =>
    match n.value? with
    | none => m.stop (.numeralTooLong n.digits.length)
    | some v => (m.push (.int v)).done

end Machine

def Primitive.run : Primitive → Machine → Ending
  | function f => Machine.apply f
  | innerIndex => Machine.pushInnerIndex
  | outerIndex => Machine.pushOuterIndex
  | fetch => Machine.fetch
  | store => Machine.store

end FlatForth
