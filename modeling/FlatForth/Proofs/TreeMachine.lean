import FlatForth.Proofs.ByItself
import FlatForth.Proofs.Tree

/-!
What programs mean as trees. A machine that keeps trees under its words runs a construct by running
the parts of it (`Runs`): nothing is scanned, and how deep runs nest is not bounded. Taking the
trees for the words that they are written as makes an ordinary machine of it
(`TreeMachine.flatten`), and every machine whose definitions are well-nested is made in this way
(`WellNested.exists_flatten`).
-/

namespace FlatForth

namespace Table

variable {α β : Type} (f : α → β)

def map (t : Table α) : Table β :=
  ⟨t.entries.map fun e => (e.1, f e.2), List.pairwise_map.2 t.ascending⟩

theorem lookIn_map (w : Word) (es : List (Word × α)) :
    lookIn w (es.map fun e => (e.1, f e.2)) = (lookIn w es).map f := by
  induction es with
  | nil => rfl
  | cons e es ih =>
    rw [List.map_cons, lookIn, lookIn, ih]
    split <;> rfl

theorem find?_map (t : Table α) (w : Word) : (t.map f).find? w = (t.find? w).map f :=
  lookIn_map f w t.entries

theorem map_insert (t : Table α) (w : Word) (a : α) :
    (t.insert w a).map f = (t.map f).insert w (f a) := by
  refine ext_find? fun v => ?_
  rw [find?_map, find?_insert, find?_insert, find?_map]
  split <;> rfl

theorem find?_of_mem {t : Table α} {e : Word × α} (h : e ∈ t.entries) : t.find? e.1 = some e.2 := by
  obtain ⟨es, hes⟩ := t
  change lookIn e.1 es = some e.2
  induction es with
  | nil => exact absurd h List.not_mem_nil
  | cons e' es ih =>
    obtain ⟨hlt, htail⟩ := List.pairwise_cons.1 hes
    rcases List.mem_cons.1 h with rfl | h
    · exact lookIn_head
    · have hne : e.1 ≠ e'.1 := fun heq => e.1.not_before_self (heq ▸ hlt e h)
      rw [lookIn, if_neg hne]
      exact ih htail h

end Table

/-- An entry with the tree of a definition, which has no definition in it. -/
inductive Meaning where
  | primitive (p : Primitive)
  | probe
  | tree (body : Tree false)

def Meaning.entry : Meaning → Entry
  | primitive p => .primitive p
  | probe => .probe
  | tree body => .words body.flatten

structure TreeMachine where
  stack : List Cell
  «variables» : Table Int
  dictionary : Table Meaning
  loops : List Int

structure TreeEnding where
  machine : TreeMachine
  failure : Option Failure

namespace TreeMachine

def flatten (M : TreeMachine) : Machine :=
  ⟨M.stack, M.variables, M.dictionary.map Meaning.entry, M.loops⟩

def push (M : TreeMachine) (c : Cell) : TreeMachine := { M with stack := c :: M.stack }

def define (M : TreeMachine) (name : Word) (body : Tree false) : TreeMachine :=
  { M with dictionary := M.dictionary.insert name (.tree body) }

def set (M : TreeMachine) (name : Word) (n : Int) : TreeMachine :=
  { M with «variables» := M.variables.insert name n }

/-- `f` on the machine without its dictionary, which stays as it is. -/
def act (f : Machine → Ending) (M : TreeMachine) : TreeEnding :=
  let e := f ⟨M.stack, M.variables, .empty, M.loops⟩
  ⟨{ M with stack := e.machine.stack, «variables» := e.machine.variables }, e.failure⟩

end TreeMachine

def TreeEnding.flatten (e : TreeEnding) : Ending := ⟨e.machine.flatten, e.failure⟩

/-! Stacks that a construct refuses, each with its complaint. -/

/-- `NoOperand stack f`: a branch, which takes an integer from the top, fails by `f` here. -/
inductive NoOperand : List Cell → Fault → Prop
  | empty : NoOperand [] .underflow
  | notNumber {c below} : (∀ n, c ≠ .int n) → NoOperand (c :: below) (.notNumber c)

/-- `NoBounds stack f`: on this stack a loop, which takes its start from the top and its limit from
under it, fails by `f`. If neither is an integer, the fault names the limit. -/
inductive NoBounds : List Cell → Fault → Prop
  | short {stack} : stack.length < 2 → NoBounds stack .underflow
  | limit {top c below} : (∀ n, c ≠ .int n) → NoBounds (top :: c :: below) (.notNumber c)
  | start {c limit below} : (∀ n, c ≠ .int n) → NoBounds (c :: .int limit :: below) (.notNumber c)

theorem operand_eq_error_iff {stack : List Cell} {f : Fault} :
    operand stack = .error f ↔ NoOperand stack f := by
  constructor
  · intro h
    unfold operand at h
    split at h <;> cases h
    · exact .empty
    · rename_i hc
      exact .notNumber hc
  · intro h
    cases h with
    | empty => rfl
    | @notNumber c below hc =>
      cases c with
      | int n => exact absurd rfl (hc n)
      | ref | text => rfl

theorem bounds_eq_error_iff {stack : List Cell} {f : Fault} :
    bounds stack = .error f ↔ NoBounds stack f := by
  constructor
  · intro h
    unfold bounds at h
    split at h <;> cases h
    · rename_i hc
      exact .start hc
    · rename_i hc
      exact .limit hc
    · rename_i htwo
      refine .short ?_
      match stack, htwo with
      | [], _ | [_], _ => simp
      | c :: c' :: below, htwo => exact absurd rfl (htwo c c' below)
  · intro h
    cases h with
    | short hlength =>
      match stack, hlength with
      | [], _ => rfl
      | [c], _ => cases c <;> rfl
    | @limit top c below hc =>
      cases c with
      | int n => exact absurd rfl (hc n)
      | ref | text => cases top <;> rfl
    | @start c limit below hc =>
      cases c with
      | int n => exact absurd rfl (hc n)
      | ref | text => rfl

/-! What is run: a tree, or so many turns of a loop with ascending indices. -/

inductive Task where
  | tree {d : Bool} (t : Tree d)
  | turns {d : Bool} (body : Tree d) (n : Nat) (index : Int)

/-- `Runs task M e`: started on `M`, the task ends as `e`. -/
inductive Runs : Task → TreeMachine → TreeEnding → Prop
  | nothing {d M} : Runs (.tree (.nothing : Tree d)) M ⟨M, none⟩
  | seq {d M M' e} {a b : Tree d} : Runs (.tree a) M ⟨M', none⟩ → Runs (.tree b) M' e →
      Runs (.tree (.seq a b)) M e
  | seqFails {d M M' why} {a b : Tree d} : Runs (.tree a) M ⟨M', some why⟩ →
      Runs (.tree (.seq a b)) M ⟨M', some why⟩
  | reference {d w M} : M.variables.contains w = true →
      Runs (.tree (.word w : Tree d)) M ⟨M.push (.ref w), none⟩
  | primitive {d w M p} : M.variables.contains w = false →
      M.dictionary.find? w = some (.primitive p) → Runs (.tree (.word w : Tree d)) M (M.act p.run)
  | probe {d w M} : M.variables.contains w = false → M.dictionary.find? w = some .probe →
      Runs (.tree (.word w : Tree d)) M ⟨M, none⟩
  | call {d w M body e} : M.variables.contains w = false →
      M.dictionary.find? w = some (.tree body) → Runs (.tree body) M e →
      Runs (.tree (.word w : Tree d)) M e
  | numeral {d w M} : M.variables.contains w = false → M.dictionary.find? w = none →
      Runs (.tree (.word w : Tree d)) M (M.act (Machine.pushNumeral w))
  | branch {d M e} {a : Tree d} : Runs (.tree (.fork a .nothing)) M e →
      Runs (.tree (.branch a)) M e
  | fork {d M n below e} {a b : Tree d} : M.stack = .int n :: below →
      Runs (.tree (if n ≠ 0 then a else b)) { M with stack := below } e →
      Runs (.tree (.fork a b)) M e
  | forkRefused {d M f} {a b : Tree d} : NoOperand M.stack f →
      Runs (.tree (.fork a b)) M ⟨M, some (.fault f)⟩
  | loop {d M start limit below e} {body : Tree d} :
      M.stack = .int start :: .int limit :: below →
      Runs (.turns body (limit - start).toNat start) { M with stack := below } e →
      Runs (.tree (.loop body)) M e
  | loopRefused {d M f} {body : Tree d} : NoBounds M.stack f →
      Runs (.tree (.loop body)) M ⟨M, some (.fault f)⟩
  | define {name hn body M} : Runs (.tree (.define name hn body)) M ⟨M.define name body, none⟩
  | declare {d name M} : Runs (.tree (.declare name : Tree d)) M ⟨M.set name 0, none⟩
  | noTurns {d index M} {body : Tree d} : Runs (.turns body 0 index) M ⟨M, none⟩
  | turn {d n index M M' e} {body : Tree d} :
      Runs (.tree body) { M with loops := index :: M.loops } ⟨M', none⟩ →
      Runs (.turns body n (index + 1)) { M' with loops := M.loops } e →
      Runs (.turns body (n + 1) index) M e
  | turnFails {d n index M M' why} {body : Tree d} :
      Runs (.tree body) { M with loops := index :: M.loops } ⟨M', some why⟩ →
      Runs (.turns body (n + 1) index) M ⟨{ M' with loops := M.loops }, some why⟩

/-! Flattening. -/

namespace TreeMachine

variable (M : TreeMachine)

@[simp] theorem flatten_stack : M.flatten.stack = M.stack := rfl

@[simp] theorem flatten_variables : M.flatten.variables = M.variables := rfl

theorem find?_flatten (w : Word) :
    M.flatten.dictionary.find? w = (M.dictionary.find? w).map Meaning.entry :=
  M.dictionary.find?_map Meaning.entry w

theorem flatten_define (name : Word) (body : Tree false) :
    (M.define name body).flatten = M.flatten.define name (.words body.flatten) := by
  have h := M.dictionary.map_insert Meaning.entry name (.tree body)
  simp only [flatten, define, Machine.define, h]
  rfl

end TreeMachine

theorem TreeMachine.flatten_act {f : Machine → Ending} (h : Machine.ByItself f) (M : TreeMachine) :
    (M.act f).flatten = f M.flatten := by
  rw [TreeMachine.flatten, h]
  rfl

theorem Meaning.exists_map {es : List (Word × Entry)}
    (h : ∀ e ∈ es, ∀ body, e.2 = .words body → ∃ t : Tree false, t.flatten = body) :
    ∃ ms : List (Word × Meaning), ms.map (fun e => (e.1, e.2.entry)) = es := by
  induction es with
  | nil => exact ⟨[], rfl⟩
  | cons e es ih =>
    obtain ⟨ms, rfl⟩ := ih fun e' he' => h e' (List.mem_cons_of_mem e he')
    obtain ⟨w, entry⟩ := e
    obtain ⟨m, rfl⟩ : ∃ m : Meaning, m.entry = entry := by
      cases entry with
      | primitive p => exact ⟨.primitive p, rfl⟩
      | probe => exact ⟨.probe, rfl⟩
      | words body =>
        obtain ⟨t, rfl⟩ := h _ List.mem_cons_self body rfl
        exact ⟨.tree t, rfl⟩
    exact ⟨(w, m) :: ms, rfl⟩

/-- The words of every definition are the `flatten` of a tree. -/
def Machine.WellNested (m : Machine) : Prop :=
  ∀ w body, m.dictionary.find? w = some (.words body) → ∃ t : Tree false, t.flatten = body

theorem TreeMachine.flatten_wellNested (M : TreeMachine) : M.flatten.WellNested := by
  intro w body h
  rw [M.find?_flatten] at h
  obtain ⟨meaning, -, hw⟩ := Option.map_eq_some_iff.1 h
  cases meaning with
  | primitive | probe => cases hw
  | tree t => exact ⟨t, Entry.words.inj hw⟩

theorem Machine.WellNested.exists_flatten {m : Machine} (h : m.WellNested) :
    ∃ M : TreeMachine, M.flatten = m := by
  obtain ⟨stack, vars, ⟨es, hes⟩, loops⟩ := m
  have hmem (e : Word × Entry) (he : e ∈ es) (body : List Word) (hb : e.2 = .words body) :
      ∃ t : Tree false, t.flatten = body := by
    refine h e.1 body ?_
    rw [← hb]
    exact Table.find?_of_mem he
  obtain ⟨ms, rfl⟩ := Meaning.exists_map hmem
  have ascending : ms.Pairwise fun a b => a.1.Before b.1 := by simpa [List.pairwise_map] using hes
  exact ⟨⟨stack, vars, ⟨ms, ascending⟩, loops⟩, rfl⟩

end FlatForth
