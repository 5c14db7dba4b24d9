import FlatForth.Proofs.ByItself
import FlatForth.Proofs.Depth
import FlatForth.Proofs.Renaming
import FlatForth.Proofs.Vocabulary

/-!
Names carry no meaning of their own. Where all the names of a machine are renamed, and the words
that are run as well, the run does the same under the new names, and fails for the same reason
(`evaluate_rename`). It is no matter which names they are, as long as the reserved ones stay: words
are compared with one another and with those, and a reference is nothing but its name.
-/

namespace FlatForth

/-- `f` of renamed arguments is the renamed result of `f`, or its renamed fault. -/
def StackFunction.Nameless (f : StackFunction) (r : Word → Word) : Prop :=
  ∀ args, f.apply (args.map (Cell.rename r)) =
    ((f.apply args).map fun cells => cells.map (Cell.rename r)).mapError (Fault.rename r)

section

variable {r : Word → Word}

theorem binary_nameless {f : Int → Int → Except Fault Int}
    (h : ∀ a b why, f a b = .error why → why.rename r = why) :
    (StackFunction.binary f).Nameless r := by
  intro args
  rcases args with _ | ⟨b, _ | ⟨a, _ | ⟨c, args⟩⟩⟩
  · rfl
  · cases b <;> rfl
  · cases b with
    | int b =>
      cases a with
      | int a =>
        change (f a b).map _ = (((f a b).map _).map _).mapError _
        cases hf : f a b with
        | error why => exact congrArg Except.error (h a b why hf).symm
        | ok n => rfl
      | ref | text => rfl
    | ref | text => cases a <;> rfl
  · cases b <;> cases a <;> rfl

theorem shuffle_nameless {arity : Nat} {f : List Cell → List Cell}
    (h : ∀ args, f (args.map (Cell.rename r)) = (f args).map (Cell.rename r)) :
    (StackFunction.shuffle arity f).Nameless r := fun args => congrArg Except.ok (h args)

theorem nameless_of_builtin {w : Word} {f : StackFunction}
    (h : builtins.find? w = some (.primitive (.function f))) : f.Nameless r := by
  refine function_of_builtin (P := (StackFunction.Nameless · r)) h
    (fun _ => binary_nameless nofun) ?_ ?_ ?_ ?_ ?_
  · refine binary_nameless fun a b why hwhy => ?_
    split at hwhy
    · cases hwhy
      rfl
    · cases hwhy
  · exact shuffle_nameless fun args => by simp
  · exact shuffle_nameless fun _ => rfl
  · exact shuffle_nameless fun _ => rfl
  · exact shuffle_nameless fun args => by simp

/-! The operands of renamed cells. -/

theorem arguments_rename (numeric : Bool) (n : Nat) (stack : List Cell) :
    arguments numeric n (stack.map (Cell.rename r)) =
      ((arguments numeric n stack).map fun found =>
        (found.1.map (Cell.rename r), found.2.map (Cell.rename r))).mapError (Fault.rename r) := by
  induction n generalizing stack with
  | zero => rfl
  | succ n ih =>
    cases stack with
    | nil => rfl
    | cons c stack =>
      rw [List.map_cons, arguments, arguments, ih]
      cases arguments numeric n stack with
      | error why => rfl
      | ok found => cases c <;> cases numeric <;> rfl

theorem operand_rename (stack : List Cell) :
    operand (stack.map (Cell.rename r)) =
      ((operand stack).map fun found =>
        (found.1, found.2.map (Cell.rename r))).mapError (Fault.rename r) := by
  rcases stack with _ | ⟨_ | _ | _, below⟩ <;> rfl

theorem bounds_rename (stack : List Cell) :
    bounds (stack.map (Cell.rename r)) =
      ((bounds stack).map fun found =>
        (found.1, found.2.1, found.2.2.map (Cell.rename r))).mapError (Fault.rename r) := by
  rcases stack with _ | ⟨c, _ | ⟨d, below⟩⟩
  · rfl
  · cases c <;> rfl
  · cases c <;> cases d <;> rfl

end

/-! What a renamed machine does by itself. -/

namespace Machine

variable (r : Renaming) (m : Machine)

theorem set_rename (name : Word) (n : Int) :
    (m.set name n).rename r = (m.rename r).set (r name) n := by
  unfold set rename
  rw [Table.rename_insert r.bijective]
  rfl

theorem define_rename (name : Word) (body : List Word) :
    (m.define name (.words body)).rename r =
      (m.rename r).define (r name) (.words (body.map r)) := by
  unfold define rename
  rw [Table.rename_insert r.bijective]
  rfl

theorem contains_variables_rename (w : Word) :
    (m.rename r).variables.contains (r w) = m.variables.contains w :=
  Table.contains_rename r.bijective.1 m.variables w

theorem find?_dictionary_rename (w : Word) :
    (m.rename r).dictionary.find? (r w) = (m.dictionary.find? w).map (Entry.rename r) :=
  Table.find?_rename r.bijective.1 m.dictionary w

theorem declared?_rename (c : Cell) :
    (m.rename r).declared? (c.rename r) = (m.declared? c).map fun found => (r found.1, found.2) := by
  cases c with
  | int n => rfl
  | text t => rfl
  | ref name =>
    have hfind : (m.rename r).variables.find? (r name) = (m.variables.find? name).map id :=
      Table.find?_rename r.bijective.1 m.variables name
    simp only [Cell.rename, declared?, hfind]
    cases m.variables.find? name <;> rfl

theorem notVariable_rename (c : Cell) : notVariable (c.rename r) = (notVariable c).rename r := by
  cases c with
  | int n =>
    unfold notVariable
    rw [apply_ite (Failure.rename r)]
    rfl
  | ref | text => rfl

variable {r m}

theorem apply_rename {f : StackFunction} (hf : f.Nameless r) :
    (m.rename r).apply f = (m.apply f).rename r := by
  have hstack : (m.rename r).stack = m.stack.map (Cell.rename r) := rfl
  unfold apply
  rw [hstack, arguments_rename]
  cases arguments f.numeric f.arity m.stack with
  | error why => rfl
  | ok found =>
    simp only [Except.map, Except.mapError, hf found.1]
    cases f.apply found.1 with
    | error why => rfl
    | ok cells => simp [Ending.rename, rename, done]

theorem pushInnerIndex_rename : (m.rename r).pushInnerIndex = m.pushInnerIndex.rename r := by
  unfold pushInnerIndex
  rw [show (m.rename r).loops = m.loops from rfl]
  split <;> rfl

theorem pushOuterIndex_rename : (m.rename r).pushOuterIndex = m.pushOuterIndex.rename r := by
  unfold pushOuterIndex
  rw [show (m.rename r).loops = m.loops from rfl]
  split <;> rfl

theorem fetch_rename : (m.rename r).fetch = m.fetch.rename r := by
  unfold fetch
  rw [show (m.rename r).stack = m.stack.map (Cell.rename r) from rfl]
  cases m.stack with
  | nil => rfl
  | cons c below =>
    simp only [List.map_cons, declared?_rename, notVariable_rename]
    cases m.declared? c <;> rfl

theorem store_rename : (m.rename r).store = m.store.rename r := by
  unfold store
  rw [show (m.rename r).stack = m.stack.map (Cell.rename r) from rfl]
  rcases m.stack with _ | ⟨c, _ | ⟨value, below⟩⟩
  · rfl
  · rfl
  · simp only [List.map_cons, declared?_rename, notVariable_rename]
    cases m.declared? c with
    | none => rfl
    | some found =>
      cases value with
      | int n =>
        have hset := set_rename r { m with stack := below } found.1 n
        exact congrArg done hset.symm
      | ref | text => rfl

theorem primitive_rename (hm : m.Unextended) {w : Word} {p : Primitive}
    (h : m.dictionary.find? w = some (.primitive p)) :
    p.run (m.rename r) = (p.run m).rename r := by
  cases p with
  | function f =>
    rcases hm w _ h with hb | ⟨body, hb⟩
    · exact apply_rename (nameless_of_builtin hb)
    · cases hb
  | innerIndex => exact pushInnerIndex_rename
  | outerIndex => exact pushOuterIndex_rename
  | fetch => exact fetch_rename
  | store => exact store_rename

theorem pushNumeral_rename (w : Word) :
    (m.rename r).pushNumeral (r w) = (m.pushNumeral w).rename r := by
  unfold pushNumeral
  cases h : isNumeral w with
  | true =>
    rw [r.apply_reserved (.inr (.inr h))]
    cases hw : Numeral.ofWord? w with
    | none => simp [isNumeral, hw] at h
    | some n =>
      dsimp only
      split <;> rfl
  | false =>
    have hw : Numeral.ofWord? w = none := Option.not_isSome_iff_eq_none.1 (Bool.eq_false_iff.1 h)
    rw [r.ofWord?_apply w h, hw]
    rfl

theorem body?_rename (w : Word) : (m.rename r).body? (r w) = (m.body? w).map (·.map r) := by
  unfold body?
  rw [contains_variables_rename, find?_dictionary_rename]
  split
  · rfl
  · rcases m.dictionary.find? w with _ | ⟨p | _ | body⟩ <;> rfl

theorem actAlone_rename (hm : m.Unextended) (w : Word) :
    (m.rename r).actAlone (r w) = (m.actAlone w).rename r := by
  unfold actAlone
  rw [contains_variables_rename, find?_dictionary_rename]
  split
  · rfl
  · rcases hw : m.dictionary.find? w with _ | ⟨p | _ | body⟩
    · exact pushNumeral_rename w
    · exact primitive_rename hm hw
    · rfl
    · rfl

theorem actAlone_dictionary (w : Word) : (m.actAlone w).machine.dictionary = m.dictionary := by
  unfold actAlone
  split
  · rfl
  · split
    · exact primitive_dictionary _ m
    · rfl
    · unfold pushNumeral
      split
      · rfl
      · split <;> rfl

end Machine

/-- The simulation of `m` by `m.rename r`, in which every word stands for its new name. -/
def renamed (r : Renaming) : Simulation where
  Like m m' := m.Unextended ∧ m' = m.rename r
  Names w w' := w' = r w
  Queues ws ws' := ws' = ws.map r
  Fails why why' := why' = why.rename r
  Excused _ := False

theorem items_rename (r : Renaming) (item : Item) : (renamed r).Items item (item.rename r) := by
  cases item with
  | word w => exact .word rfl
  | define name body => exact .define rfl rfl
  | misdefine why => exact .misdefine rfl
  | declare name =>
    cases name with
    | none => exact .nameless
    | some name => exact .declare rfl
  | branch whenTrue whenFalse closed => exact .branch closed rfl rfl
  | loop body =>
    cases body with
    | none => exact .unclosed
    | some body => exact .loop rfl

theorem ends_rename {r : Renaming} {e : Ending} (h : e.machine.Unextended) :
    (renamed r).Ends e (e.rename r) := by
  refine .inr ⟨?_, h, rfl⟩
  obtain ⟨m, _ | why⟩ := e
  · exact .none
  · exact .some rfl

theorem eq_map_of_rel {r : Renaming} {why why' : Option Failure}
    (h : Option.Rel (renamed r).Fails why why') : why' = why.map (Failure.rename r) := by
  cases h with
  | none => rfl
  | some h => exact congrArg some h

theorem renamed_lawful (r : Renaming) : (renamed r).Lawful where
  call := by
    rintro m _ w _ ⟨hm, rfl⟩ rfl
    cases h : m.body? w with
    | none =>
      refine .alone h ?_ ?_
      · rw [Machine.body?_rename, h]
        rfl
      · rw [Machine.actAlone_rename hm]
        exact ends_rename (hm.congr (Machine.actAlone_dictionary w))
    | some body =>
      refine .body h ?_ rfl
      rw [Machine.body?_rename, h]
      rfl
  operand := by
    rintro m _ ⟨hm, rfl⟩
    have hrename : operand (m.rename r).stack = _ := operand_rename m.stack
    rw [hrename]
    cases operand m.stack with
    | error f => exact .inl ⟨f, rfl, .inr ⟨f.rename r, rfl, rfl⟩⟩
    | ok found => exact .inr ⟨found.1, found.2, _, rfl, rfl, hm.congr rfl, rfl⟩
  bounds := by
    rintro m _ ⟨hm, rfl⟩
    have hrename : bounds (m.rename r).stack = _ := bounds_rename m.stack
    rw [hrename]
    cases bounds m.stack with
    | error f => exact .inl ⟨f, rfl, .inr ⟨f.rename r, rfl, rfl⟩⟩
    | ok found => exact .inr ⟨found.1, found.2.1, found.2.2, _, rfl, rfl, hm.congr rfl, rfl⟩
  define := by
    rintro m _ name _ body _ ⟨hm, rfl⟩ rfl rfl
    exact ⟨hm.define name body, (m.define_rename r name body).symm⟩
  set := by
    rintro m _ name _ ⟨hm, rfl⟩ rfl
    exact ⟨hm.congr rfl, (m.set_rename r name 0).symm⟩
  enter := by
    rintro m _ ⟨hm, rfl⟩ index
    exact ⟨hm.congr rfl, rfl⟩
  leave := by
    rintro m _ n _ ⟨-, rfl⟩ ⟨hn, rfl⟩
    exact ⟨hn.congr rfl, rfl⟩
  items := by
    rintro ws _ rfl
    rw [r.items_apply, List.forall₂_map_right_iff]
    exact List.forall₂_same.2 fun item _ => items_rename r item
  nil := by
    rintro ws _ rfl
    simp
  fails := by
    intro why hwhy
    simp only [List.mem_cons, List.not_mem_nil, or_false] at hwhy
    rcases hwhy with rfl | rfl | rfl <;> rfl

/-- Let `m` be `Unextended`, with nothing added to a fresh machine but definitions and variables. On
`m.rename r` the renamed words end as the words do on `m`, renamed; and if these end in a fault,
then those in a fault of the same class. -/
theorem evaluate_rename (r : Renaming) {m : Machine} (hm : m.Unextended) {ws : List Word}
    (hws : ∀ w ∈ ws, w.Folded) (room : Nat) :
    (m.rename r).evaluate room (.words (ws.map r)) = (m.evaluate room (.words ws)).rename r ∧
    ∀ why, (m.evaluate room (.words ws)).failure = some (.fault why) →
      ∃ why', ((m.rename r).evaluate room (.words (ws.map r))).failure = some (.fault why') ∧
        why'.name = why.name := by
  have keeps := Simulation.runWords_simulates (renamed_lawful r) unwatched unwatched
    (Nat.le_refl (room + 1)) (.inl rfl) (r.queue_words hws)
  have hends : (m.rename r).evaluate room (.words (ws.map r)) =
      (m.evaluate room (.words ws)).rename r := by
    rcases keeps m (m.rename r) () () ⟨hm, rfl⟩ with ⟨_, _, hx⟩ | ⟨hfails, -, hmachine⟩
    · exact hx.elim
    · exact congrArg₂ Ending.mk hmachine (eq_map_of_rel hfails)
  refine ⟨hends, fun why hwhy => ⟨why.rename r, ?_, why.name_rename r⟩⟩
  rw [hends, Ending.rename, hwhy]
  rfl

/-- A variable and a definition change names, before the run comes to a word that is neither. -/
theorem evaluate_rename_swap :
    let source := Source.words ["x", "@", "sq", "x", "!", "nope"]
    let source' := Source.words ["sq", "@", "x", "sq", "!", "nope"]
    ∃ (m : Machine) (r : Renaming), m.dictionary.find? "sq" = some (.words ["dup", "*"]) ∧
      m.variables.find? "x" = some 3 ∧ r "x" = "sq" ∧ r "sq" = "x" ∧
      (m.evaluate nestingLimit source).failure = some (.fault (.undefined "nope")) ∧
      ((m.rename r).evaluate nestingLimit source').failure = some (.fault (.undefined "nope")) ∧
      ((m.rename r).evaluate nestingLimit source').machine.variables.find? "sq" = some 9 := by
  intro source source'
  let defined := Machine.fresh.define "sq" (.words ["dup", "*"])
  let m := defined.set "x" 3
  let r := Renaming.swap ⟨"x", by decide +kernel⟩ ⟨"sq", by decide +kernel⟩ (by decide +kernel)
    (by decide +kernel)
  let ws : List Word := ["x", "@", "sq", "x", "!", "nope"]
  have hsquare : m.dictionary.find? "sq" = some (.words ["dup", "*"]) := by
    simp [m, defined, Machine.set, Machine.define, Table.find?_insert]
  have hdefined : defined.Unextended := Machine.fresh_unextended.define "sq" ["dup", "*"]
  have hm : m.Unextended := hdefined.congr rfl
  have hrun : (m.evaluate nestingLimit source).failure = some (.fault (.undefined "nope")) ∧
      (m.evaluate nestingLimit source).machine.variables.find? "x" = some 9 := by decide +kernel
  have hx : r "x" = "sq" := by decide +kernel
  have hsq : r "sq" = "x" := by decide +kernel
  have hnope : r "nope" = "nope" := by decide +kernel
  have hwords : ws.map r = ["sq", "@", "x", "sq", "!", "nope"] := by decide +kernel
  have hfolded : ∀ w ∈ ws, w.Folded := by decide +kernel
  obtain ⟨hends, -⟩ := evaluate_rename r hm hfolded nestingLimit
  have hfind : ((m.evaluate nestingLimit source).machine.rename r).variables.find? (r "x") = _ :=
    Table.find?_rename r.bijective.1 _ "x"
  rw [hwords] at hends
  rw [hx, hrun.2] at hfind
  refine ⟨m, r, hsquare, by decide +kernel, hx, hsq, hrun.1, ?_, ?_⟩
  · rw [hends, Ending.rename, hrun.1]
    exact congrArg (fun w => some (Failure.fault (.undefined w))) hnope
  · rw [hends]
    exact hfind

end FlatForth
