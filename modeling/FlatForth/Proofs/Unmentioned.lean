import FlatForth.Proofs.Simulation
import FlatForth.Proofs.WellFormed

/-!
Names that nothing mentions. A name that is in no word to be read, in no definition of another name
and in no reference on the stack is never come upon: neither reading nor running makes up a name. So
what a machine holds under it, be it a variable, a definition or nothing, has no part in any run and
stays as it is (`evaluate_unmentioned`).
-/

namespace FlatForth

/-- `f` makes no reference to `n`, unless there is one among its arguments. -/
def StackFunction.Avoids (n : Word) (f : StackFunction) : Prop :=
  ∀ args cells, Cell.ref n ∉ args → f.apply args = .ok cells → Cell.ref n ∉ cells

theorem StackFunction.Tame.avoids {f : StackFunction} (h : f.Tame) (n : Word) : f.Avoids n := by
  intro args cells hargs hok hmem
  rcases h.cells hok _ hmem with hint | hmem
  · cases hint
  · exact hargs hmem

namespace Machine

/-- `m` and `m'` have the same stack and loops, and the same under every name but `n`. -/
structure AgreesBut (n : Word) (m m' : Machine) : Prop where
  stack : m'.stack = m.stack
  loops : m'.loops = m.loops
  «variables» : ∀ w, w ≠ n → m'.variables.find? w = m.variables.find? w
  dictionary : ∀ w, w ≠ n → m'.dictionary.find? w = m.dictionary.find? w

/-- No reference to `n` is on the stack, no other definition has `n` in its words, and no other
function makes a reference to it. -/
structure Avoids (n : Word) (m : Machine) : Prop where
  references : Cell.ref n ∉ m.stack
  bodies : ∀ w, w ≠ n → ∀ body, m.dictionary.find? w = some (.words body) → n ∉ body
  functions : ∀ w, w ≠ n → ∀ f, m.dictionary.find? w = some (.primitive (.function f)) → f.Avoids n

/-- The value of the variable `n` and the entry of `n` in the dictionary. -/
def under (m : Machine) (n : Word) : Option Int × Option Entry :=
  (m.variables.find? n, m.dictionary.find? n)

section

variable {n : Word} {m : Machine}

theorem under_set (m : Machine) {name : Word} (h : name ≠ n) (k : Int) :
    (m.set name k).under n = m.under n := by
  rw [under, set, Table.find?_insert, if_neg h.symm]
  rfl

theorem under_define (m : Machine) {name : Word} (h : name ≠ n) (e : Entry) :
    (m.define name e).under n = m.under n := by
  rw [under, define, Table.find?_insert, if_neg h.symm]
  rfl

theorem fresh_avoids (n : Word) : fresh.Avoids n where
  references := List.not_mem_nil
  bodies w _ body hw := absurd hw (find?_builtins_ne_words w body)
  functions _ _ _ hf := (tame_of_builtin hf).avoids n

theorem Avoids.restack (h : m.Avoids n) {stack : List Cell} (hs : Cell.ref n ∉ stack) :
    Avoids n { m with stack := stack } := ⟨hs, h.bodies, h.functions⟩

theorem Avoids.set (h : m.Avoids n) (name : Word) (k : Int) : (m.set name k).Avoids n :=
  ⟨h.references, h.bodies, h.functions⟩

theorem Avoids.define (h : m.Avoids n) (name : Word) {body : List Word} (hbody : n ∉ body) :
    (m.define name (.words body)).Avoids n where
  references := h.references
  bodies w hw ws hfind := by
    rcases Table.of_find?_insert hfind with he | hfind
    · cases he
      exact hbody
    · exact h.bodies w hw ws hfind
  functions w hw f hfind := by
    rcases Table.of_find?_insert hfind with he | hfind
    · cases he
    · exact h.functions w hw f hfind

end

/-- `m` and `m'` agree but under `n`, where they hold `u` and `u'`, and `m` avoids `n`. -/
structure Apart (n : Word) (u u' : Option Int × Option Entry) (m m' : Machine) : Prop where
  agrees : m.AgreesBut n m'
  avoids : m.Avoids n
  under : m.under n = u
  under' : m'.under n = u'

end Machine

/-- The simulation of machines that are `Apart`, on words without `n`. -/
def unmentioned (n : Word) (u u' : Option Int × Option Entry) : Simulation where
  Like := Machine.Apart n u u'
  Names w w' := w = w' ∧ w ≠ n
  Queues ws ws' := ws = ws' ∧ n ∉ ws
  Fails := Eq
  Excused _ := False

namespace Machine.Apart

variable {n : Word} {u u' : Option Int × Option Entry} {m m' : Machine} (h : Apart n u u' m m')

include h

theorem restack {stack : List Cell} (hs : Cell.ref n ∉ stack) :
    Apart n u u' { m with stack := stack } { m' with stack := stack } where
  agrees := ⟨rfl, h.agrees.loops, h.agrees.variables, h.agrees.dictionary⟩
  avoids := h.avoids.restack hs
  under := h.under
  under' := h.under'

theorem withLoops (loops : List Int) :
    Apart n u u' { m with loops := loops } { m' with loops := loops } where
  agrees := ⟨h.agrees.stack, rfl, h.agrees.variables, h.agrees.dictionary⟩
  avoids := ⟨h.avoids.references, h.avoids.bodies, h.avoids.functions⟩
  under := h.under
  under' := h.under'

theorem push {c : Cell} (hc : c ≠ .ref n) : Apart n u u' (m.push c) (m'.push c) := by
  have hs : Cell.ref n ∉ c :: m.stack := List.not_mem_cons_of_ne_of_not_mem hc.symm h.avoids.references
  unfold Machine.push
  rw [h.agrees.stack]
  exact h.restack hs

theorem set {name : Word} (hname : name ≠ n) (k : Int) :
    Apart n u u' (m.set name k) (m'.set name k) where
  agrees := by
    refine ⟨h.agrees.stack, h.agrees.loops, fun w hw => ?_, h.agrees.dictionary⟩
    rw [Machine.set, Machine.set, Table.find?_insert, Table.find?_insert, h.agrees.variables w hw]
  avoids := h.avoids.set name k
  under := (m.under_set hname k).trans h.under
  under' := (m'.under_set hname k).trans h.under'

theorem define {name : Word} (hname : name ≠ n) {body : List Word} (hbody : n ∉ body) :
    Apart n u u' (m.define name (.words body)) (m'.define name (.words body)) where
  agrees := by
    refine ⟨h.agrees.stack, h.agrees.loops, h.agrees.variables, fun w hw => ?_⟩
    rw [Machine.define, Machine.define, Table.find?_insert, Table.find?_insert,
      h.agrees.dictionary w hw]
  avoids := h.avoids.define name hbody
  under := (m.under_define hname _).trans h.under
  under' := (m'.under_define hname _).trans h.under'

theorem declared? {c : Cell} (hc : c ≠ .ref n) : m'.declared? c = m.declared? c := by
  cases c with
  | int k => rfl
  | text t => rfl
  | ref w =>
    have hw : w ≠ n := fun heq => hc (congrArg Cell.ref heq)
    rw [Machine.declared?, Machine.declared?, h.agrees.variables w hw]

theorem contains {w : Word} (hw : w ≠ n) : m'.variables.contains w = m.variables.contains w := by
  rw [Table.contains, Table.contains, h.agrees.variables w hw]

/-! What the machines do by themselves. -/

theorem apply {f : StackFunction} (hf : f.Avoids n) :
    (unmentioned n u u').Ends (m.apply f) (m'.apply f) := by
  unfold Machine.apply
  rw [h.agrees.stack]
  cases harg : arguments f.numeric f.arity m.stack with
  | error e => exact Simulation.ends_of_fails h rfl
  | ok r =>
    obtain ⟨args, below⟩ := r
    have hstack : Cell.ref n ∉ args ++ below :=
      (supplies_of_arguments harg).stack_eq ▸ h.avoids.references
    rw [List.mem_append, not_or] at hstack
    obtain ⟨hargs, hbelow⟩ := hstack
    dsimp only
    cases hcells : f.apply args with
    | error e => exact Simulation.ends_of_fails (h.restack hbelow) rfl
    | ok cells =>
      have hcells : Cell.ref n ∉ cells := hf args cells hargs hcells
      exact Simulation.ends_of_like (h.restack (by simp [hcells, hbelow]))

theorem pushInnerIndex : (unmentioned n u u').Ends m.pushInnerIndex m'.pushInnerIndex := by
  unfold Machine.pushInnerIndex
  rw [h.agrees.loops]
  split
  · exact Simulation.ends_of_like (h.push nofun)
  · exact Simulation.ends_of_fails h rfl

theorem pushOuterIndex : (unmentioned n u u').Ends m.pushOuterIndex m'.pushOuterIndex := by
  unfold Machine.pushOuterIndex
  rw [h.agrees.loops]
  split
  · exact Simulation.ends_of_like (h.push nofun)
  · exact Simulation.ends_of_fails h rfl

theorem fetch : (unmentioned n u u').Ends m.fetch m'.fetch := by
  have href := h.avoids.references
  unfold Machine.fetch
  rw [h.agrees.stack]
  cases hs : m.stack with
  | nil => exact Simulation.ends_of_fails h rfl
  | cons c below =>
    rw [hs, List.mem_cons, not_or] at href
    dsimp only
    rw [h.declared? (Ne.symm href.1)]
    split
    · exact Simulation.ends_of_fails h rfl
    · exact Simulation.ends_of_like (h.restack (by simp [href.2]))

theorem store : (unmentioned n u u').Ends m.store m'.store := by
  have href := h.avoids.references
  unfold Machine.store
  rw [h.agrees.stack]
  rcases hs : m.stack with _ | ⟨c, _ | ⟨value, below⟩⟩
  · exact Simulation.ends_of_fails h rfl
  · exact Simulation.ends_of_fails h rfl
  · rw [hs, List.mem_cons, List.mem_cons, not_or, not_or] at href
    obtain ⟨hc, -, hbelow⟩ := href
    dsimp only
    rw [h.declared? (Ne.symm hc)]
    split
    · exact Simulation.ends_of_fails h rfl
    · rename_i name _ k hd
      obtain ⟨rfl, -⟩ := Machine.declared?_eq_some hd
      have hname : name ≠ n := fun heq => hc (congrArg Cell.ref heq.symm)
      exact Simulation.ends_of_like ((h.restack hbelow).set hname k)
    · exact Simulation.ends_of_fails h rfl

theorem primitive {w : Word} (hw : w ≠ n) {p : Primitive}
    (hp : m.dictionary.find? w = some (.primitive p)) :
    (unmentioned n u u').Ends (p.run m) (p.run m') := by
  cases p with
  | function f => exact h.apply (h.avoids.functions w hw f hp)
  | innerIndex => exact h.pushInnerIndex
  | outerIndex => exact h.pushOuterIndex
  | fetch => exact h.fetch
  | store => exact h.store

end Machine.Apart

theorem unmentioned_lawful (n : Word) (u u' : Option Int × Option Entry) :
    (unmentioned n u u').Lawful where
  call := by
    rintro m m' w _ h ⟨rfl, hw⟩
    refine Simulation.calls_self (fun _ => rfl) h (h.contains hw) (h.agrees.dictionary w hw) ?_
      (fun _ hq => h.primitive hw hq) fun body hbody => ⟨rfl, h.avoids.bodies w hw body hbody⟩
    rintro c (rfl | hint)
    · exact h.push fun heq => hw (Cell.ref.inj heq)
    · exact h.push fun heq => by simp [heq, Cell.isInt] at hint
  operand h := Simulation.operand_self (fun _ => rfl) h.agrees.stack fun _ hb =>
    h.restack fun hmem => h.avoids.references (hb.subset hmem)
  bounds h := Simulation.bounds_self (fun _ => rfl) h.agrees.stack fun _ hb =>
    h.restack fun hmem => h.avoids.references (hb.subset hmem)
  define := by
    rintro m m' name _ body _ h ⟨rfl, hname⟩ ⟨rfl, hbody⟩
    exact h.define hname hbody
  set := by
    rintro m m' name _ h ⟨rfl, hname⟩
    exact h.set hname 0
  enter := by
    intro m m' h index
    rw [h.agrees.loops]
    exact h.withLoops (index :: m.loops)
  leave := by
    intro m m' k k' h hk
    rw [h.agrees.loops]
    exact hk.withLoops m.loops
  items := by
    rintro ws _ ⟨rfl, hn⟩
    exact Simulation.forall₂_items_self (fun _ => rfl)
      (fun w hw => ⟨rfl, fun heq => hn (heq ▸ hw)⟩) fun vs hvs => ⟨rfl, fun hmem => hn (hvs hmem)⟩
  nil := by
    rintro ws _ ⟨rfl, -⟩
    rfl
  fails _ _ := rfl

/-- Let `m` and `m'` agree in all but what they hold under `n`, and let `m` avoid `n`: no reference
to it is on the stack, no other definition has it in its words, and no function makes a reference to
it. On a source without `n` both end in the same failure or in none, they agree in all but `n`
again, and each holds under `n` what it held before. -/
theorem evaluate_unmentioned {n : Word} {m m' : Machine} (hagrees : m.AgreesBut n m')
    (hm : m.Avoids n) (room : Nat) {source : Source} (hn : n ∉ source.queue) :
    (m'.evaluate room source).failure = (m.evaluate room source).failure ∧
    (m.evaluate room source).machine.AgreesBut n (m'.evaluate room source).machine ∧
    (m.evaluate room source).machine.under n = m.under n ∧
    (m'.evaluate room source).machine.under n = m'.under n := by
  have lawful := unmentioned_lawful n (m.under n) (m'.under n)
  have keeps := Simulation.runWords_simulates lawful (fun (_ : Unit) _ => ())
    (fun (_ : Unit) _ => ()) (Nat.le_refl (room + 1)) (.inl rfl) ⟨rfl, hn⟩
  rcases keeps m m' () () ⟨hagrees, hm, rfl, rfl⟩ with ⟨_, _, hx⟩ | ⟨hfails, hlike⟩
  · exact hx.elim
  · exact ⟨(Simulation.rel_eq.1 hfails).symm, hlike.agrees, hlike.under, hlike.under'⟩

/-- A sum of loop indices that is kept in `x`, with and without a variable and a definition `n`. -/
theorem evaluate_unmentioned_sum :
    let source := Source.text "4 0 DO i Add LOOP x @ x @ nope"
    ∃ m m' : Machine, m.under "n" = (none, none) ∧ m'.under "n" = (some 5, some (.words ["x"])) ∧
      (m'.evaluate nestingLimit source).failure = some (.fault (.undefined "nope")) ∧
      (m'.evaluate nestingLimit source).machine.stack = [.int 6, .int 6] ∧
      (m'.evaluate nestingLimit source).machine.under "n" = m'.under "n" := by
  intro source
  let m := (Machine.fresh.set "x" 0).define "add" (.words ["x", "@", "+", "x", "!"])
  let m' := (m.set "n" 5).define "n" (.words ["x"])
  have hm : m.Avoids "n" := ((Machine.fresh_avoids "n").set "x" 0).define "add" (by decide)
  have hagrees : m.AgreesBut "n" m' := by
    refine ⟨rfl, rfl, fun w hw => ?_, fun w hw => ?_⟩
    · exact (Table.find?_insert _ _ _ _).trans (if_neg hw)
    · exact (Table.find?_insert _ _ _ _).trans (if_neg hw)
  have hn : "n" ∉ source.queue := by decide +kernel
  have hrun : (m.evaluate nestingLimit source).failure = some (.fault (.undefined "nope")) ∧
      (m.evaluate nestingLimit source).machine.stack = [.int 6, .int 6] := by decide +kernel
  obtain ⟨hfails, hends, -, hunder⟩ := evaluate_unmentioned hagrees hm nestingLimit hn
  exact ⟨m, m', rfl, rfl, hfails.trans hrun.1, hends.stack.trans hrun.2, hunder⟩

end FlatForth
