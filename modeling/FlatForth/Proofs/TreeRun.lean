import FlatForth.Proofs.Depth
import FlatForth.Proofs.TreeMachine

/-!
Running the words of a tree is running the tree. Each construct and each turn of a loop has an
equation for what the run of its words does (`Task.run_seq` and the others), and these go over into
the rules for trees in both directions: a run of the words that does not nest too deep is one of the
tree (`exists_runs`), and one of the tree is a run of the words from some depth on (`Runs.run`).
-/

namespace FlatForth

def TreeEnding.withLoops (loops : List Int) (E : TreeEnding) : TreeEnding :=
  ⟨{ E.machine with loops := loops }, E.failure⟩

namespace Task

/-- Runs the words of a task, with `depth` levels for the bodies in it. -/
def run (depth : Nat) : Task → Machine → Ending
  | tree t, m => (runItems unwatched (runWords unwatched depth) t.items m ()).toEnding
  | turns body n index, m =>
    (FlatForth.turns (runWords unwatched depth) body.flatten n index m ()).toEnding

variable {d : Bool} (depth : Nat) (m : Machine)

theorem runWithin_flatten (t : Tree d) :
    m.runWithin (depth + 1) t.flatten = (tree t).run depth m := by
  change (runItems _ _ (items t.flatten) m ()).toEnding = _
  rw [items_flatten]
  rfl

theorem run_seq (a b : Tree d) :
    (tree (.seq a b)).run depth m = ((tree a).run depth m).andThen ((tree b).run depth) := by
  change (runItems _ _ (a.items ++ b.items) m ()).toEnding = _
  rw [runItems_append, toEnding_andThen]
  rfl

theorem run_item {t : Tree d} (item : Item) (h : t.items = [item]) :
    (tree t).run depth m = (perform unwatched (runWords unwatched depth) item m ()).toEnding := by
  change (runItems _ _ t.items m ()).toEnding = _
  rw [h, runItems_cons, runItems_nil, Action.andThen_skip]
  rfl

theorem run_word (w : PlainWord) :
    (tree (.word w : Tree d)).run depth m =
      if m.variables.contains w then (m.push (.ref w)).done
      else
        match m.dictionary.find? w with
        | some (.primitive p) => p.run m
        | some .probe => m.done
        | some (.words body) => m.runWithin depth body
        | none => m.pushNumeral w := by
  rw [run_item depth m (.word w) rfl]
  change (call _ _ w m ()).toEnding = _
  unfold call
  split
  · rfl
  · rcases m.dictionary.find? w with _ | ⟨_ | _ | _⟩ <;> rfl

theorem run_word_flatten (w : PlainWord) (M : TreeMachine) :
    (tree (.word w : Tree d)).run depth M.flatten =
      if M.variables.contains w then (M.push (.ref w)).flatten.done
      else
        match M.dictionary.find? w with
        | some (.primitive p) => (M.act p.run).flatten
        | some .probe => M.flatten.done
        | some (.tree body) => M.flatten.runWithin depth body.flatten
        | none => (M.act (Machine.pushNumeral w)).flatten := by
  rw [run_word, M.find?_flatten, M.flatten_act (pushNumeral_byItself w)]
  split
  · rename_i hv
    exact (if_pos hv).symm
  · rename_i hv
    rw [M.flatten_variables] at hv
    rw [if_neg hv]
    rcases M.dictionary.find? w with _ | ⟨p | _ | body⟩
    · rfl
    · exact (M.flatten_act (primitive_byItself p)).symm
    · rfl
    · rfl

/-- Runs the part of a branch, as a body if it has words. -/
def runPart (t : Tree d) : Ending :=
  if t.flatten = [] then m.done else m.runWithin depth t.flatten

theorem toEnding_runPart (t : Tree d) :
    (FlatForth.runPart (runWords unwatched depth) t.flatten m ()).toEnding = runPart depth m t := by
  unfold runPart
  cases h : t.flatten with
  | nil => rfl
  | cons w ws => rfl

theorem run_fork (a b : Tree d) :
    (tree (.fork a b)).run depth m =
      match operand m.stack with
      | .error f => m.fault f
      | .ok (n, below) => runPart depth { m with stack := below } (if n ≠ 0 then a else b) := by
  rw [run_item depth m (.branch a.flatten b.flatten true) rfl]
  change (runBranch _ _ _ _ _ m ()).toEnding = _
  unfold runBranch
  cases operand m.stack with
  | error f => rfl
  | ok r =>
    dsimp only
    rw [← toEnding_runPart, apply_ite Tree.flatten]

theorem run_branch (a : Tree d) :
    (tree (.branch a)).run depth m = (tree (.fork a .nothing)).run depth m := rfl

theorem run_loop (body : Tree d) :
    (tree (.loop body)).run depth m =
      match bounds m.stack with
      | .error f => m.fault f
      | .ok (start, limit, below) =>
        (turns body (limit - start).toNat start).run depth { m with stack := below } := by
  rw [run_item depth m (.loop (some body.flatten)) rfl]
  change (runLoop _ _ _ m ()).toEnding = _
  unfold runLoop
  cases bounds m.stack <;> rfl

theorem run_define (name : PlainWord) (hn : isNumeral name = false) (body : Tree false) :
    (tree (.define name hn body)).run depth m = (m.define name (.words body.flatten)).done :=
  run_item depth m (.define name body.flatten) rfl

theorem run_declare (name : PlainWord) :
    (tree (.declare name : Tree d)).run depth m = (m.set name 0).done :=
  run_item depth m (.declare (some (name : Word))) rfl

def runTurn (body : Tree d) (index : Int) : Ending :=
  ({ m with loops := index :: m.loops }.runWithin depth body.flatten).withLoops m.loops

theorem run_turns_succ (body : Tree d) (n : Nat) (index : Int) :
    (turns body (n + 1) index).run depth m =
      (runTurn depth m body index).andThen ((turns body n (index + 1)).run depth) := by
  have hturn : (turn (runWords unwatched depth) body.flatten index m ()).toEnding =
      runTurn depth m body index := by
    simp only [turn, runWords_loops, List.tail_cons]
    rfl
  change (FlatForth.turns _ _ (n + 1) index m ()).toEnding = _
  rw [turns_succ, toEnding_andThen, hturn]
  rfl

end Task

/-! From the words to the tree. -/

/-- `e` is a failure for nesting too deep, or the `flatten` of an ending that the task `Runs` to. -/
def Explains (task : Task) (M : TreeMachine) (e : Ending) : Prop :=
  e.failure ≠ some .nestedTooDeep → ∃ E, Runs task M E ∧ E.flatten = e

theorem explains_andThen {task : Task} {M : TreeMachine} {e : Ending} {f : Machine → Ending}
    {First : TreeEnding → Prop}
    (first : e.failure ≠ some .nestedTooDeep → ∃ E, First E ∧ E.flatten = e)
    (fails : ∀ M' why, First ⟨M', some why⟩ → Runs task M ⟨M', some why⟩)
    (second : ∀ M', First ⟨M', none⟩ → Explains task M (f M'.flatten)) :
    Explains task M (e.andThen f) := by
  intro h
  have hfirst : e.failure ≠ some .nestedTooDeep := by
    intro he
    rw [Ending.andThen, he] at h
    exact h he
  obtain ⟨⟨M', _ | why⟩, hF, rfl⟩ := first hfirst
  · exact second M' hF h
  · exact ⟨_, fails M' why hF, rfl⟩

theorem runs_of_flatten_nil {d : Bool} {t : Tree d} (h : t.flatten = []) (M : TreeMachine) :
    Runs (.tree t) M ⟨M, none⟩ := by
  induction t with
  | nothing => exact .nothing
  | seq a b iha ihb =>
    obtain ⟨ha, hb⟩ := List.append_eq_nil_iff.1 h
    exact .seq (iha ha) (ihb hb)
  | word | branch | fork | loop | define | declare => exact absurd h (List.cons_ne_nil _ _)

/-! What is run as a body is bounded one level lower, and is explained there. -/

section

variable {depth : Nat}
  (hd : ∀ {d : Bool} (t : Tree d) (M : TreeMachine),
    Explains (.tree t) M (M.flatten.runWithin depth t.flatten))

include hd

theorem explains_part {d : Bool} (t : Tree d) (M : TreeMachine) :
    Explains (.tree t) M (Task.runPart depth M.flatten t) := by
  unfold Task.runPart
  split
  · rename_i h
    exact fun _ => ⟨_, runs_of_flatten_nil h M, rfl⟩
  · exact hd t M

theorem explains_word {d : Bool} (w : PlainWord) (M : TreeMachine) :
    Explains (.tree (.word w : Tree d)) M ((Task.tree (.word w : Tree d)).run depth M.flatten) := by
  rw [Task.run_word_flatten]
  cases hv : M.variables.contains w with
  | true => exact fun _ => ⟨_, .reference hv, rfl⟩
  | false =>
    rcases hw : M.dictionary.find? w with _ | ⟨p | _ | body⟩
    · exact fun _ => ⟨_, .numeral hv hw, rfl⟩
    · exact fun _ => ⟨_, .primitive hv hw, rfl⟩
    · exact fun _ => ⟨_, .probe hv hw, rfl⟩
    · intro h
      obtain ⟨E, hE, he⟩ := hd body M h
      exact ⟨E, .call hv hw hE, he⟩

theorem explains_fork {d : Bool} (a b : Tree d) (M : TreeMachine) :
    Explains (.tree (.fork a b)) M ((Task.tree (.fork a b)).run depth M.flatten) := by
  rw [Task.run_fork, M.flatten_stack]
  cases ho : operand M.stack with
  | error f => exact fun _ => ⟨_, .forkRefused (operand_eq_error_iff.1 ho), rfl⟩
  | ok r =>
    intro h
    obtain ⟨E, hE, he⟩ := explains_part hd _ { M with stack := r.2 } h
    exact ⟨E, .fork (operand_eq_ok ho) hE, he⟩

theorem explains_turns {d : Bool} (body : Tree d) (n : Nat) (index : Int) (M : TreeMachine) :
    Explains (.turns body n index) M ((Task.turns body n index).run depth M.flatten) := by
  induction n generalizing index M with
  | zero => exact fun _ => ⟨_, .noTurns, rfl⟩
  | succ n ih =>
    rw [Task.run_turns_succ]
    have first (h : (Task.runTurn depth M.flatten body index).failure ≠ some .nestedTooDeep) :
        ∃ E, (∃ E', Runs (.tree body) { M with loops := index :: M.loops } E' ∧
          E = E'.withLoops M.loops) ∧ E.flatten = Task.runTurn depth M.flatten body index := by
      obtain ⟨E, hE, he⟩ := hd body { M with loops := index :: M.loops } h
      exact ⟨_, ⟨E, hE, rfl⟩, congrArg (Ending.withLoops M.loops) he⟩
    refine explains_andThen first ?_ ?_
    · rintro _ why ⟨⟨M', f⟩, hE, h⟩
      obtain ⟨rfl, rfl⟩ := TreeEnding.mk.inj h
      exact .turnFails hE
    · rintro _ ⟨⟨M', f⟩, hE, h⟩ hdeep
      obtain ⟨rfl, rfl⟩ := TreeEnding.mk.inj h
      obtain ⟨E, hrest, he⟩ := ih _ _ hdeep
      exact ⟨E, .turn hE hrest, he⟩

theorem explains_tree {d : Bool} (t : Tree d) (M : TreeMachine) :
    Explains (.tree t) M ((Task.tree t).run depth M.flatten) := by
  induction t generalizing M with
  | nothing => exact fun _ => ⟨_, .nothing, rfl⟩
  | seq a b iha ihb =>
    rw [Task.run_seq]
    refine explains_andThen (iha M) (fun M' why h => .seqFails h) ?_
    intro M' ha hdeep
    obtain ⟨E, hb, he⟩ := ihb M' hdeep
    exact ⟨E, .seq ha hb, he⟩
  | word w => exact explains_word hd w M
  | branch a _ =>
    rw [Task.run_branch]
    intro h
    obtain ⟨E, hE, he⟩ := explains_fork hd a .nothing M h
    exact ⟨E, .branch hE, he⟩
  | fork a b _ _ => exact explains_fork hd a b M
  | loop body _ =>
    rw [Task.run_loop, M.flatten_stack]
    cases hb : bounds M.stack with
    | error f => exact fun _ => ⟨_, .loopRefused (bounds_eq_error_iff.1 hb), rfl⟩
    | ok r =>
      intro h
      obtain ⟨E, hE, he⟩ := explains_turns hd body _ _ { M with stack := r.2.2 } h
      exact ⟨E, .loop (bounds_eq_ok hb) hE, he⟩
  | define name hn body _ =>
    rw [Task.run_define, ← M.flatten_define]
    exact fun _ => ⟨_, .define, rfl⟩
  | declare name =>
    rw [Task.run_declare]
    exact fun _ => ⟨_, .declare, rfl⟩

end

theorem exists_runs (depth : Nat) {d : Bool} (t : Tree d) (M : TreeMachine) :
    Explains (.tree t) M (M.flatten.runWithin depth t.flatten) := by
  induction depth generalizing d t M with
  | zero => exact fun h => absurd rfl h
  | succ depth ih =>
    rw [Task.runWithin_flatten]
    exact explains_tree ih t M

/-! From the tree to the words. -/

/-- The runs end as `e` from some depth on. -/
def Settles (run : Nat → Ending) (e : Ending) : Prop := ∃ depth, ∀ deep ≥ depth, run deep = e

theorem settles_of_eq {run : Nat → Ending} {e : Ending} (h : ∀ depth, run depth = e) :
    Settles run e := ⟨0, fun depth _ => h depth⟩

theorem Settles.congr {run run' : Nat → Ending} {e : Ending} (h : Settles run e)
    (hr : ∀ depth, run' depth = run depth) : Settles run' e := by
  obtain ⟨k, hk⟩ := h
  exact ⟨k, fun depth hd => (hr depth).trans (hk depth hd)⟩

theorem Settles.withLoops {run : Nat → Ending} {e : Ending} (h : Settles run e) (loops : List Int) :
    Settles (fun depth => (run depth).withLoops loops) (e.withLoops loops) := by
  obtain ⟨k, hk⟩ := h
  exact ⟨k, fun depth hd => congrArg (Ending.withLoops loops) (hk depth hd)⟩

theorem Settles.andThen {run : Nat → Ending} {rest : Nat → Machine → Ending} {m : Machine}
    {e : Ending} (h : Settles run m.done) (h' : Settles (rest · m) e) :
    Settles (fun depth => (run depth).andThen (rest depth)) e := by
  obtain ⟨k, hk⟩ := h
  obtain ⟨k', hk'⟩ := h'
  refine ⟨max k k', fun depth hd => ?_⟩
  dsimp only
  rw [hk depth (by omega)]
  exact hk' depth (by omega)

theorem Settles.andThen_of_stop {run : Nat → Ending} {rest : Nat → Machine → Ending} {m : Machine}
    {why : Failure} (h : Settles run (m.stop why)) :
    Settles (fun depth => (run depth).andThen (rest depth)) (m.stop why) := by
  obtain ⟨k, hk⟩ := h
  refine ⟨k, fun depth hd => ?_⟩
  dsimp only
  rw [hk depth hd]
  rfl

section

variable {d : Bool} {t : Tree d} {m : Machine} {e : Ending}

theorem Settles.body (h : Settles (fun depth => (Task.tree t).run depth m) e) :
    Settles (fun depth => m.runWithin depth t.flatten) e := by
  obtain ⟨k, hk⟩ := h
  refine ⟨k + 1, fun depth hd => ?_⟩
  obtain ⟨depth, rfl⟩ : ∃ n, depth = n + 1 := ⟨depth - 1, by omega⟩
  exact (Task.runWithin_flatten depth m t).trans (hk depth (by omega))

theorem Settles.part (h : Settles (fun depth => (Task.tree t).run depth m) e) :
    Settles (fun depth => Task.runPart depth m t) e := by
  obtain ⟨k, hk⟩ := h.body
  refine ⟨k + 1, fun depth hd => ?_⟩
  obtain ⟨depth, rfl⟩ : ∃ n, depth = n + 1 := ⟨depth - 1, by omega⟩
  refine Eq.trans ?_ (hk (depth + 1) (by omega))
  unfold Task.runPart
  split
  · rename_i ht
    rw [ht]
    change _ = (runItems _ _ (items []) m ()).toEnding
    rw [items]
    rfl
  · rfl

end

theorem Runs.run {task : Task} {M : TreeMachine} {E : TreeEnding} (h : Runs task M E) :
    Settles (fun depth => task.run depth M.flatten) E.flatten := by
  induction h with
  | nothing => exact settles_of_eq fun _ => rfl
  | seq _ _ ih ih' => exact (ih.andThen ih').congr fun depth => Task.run_seq depth _ _ _
  | seqFails _ ih => exact ih.andThen_of_stop.congr fun depth => Task.run_seq depth _ _ _
  | @reference d w M hv =>
    refine settles_of_eq fun depth => ?_
    rw [Task.run_word_flatten, hv]
    rfl
  | @primitive d w M p hv hw | @probe d w M hv hw | @numeral d w M hv hw =>
    refine settles_of_eq fun depth => ?_
    rw [Task.run_word_flatten, hv, hw]
    rfl
  | @call d w M body e hv hw _ ih =>
    refine ih.body.congr fun depth => ?_
    rw [Task.run_word_flatten, hv, hw]
    rfl
  | branch _ ih => exact ih.congr fun depth => Task.run_branch depth _ _
  | @fork d M n below e a b ho _ ih =>
    refine ih.part.congr fun depth => ?_
    rw [Task.run_fork, M.flatten_stack, ho]
    rfl
  | @forkRefused d M f a b ho =>
    refine settles_of_eq fun depth => ?_
    rw [Task.run_fork, M.flatten_stack, operand_eq_error_iff.2 ho]
    rfl
  | @loop d M start limit below e body hb _ ih =>
    refine ih.congr fun depth => ?_
    rw [Task.run_loop, M.flatten_stack, hb]
    rfl
  | @loopRefused d M f body hb =>
    refine settles_of_eq fun depth => ?_
    rw [Task.run_loop, M.flatten_stack, bounds_eq_error_iff.2 hb]
    rfl
  | @define name hn body M =>
    refine settles_of_eq fun depth => ?_
    rw [Task.run_define, ← M.flatten_define]
    rfl
  | declare => exact settles_of_eq fun depth => Task.run_declare depth _ _
  | noTurns => exact settles_of_eq fun _ => rfl
  | @turn d n index M M' e body _ _ ih ih' =>
    have first := ih.body.withLoops M.loops
    exact (first.andThen ih').congr fun depth => Task.run_turns_succ depth M.flatten body n index
  | @turnFails d n index M M' why body _ ih =>
    have first := ih.body.withLoops M.loops
    exact first.andThen_of_stop.congr fun depth =>
      Task.run_turns_succ depth M.flatten body n index

/-- A well-nested machine `m` is the `flatten` of tree machines, and on each of them `Runs` of the
tree `t` tell how its words are evaluated on `m`: where these do not end in `nestedTooDeep`, the
tree runs, and to the same ending only; where the tree runs, its words end as it does from some
depth on. -/
theorem evaluate_flatten {m : Machine} (hm : m.WellNested) {d : Bool} (t : Tree d)
    (room : Nat) {source : Source} (hs : source.queue = t.flatten) :
    (∃ M : TreeMachine, M.flatten = m) ∧ ∀ M : TreeMachine, M.flatten = m →
      ((m.evaluate room source).failure ≠ some .nestedTooDeep →
        (∃ E, Runs (.tree t) M E) ∧ ∀ E, Runs (.tree t) M E → m.evaluate room source = E.flatten) ∧
      ∀ E, Runs (.tree t) M E →
        ∃ depth, ∀ deep ≥ depth, m.runWithin deep t.flatten = E.flatten := by
  refine ⟨hm.exists_flatten, ?_⟩
  rintro M rfl
  have hsettles (E : TreeEnding) (hE : Runs (.tree t) M E) :
      Settles (fun depth => M.flatten.runWithin depth t.flatten) E.flatten := hE.run.body
  refine ⟨fun hdeep => ?_, hsettles⟩
  unfold Machine.evaluate at hdeep ⊢
  rw [hs] at hdeep ⊢
  obtain ⟨E, hE, -⟩ := exists_runs (room + 1) t M hdeep
  refine ⟨⟨E, hE⟩, fun E hE => ?_⟩
  obtain ⟨k, hk⟩ := hsettles E hE
  have hroom := runWords_deeper unwatched unwatched (Nat.le_max_left (room + 1) k) hdeep ()
  exact hroom.symm.trans (hk _ (Nat.le_max_right (room + 1) k))

/-- A loop with a branch in it, of which the first turn takes the second part, and the second turn
calls a defined word that pushes the index twice. -/
theorem evaluate_flatten_twice :
    let source := Source.text "DO i IF twice ELSE 7 THEN LOOP"
    let body : Tree true := .seq (.word ⟨"i", by decide⟩)
      (.fork (.word ⟨"twice", by decide⟩) (.word ⟨"7", by decide⟩))
    ∃ (M : TreeMachine) (E : TreeEnding), Runs (.tree (.loop body)) M E ∧
      M.stack = [.int 0, .int 2] ∧ M.flatten.evaluate nestingLimit source = E.flatten ∧
        E.machine.stack = [.int 1, .int 1, .int 7] := by
  intro source body
  let i : Tree false := .word ⟨"i", by decide⟩
  let M : TreeMachine := ⟨[.int 0, .int 2], .empty,
    ⟨[("i", .primitive .innerIndex), ("twice", .tree (.seq i i))], by decide +kernel⟩, []⟩
  have hs : source.queue = (Tree.loop body).flatten := by decide +kernel
  have hdeep : (M.flatten.evaluate nestingLimit source).failure ≠ some .nestedTooDeep := by
    decide +kernel
  have hstack : (M.flatten.evaluate nestingLimit source).machine.stack =
      [.int 1, .int 1, .int 7] := by decide +kernel
  obtain ⟨-, h⟩ := evaluate_flatten M.flatten_wellNested (.loop body) nestingLimit hs
  obtain ⟨⟨E, hE⟩, hall⟩ := (h M rfl).1 hdeep
  have heq : M.flatten.evaluate nestingLimit source = E.flatten := hall E hE
  rw [heq] at hstack
  exact ⟨M, E, hE, rfl, heq, hstack⟩

end FlatForth
