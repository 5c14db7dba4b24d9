import FlatForth.Proofs.TreeRun

/-!
The words of a definition in place of its name. A call runs the definition as a body of its own; the
words that take the place of the call are run by whatever the call stood in, and are seen by the
scans of every construct around them. Programs that are inlined so do the same, with no more room to
nest (`evaluate_inline`): the words of a well-nested definition come out of every scan as the tree
that the call runs.
-/

namespace FlatForth

/-- `ws` with `body` in place of every `w`. -/
def substitute (w : Word) (body ws : List Word) : List Word :=
  ws.flatMap fun v => if v = w then body else [v]

section

variable (w : Word) (body : List Word)

@[simp] theorem substitute_nil : substitute w body [] = [] := rfl

@[simp] theorem substitute_append (ws vs : List Word) :
    substitute w body (ws ++ vs) = substitute w body ws ++ substitute w body vs := List.flatMap_append

theorem substitute_self : substitute w body [w] = body := by simp [substitute]

variable {w}

theorem substitute_cons {v : Word} (h : v ≠ w) (ws : List Word) :
    substitute w body (v :: ws) = v :: substitute w body ws := by simp [substitute, h]

end

namespace Tree

/-- The tree with `body` in place of every call of `w`. -/
def inline (w : Word) (body : Tree false) : Tree false → Tree false
  | nothing => nothing
  | seq a b => seq (inline w body a) (inline w body b)
  | word v => if v.1 = w then body else word v
  | branch a => branch (inline w body a)
  | fork a b => fork (inline w body a) (inline w body b)
  | loop a => loop (inline w body a)
  | declare name => declare name

/-- The tree has no definitions, and does not declare `w` a variable. -/
def Spares (w : Word) {d : Bool} : Tree d → Prop
  | nothing | word _ => True
  | seq a b | fork a b => a.Spares w ∧ b.Spares w
  | branch a | loop a => a.Spares w
  | define _ _ _ => False
  | declare name => name.1 ≠ w

variable {w : Word}

theorem spares_of_not_infix {d : Bool} (hd : d = false) (t : Tree d)
    (h : ¬[Keyword.declare, w] <:+: t.flatten) : t.Spares w := by
  induction t with
  | nothing | word => trivial
  | seq a b iha ihb =>
    exact ⟨iha hd fun hin => h (hin.trans (List.prefix_append _ _).isInfix),
      ihb hd fun hin => h (hin.trans (List.suffix_append _ _).isInfix)⟩
  | branch a ih | loop a ih => exact ih hd fun hin => h (hin.trans ⟨[_], [_], rfl⟩)
  | fork a b iha ihb =>
    refine ⟨iha hd fun hin => h (hin.trans ⟨[_], _, rfl⟩), ihb hd fun hin => h (hin.trans ?_)⟩
    exact ⟨Keyword.branch :: (a.flatten ++ [Keyword.otherwise]), [Keyword.endBranch],
      by simp [flatten]⟩
  | define => cases hd
  | declare name =>
    rintro rfl
    exact h (List.infix_refl _)

/-- `substitute` does to the words of a tree what `inline` does to the tree: `w` is no keyword, so
no construct is torn. -/
theorem flatten_inline (hw : w ∉ Keyword.all) (body t : Tree false) (ht : t.Spares w) :
    (inline w body t).flatten = substitute w body.flatten t.flatten := by
  have keyword {k : Word} (hk : k ∈ Keyword.all) (ws : List Word) :
      substitute w body.flatten (k :: ws) = k :: substitute w body.flatten ws :=
    substitute_cons _ (ne_of_mem_of_not_mem hk hw) ws
  have branch := keyword (k := Keyword.branch) (by decide)
  have otherwise := keyword (k := Keyword.otherwise) (by decide)
  have endBranch := keyword (k := Keyword.endBranch) (by decide)
  have loop := keyword (k := Keyword.loop) (by decide)
  have endLoop := keyword (k := Keyword.endLoop) (by decide)
  fun_induction inline w body t with
  | case1 => rfl
  | case2 a b iha ihb => simp only [flatten, substitute_append, iha ht.1, ihb ht.2]
  | case3 v hv => rw [flatten, hv, substitute_self]
  | case4 v hv => exact (substitute_cons _ hv []).symm
  | case5 a ih => simp only [flatten, substitute_append, substitute_nil, branch, endBranch, ih ht]
  | case6 a b iha ihb =>
    simp only [flatten, substitute_append, substitute_nil, branch, otherwise, endBranch, iha ht.1,
      ihb ht.2]
  | case7 a ih => simp only [flatten, substitute_append, substitute_nil, loop, endLoop, ih ht]
  | case8 name => rw [flatten, keyword (by decide), substitute_cons _ ht, substitute_nil]

end Tree

theorem Tree.Spares.part {w : Word} {d : Bool} {a b : Tree d} (h : (Tree.fork a b).Spares w)
    (p : Prop) [Decidable p] : (if p then a else b).Spares w := by
  split
  · exact h.1
  · exact h.2

def Task.Spares (w : Word) : Task → Prop
  | tree t => t.Spares w
  | turns body _ _ => body.Spares w

namespace TreeMachine

/-- A call of `w` on `M` runs `body`, and no definition of `M` can change that. -/
structure Means (w : Word) (body : Tree false) (M : TreeMachine) : Prop where
  undeclared : M.variables.contains w = false
  entry : M.dictionary.find? w = some (.tree body)
  stored : ∀ v t, M.dictionary.find? v = some (.tree t) → t.Spares w

end TreeMachine

section

variable {w : Word} {body : Tree false}

theorem TreeMachine.Means.congr {M M' : TreeMachine} (hM : M.Means w body)
    (hd : M'.dictionary = M.dictionary)
    (hv : M'.variables.contains w = M.variables.contains w) : M'.Means w body where
  undeclared := hv.trans hM.undeclared
  entry := hd ▸ hM.entry
  stored := hd ▸ hM.stored

theorem TreeMachine.Means.restack {M : TreeMachine} (hM : M.Means w body) (stack : List Cell) :
    TreeMachine.Means w body { M with stack := stack } := hM.congr rfl rfl

theorem TreeMachine.Means.withLoops {M : TreeMachine} (hM : M.Means w body) (loops : List Int) :
    TreeMachine.Means w body { M with loops := loops } := hM.congr rfl rfl

theorem Runs.means {task : Task} {M : TreeMachine} {E : TreeEnding} (h : Runs task M E)
    (ht : task.Spares w) (hM : M.Means w body) : E.machine.Means w body := by
  induction h with
  | nothing | probe | forkRefused | loopRefused | noTurns => exact hM
  | seq _ _ iha ihb => exact ihb ht.2 (iha ht.1 hM)
  | seqFails _ ih => exact ih ht.1 hM
  | reference => exact hM.restack _
  | @primitive _ _ _ p _ _ => exact hM.congr rfl (primitive_declared p _ w)
  | numeral => exact hM.congr rfl (congrArg (Table.contains · w) (pushNumeral_variables _ _))
  | call _ hw _ ih => exact ih (hM.stored _ _ hw) hM
  | branch _ ih => exact ih ⟨ht, trivial⟩ hM
  | fork _ _ ih => exact ih (ht.part _) (hM.restack _)
  | loop _ _ ih => exact ih ht (hM.restack _)
  | define => exact ht.elim
  | @declare _ name M =>
    refine hM.congr rfl ?_
    have hne : w ≠ name := Ne.symm ht
    simp only [TreeMachine.set, Table.contains_insert, hne, decide_false, Bool.false_or]
  | turn _ _ ihturn ihrest => exact ihrest ht ((ihturn ht (hM.withLoops _)).withLoops _)
  | turnFails _ ih => exact (ih ht (hM.withLoops _)).withLoops _

theorem Explains.means {task : Task} {M : TreeMachine} {e : Ending} (h : Explains task M e)
    (ht : task.Spares w) (hM : M.Means w body) (hdeep : e.failure ≠ some .nestedTooDeep) :
    ∃ M', TreeMachine.flatten M' = e.machine ∧ M'.Means w body := by
  obtain ⟨E, hE, rfl⟩ := h hdeep
  exact ⟨E.machine, rfl, hE.means ht hM⟩

end

/-! Inlined words do the same, and need no more room. -/

/-- A tree ends where it stands as it does when it is run as a body, one level deeper. -/
theorem carries_body (depth : Nat) {d : Bool} (t : Tree d) (m : Machine) :
    (m.runWithin depth t.flatten).CarriesTo ((Task.tree t).run depth m) := by
  rw [← Task.runWithin_flatten]
  exact carries_deeper (Nat.le_succ depth) t.flatten m

theorem carries_part (depth : Nat) {d : Bool} (t : Tree d) (m : Machine) :
    (m.runWithin depth t.flatten).CarriesTo (Task.runPart depth m t) := by
  unfold Task.runPart
  split
  · rename_i ht
    rw [ht]
    exact carries_body depth (.nothing : Tree d) m
  · exact .refl _

section

variable {w : Word} {body : Tree false} {depth : Nat}
  (hd : ∀ (t : Tree false) (M : TreeMachine), t.Spares w → M.Means w body →
    (M.flatten.runWithin depth t.flatten).CarriesTo
      (M.flatten.runWithin depth (Tree.inline w body t).flatten))

include hd

theorem carries_turns_inline {t : Tree false} (ht : t.Spares w) (n : Nat) (index : Int)
    {M : TreeMachine} (hM : M.Means w body) :
    ((Task.turns t n index).run depth M.flatten).CarriesTo
      ((Task.turns (Tree.inline w body t) n index).run depth M.flatten) := by
  induction n generalizing index M with
  | zero => exact .refl _
  | succ n ih =>
    have hin := hM.withLoops (index :: M.loops)
    rw [Task.run_turns_succ, Task.run_turns_succ]
    refine ((hd t _ ht hin).withLoops M.loops).andThen fun hdone => ?_
    obtain ⟨M', hflat, hmeans⟩ := (exists_runs depth t _).means ht hin (hdone ▸ nofun)
    simp only [Ending.withLoops, ← hflat]
    exact ih (index + 1) (hmeans.withLoops M.loops)

variable (hw : w ∉ Keyword.all)

include hw

theorem carries_part_inline {t : Tree false} {M : TreeMachine} (ht : t.Spares w)
    (hM : M.Means w body) : (Task.runPart depth M.flatten t).CarriesTo
      (Task.runPart depth M.flatten (Tree.inline w body t)) := by
  -- A part without words has none afterwards, either; a call of an empty word does give way to none,
  -- and what was run as a body is then not run at all.
  by_cases h : t.flatten = []
  · have hnil : (Tree.inline w body t).flatten = [] := by
      rw [Tree.flatten_inline hw body t ht, h, substitute_nil]
    rw [Task.runPart, if_pos h, Task.runPart, if_pos hnil]
    exact .refl _
  · rw [Task.runPart, if_neg h]
    exact (hd t M ht hM).trans (carries_part depth _ _)

theorem carries_fork_inline {a b : Tree false} {M : TreeMachine} (ha : a.Spares w)
    (hb : b.Spares w) (hM : M.Means w body) : ((Task.tree (.fork a b)).run depth M.flatten).CarriesTo
      ((Task.tree (.fork (Tree.inline w body a) (Tree.inline w body b))).run depth M.flatten) := by
  rw [Task.run_fork, Task.run_fork, M.flatten_stack]
  cases ho : operand M.stack with
  | error f => exact .refl _
  | ok r =>
    have hbelow := hM.restack r.2
    dsimp only
    split
    · exact carries_part_inline hd hw ha hbelow
    · exact carries_part_inline hd hw hb hbelow

theorem carries_tree_inline (t : Tree false) (ht : t.Spares w) {M : TreeMachine}
    (hM : M.Means w body) : ((Task.tree t).run depth M.flatten).CarriesTo
      ((Task.tree (Tree.inline w body t)).run depth M.flatten) := by
  fun_induction Tree.inline w body t generalizing M with
  | case1 | case4 | case8 => exact .refl _
  | case2 a b iha ihb =>
    rw [Task.run_seq, Task.run_seq]
    refine (iha ht.1 hM).andThen fun hdone => ?_
    -- What the first part leaves is a machine of trees again, on which the word means the same.
    have hfirst := explains_tree (exists_runs depth) a M
    obtain ⟨M', hflat, hmeans⟩ := hfirst.means ht.1 hM (hdone ▸ nofun)
    rw [← hflat]
    exact ihb ht.2 hmeans
  | case3 v hv =>
    rw [Task.run_word_flatten, hv, hM.undeclared, hM.entry]
    exact carries_body depth body M.flatten
  | case5 a _ =>
    rw [Task.run_branch, Task.run_branch]
    have h := carries_fork_inline hd hw (a := a) (b := .nothing) ht trivial hM
    simpa only [Tree.inline] using h
  | case6 a b _ _ => exact carries_fork_inline hd hw ht.1 ht.2 hM
  | case7 a _ =>
    rw [Task.run_loop, Task.run_loop, M.flatten_stack]
    cases bounds M.stack with
    | error f => exact .refl _
    | ok r => exact carries_turns_inline hd (t := a) ht _ _ (hM.restack r.2.2)

end

theorem carries_inline {w : Word} {body : Tree false} (hw : w ∉ Keyword.all) (depth : Nat)
    (t : Tree false) (M : TreeMachine) (ht : t.Spares w) (hM : M.Means w body) :
    (M.flatten.runWithin depth t.flatten).CarriesTo
      (M.flatten.runWithin depth (Tree.inline w body t).flatten) := by
  induction depth generalizing t M with
  | zero => exact fun hdeep => absurd rfl hdeep
  | succ depth ih =>
    rw [Task.runWithin_flatten, Task.runWithin_flatten]
    exact carries_tree_inline ih hw t ht hM

/-! Calls do what the inlined words do, where there is room. -/

section

variable {w : Word} {body : Tree false}

/-- Where `w` means `body`, `t` runs to every ending that `t'` runs to. -/
def Tree.Follows (t t' : Tree false) (w : Word) (body : Tree false) : Prop :=
  ∀ {M E}, TreeMachine.Means w body M → Runs (.tree t') M E → Runs (.tree t) M E

theorem runs_fork_of_follows {a a' b b' : Tree false} (ha : a.Follows a' w body)
    (hb : b.Follows b' w body) {M : TreeMachine} {E : TreeEnding} (hM : M.Means w body)
    (h : Runs (.tree (.fork a' b')) M E) : Runs (.tree (.fork a b)) M E := by
  cases h with
  | fork ho h =>
    refine .fork ho ?_
    split at h
    · rename_i hn
      rw [if_pos hn]
      exact ha (hM.restack _) h
    · rename_i hn
      rw [if_neg hn]
      exact hb (hM.restack _) h
  | forkRefused ho => exact .forkRefused ho

theorem runs_turns_of_follows {t t' : Tree false} (ht : t.Spares w) (hrun : t.Follows t' w body)
    {n : Nat} {index : Int} {M : TreeMachine} {E : TreeEnding} (hM : M.Means w body)
    (h : Runs (.turns t' n index) M E) : Runs (.turns t n index) M E := by
  induction n generalizing index M with
  | zero =>
    cases h with
    | noTurns => exact .noTurns
  | succ n ih =>
    have hin := hM.withLoops (index :: M.loops)
    cases h with
    | turn hturn hrest =>
      have hturn := hrun hin hturn
      exact .turn hturn (ih ((hturn.means ht hin).withLoops M.loops) hrest)
    | turnFails hturn => exact .turnFails (hrun hin hturn)

theorem follows_inline (t : Tree false) (ht : t.Spares w) :
    t.Follows (Tree.inline w body t) w body := by
  intro M E hM h
  fun_induction Tree.inline w body t generalizing M E with
  | case1 | case4 | case8 => exact h
  | case2 a b iha ihb =>
    cases h with
    | seq ha hb =>
      have ha := iha ht.1 hM ha
      exact .seq ha (ihb ht.2 (ha.means ht.1 hM) hb)
    | seqFails ha => exact .seqFails (iha ht.1 hM ha)
  | case3 v hv =>
    subst hv
    exact .call hM.undeclared hM.entry h
  | case5 a ih =>
    cases h with
    | branch h => exact .branch (runs_fork_of_follows (ih ht) (fun _ hb => hb) hM h)
  | case6 a b iha ihb => exact runs_fork_of_follows (iha ht.1) (ihb ht.2) hM h
  | case7 a ih =>
    cases h with
    | loop hb h => exact .loop hb (runs_turns_of_follows (t := a) ht (ih ht) (hM.restack _) h)
    | loopRefused hb => exact .loopRefused hb

end

theorem TreeMachine.means_of_flatten {M : TreeMachine} {w : Word} {words : List Word}
    (hv : M.flatten.variables.contains w = false)
    (hw : M.flatten.dictionary.find? w = some (.words words))
    (hstored : ∀ v ws, M.flatten.dictionary.find? v = some (.words ws) →
      ¬[Keyword.declare, w] <:+: ws) :
    ∃ body : Tree false, body.flatten = words ∧ M.Means w body := by
  rw [M.find?_flatten] at hw
  obtain ⟨meaning, hmeaning, hentry⟩ := Option.map_eq_some_iff.1 hw
  cases meaning with
  | primitive | probe => cases hentry
  | tree body =>
    refine ⟨body, Entry.words.inj hentry, hv, hmeaning, fun v t hfind => ?_⟩
    refine t.spares_of_not_infix rfl (hstored v t.flatten ?_)
    rw [M.find?_flatten, hfind]
    rfl

/-- On a well-nested machine let `w` be defined as `body`, be no variable, and be declared by no
definition, nor by the tree `t`. Unless the words of `t` end in `nestedTooDeep`, they end alike with
`body` substituted for `w`. Unless the substituted words end so, those of `t` end like them from
some depth on. -/
theorem evaluate_inline {m : Machine} (hm : m.WellNested) {w : Word} {body : List Word}
    (hw : w ∉ Keyword.all) (hbody : m.dictionary.find? w = some (.words body))
    (hv : m.variables.contains w = false)
    (hstored : ∀ v ws, m.dictionary.find? v = some (.words ws) → ¬[Keyword.declare, w] <:+: ws)
    {t : Tree false} (ht : ¬[Keyword.declare, w] <:+: t.flatten) (room : Nat)
    {source source' : Source} (hs : source.queue = t.flatten)
    (hs' : source'.queue = substitute w body t.flatten) :
    ((m.evaluate room source).failure ≠ some .nestedTooDeep →
      m.evaluate room source' = m.evaluate room source) ∧
    ((m.evaluate room source').failure ≠ some .nestedTooDeep →
      ∃ depth, ∀ deep ≥ depth, m.runWithin deep source.queue = m.evaluate room source') := by
  obtain ⟨M, rfl⟩ := hm.exists_flatten
  obtain ⟨body, rfl, hM⟩ := TreeMachine.means_of_flatten hv hbody hstored
  have ht := t.spares_of_not_infix rfl ht
  rw [← Tree.flatten_inline hw body t ht] at hs'
  unfold Machine.evaluate
  rw [hs, hs']
  refine ⟨carries_inline hw (room + 1) t M ht hM, fun hdeep => ?_⟩
  obtain ⟨E, hE, heq⟩ := exists_runs (room + 1) (Tree.inline w body t) M hdeep
  rw [← heq]
  exact (follows_inline t ht hM hE).run.body

/-- A word that takes one from the top, called in a branch in a loop. -/
theorem evaluate_inline_down :
    ∃ m : Machine, m.dictionary.find? "down" = some (.words ["1", "-"]) ∧ m.stack = [.int 10] ∧
      (m.evaluate nestingLimit (.text "2 0 DO dup IF down THEN LOOP")).machine.stack = [.int 8] ∧
        m.evaluate nestingLimit (.text "2 0 do dup if 1 - then loop") =
          m.evaluate nestingLimit (.text "2 0 DO dup IF down THEN LOOP") := by
  let down : Tree false := .seq (.word ⟨"1", by decide⟩) (.word ⟨"-", by decide⟩)
  let M : TreeMachine := ⟨[.int 10], .empty,
    ⟨[("-", .primitive (.function .subtract)), ("down", .tree down),
      ("dup", .primitive (.function .dup))], by decide +kernel⟩, []⟩
  let t : Tree false :=
    .seq (.word ⟨"2", by decide⟩) (.seq (.word ⟨"0", by decide⟩)
      (.loop (.seq (.word ⟨"dup", by decide⟩) (.branch (.word ⟨"down", by decide⟩)))))
  have hdown : M.flatten.dictionary.find? "down" = some (.words ["1", "-"]) := rfl
  have hstored (v : Word) (ws : List Word)
      (h : M.flatten.dictionary.find? v = some (.words ws)) :
      ¬[Keyword.declare, "down"] <:+: ws := by
    obtain ⟨-, rfl⟩ : v = "down" ∧ ws = ["1", "-"] := by
      simpa [M, TreeMachine.flatten, Table.map, Meaning.entry, down, Tree.flatten] using
        Table.mem_of_find? h
    decide
  have hs : (Source.text "2 0 DO dup IF down THEN LOOP").queue = t.flatten := by decide +kernel
  have hs' : (Source.text "2 0 do dup if 1 - then loop").queue =
      substitute "down" ["1", "-"] t.flatten := by decide +kernel
  have hrun : (M.flatten.evaluate nestingLimit (.text "2 0 DO dup IF down THEN LOOP")).failure ≠
        some .nestedTooDeep ∧
      (M.flatten.evaluate nestingLimit (.text "2 0 DO dup IF down THEN LOOP")).machine.stack =
        [.int 8] := by
    decide +kernel
  have h := evaluate_inline M.flatten_wellNested (by decide) hdown rfl hstored
    (t := t) (by decide) nestingLimit hs hs'
  exact ⟨M.flatten, hdown, rfl, hrun.2, h.1 hrun.1⟩

end FlatForth
