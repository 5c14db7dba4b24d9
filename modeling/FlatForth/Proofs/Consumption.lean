import FlatForth.Proofs.Depth
import FlatForth.Proofs.Matching
import FlatForth.Proofs.Reading
import FlatForth.Proofs.SelfContained

/-!
What one word takes from the queue behind it. A word that opens no construct takes nothing, whatever
it runs; a construct takes its own words, and those only once its operands are found on the stack.
How its body then fares does not matter (`interpret_leaves`). A run goes on with what its first word
has left (`runWords_cons`).
-/

namespace FlatForth

variable {σ : Type}

/-- `if` finds an integer on the stack, and `do` two; any other word is ready on every machine. -/
structure Machine.Ready (m : Machine) (w : Word) : Prop where
  branch : w = Keyword.branch → ∃ n below, m.stack = .int n :: below
  loop : w = Keyword.loop → ∃ start limit below, m.stack = .int start :: .int limit :: below

/-- `Leaves w queue rest`: of the queue behind a word `w` that is ready, `rest` is left. -/
inductive Leaves : Word → List Word → List Word → Prop
  | word {w queue} : w ∉ Keyword.openers → Leaves w queue queue
  | declare (queue : List Word) : Leaves Keyword.declare queue queue.tail
  | nameless : Leaves Keyword.define [] []
  | number {name rest} : isNumeral name = true → Leaves Keyword.define (name :: rest) rest
  | define {name body rest} : isNumeral name = false → Keyword.endDefine ∉ body →
      Leaves Keyword.define (name :: (body ++ Keyword.endDefine :: rest)) rest
  | undefined {name rest} : isNumeral name = false → Keyword.endDefine ∉ rest →
      Leaves Keyword.define (name :: rest) []
  | branch {queue block rest} : branchMarkers.Ends queue block rest →
      Leaves Keyword.branch queue rest
  | openBranch {queue} : (¬∃ block rest, branchMarkers.Ends queue block rest) →
      Leaves Keyword.branch queue []
  | loop {queue block rest} : loopMarkers.Ends queue block rest → Leaves Keyword.loop queue rest
  | openLoop {queue} : (¬∃ block rest, loopMarkers.Ends queue block rest) →
      Leaves Keyword.loop queue []

/-! Reading leaves just that. -/

theorem leaves_readDefinition (queue : List Word) :
    Leaves Keyword.define queue (Item.readDefinition queue).2 := by
  rcases queue with _ | ⟨name, ws⟩
  · exact .nameless
  · by_cases hn : isNumeral name = true
    · simpa [Item.readDefinition, hn] using Leaves.number hn
    · have hname : isNumeral name = false := by simpa using hn
      rw [Item.readDefinition, if_neg hn]
      change Leaves Keyword.define (name :: ws) (definitionMarkers.scan ws).rest
      rcases Markers.definitionMarkers_apart.ends_or_no_end ws with ⟨body, hb⟩ | ⟨hrest, hnone⟩
      · generalize (definitionMarkers.scan ws).rest = rest at hb ⊢
        obtain ⟨rfl, hmatched⟩ := hb
        exact .define hname
          (Markers.closer_not_mem_of_within rfl (Markers.matched_iff.1 hmatched).1)
      · have hwithin := Markers.within_of_not_closed Markers.definitionMarkers_apart
          (Markers.not_closed_of_no_end Markers.definitionMarkers_apart hnone)
        rw [hrest]
        exact .undefined hname (Markers.closer_not_mem_of_within rfl hwithin)

theorem leaves_readBranch (queue : List Word) :
    Leaves Keyword.branch queue (Item.readBranch queue).2 := by
  rcases Markers.branchMarkers_apart.ends_or_no_end queue with ⟨block, hb⟩ | ⟨hrest, hnone⟩
  · exact .branch hb
  · simpa [Item.readBranch, hrest] using Leaves.openBranch hnone

theorem leaves_readLoop (queue : List Word) :
    Leaves Keyword.loop queue (Item.readLoop queue).2 := by
  rcases Markers.loopMarkers_apart.ends_or_no_end queue with ⟨block, hb⟩ | ⟨hrest, hnone⟩
  · exact .loop hb
  · simpa [Item.readLoop, hrest] using Leaves.openLoop hnone

theorem leaves_read (w : Word) (queue : List Word) : Leaves w queue (Item.read w queue).2 := by
  unfold Item.read
  split
  · rename_i h
    exact h ▸ leaves_readDefinition queue
  split
  · rename_i h
    exact h ▸ .declare queue
  split
  · rename_i h
    exact h ▸ leaves_readBranch queue
  split
  · rename_i h
    exact h ▸ leaves_readLoop queue
  · rename_i hdefine hdeclare hbranch hloop
    exact .word (by simp [hdefine, hdeclare, hbranch, hloop])

theorem Leaves.read {w : Word} {queue rest : List Word} (h : Leaves w queue rest) :
    (Item.read w queue).2 = rest := by
  cases h with
  | word hw => rw [Item.read_word hw]
  | declare | nameless => rfl
  | number hn => rw [Item.read_numeral_definition hn]
  | define hn hb => rw [Item.read_definition hn (scan_definition hb rest)]
  | @undefined name ws hn hnot =>
    have hopen : (definitionMarkers.scan ws).closed = false :=
      Bool.eq_false_iff.2 fun hc => hnot (definitionMarkers.closer_mem_of_closed hc)
    have hrest : (definitionMarkers.scan ws).rest = [] :=
      definitionMarkers.rest_scanFrom_of_not_closed 0 ws hopen
    simpa [Item.read, Item.readDefinition, hn] using hrest
  | branch hb => exact hb.rest_scan Markers.branchMarkers_apart
  | openBranch hnone => exact Markers.rest_scan_of_no_end Markers.branchMarkers_apart hnone
  | loop hb => exact hb.rest_scan Markers.loopMarkers_apart
  | openLoop hnone => exact Markers.rest_scan_of_no_end Markers.loopMarkers_apart hnone

theorem leaves_iff {w : Word} {queue rest : List Word} :
    (Item.read w queue).2 = rest ↔ Leaves w queue rest :=
  ⟨fun h => h ▸ leaves_read w queue, Leaves.read⟩

/-! The operands. -/

theorem isOk_operand_iff {stack : List Cell} :
    (operand stack).isOk = true ↔ ∃ n below, stack = .int n :: below := by
  constructor
  · intro hok
    cases ho : operand stack with
    | error f => simp [ho, Except.isOk, Except.toBool] at hok
    | ok v => exact ⟨v.1, v.2, operand_eq_ok ho⟩
  · intro hstack
    obtain ⟨n, below, rfl⟩ := hstack
    rfl

theorem isOk_bounds_iff {stack : List Cell} :
    (bounds stack).isOk = true ↔
      ∃ start limit below, stack = .int start :: .int limit :: below := by
  constructor
  · intro hok
    cases hb : bounds stack with
    | error f => simp [hb, Except.isOk, Except.toBool] at hok
    | ok v => exact ⟨v.1, v.2.1, v.2.2, bounds_eq_ok hb⟩
  · intro hstack
    obtain ⟨start, limit, below, rfl⟩ := hstack
    rfl

namespace Machine

variable {m : Machine} {w : Word}

theorem ready_of_not_mem (h : w ∉ [Keyword.branch, Keyword.loop]) : m.Ready w := by
  simp only [List.mem_cons, List.not_mem_nil, or_false, not_or] at h
  exact ⟨fun hw => absurd hw h.1, fun hw => absurd hw h.2⟩

theorem ready_branch_iff : m.Ready Keyword.branch ↔ ∃ n below, m.stack = .int n :: below :=
  ⟨fun h => h.branch rfl, fun h => ⟨fun _ => h, fun heq => absurd heq (by decide)⟩⟩

theorem ready_loop_iff :
    m.Ready Keyword.loop ↔ ∃ start limit below, m.stack = .int start :: .int limit :: below :=
  ⟨fun h => h.loop rfl, fun h => ⟨fun heq => absurd heq (by decide), fun _ => h⟩⟩

end Machine

theorem Item.Reads.lacksOperands_iff {w : Word} {ws : List Word} {item : Item}
    (h : Item.Reads w ws item) (m : Machine) :
    item.lacksOperands m.stack = true ↔ ¬m.Ready w := by
  have wanting_nothing (hw : w ∉ [Keyword.branch, Keyword.loop]) : false = true ↔ ¬m.Ready w := by
    simp [Machine.ready_of_not_mem hw]
  cases h with
  | word hw =>
    exact wanting_nothing fun hmem => hw (List.mem_cons_of_mem _ (List.mem_cons_of_mem _ hmem))
  | define | misdefine | declare => exact wanting_nothing (by decide)
  | branch =>
    rw [Machine.ready_branch_iff, ← isOk_operand_iff]
    simp [Item.lacksOperands]
  | loop =>
    rw [Machine.ready_loop_iff, ← isOk_bounds_iff]
    simp [Item.lacksOperands]

/-- An item that lacks its operands fails and leaves the machine as it was. -/
theorem perform_of_lacksOperands (note : σ → Event → σ) (inner : List Word → Action σ) {item : Item}
    {m : Machine} (h : item.lacksOperands m.stack = true) :
    ∃ f, ∀ s, perform note inner item m s = ⟨m.fault f, s⟩ := by
  cases item with
  | word | define | misdefine | declare => exact absurd h Bool.false_ne_true
  | branch whenTrue whenFalse closed =>
    cases ho : operand m.stack with
    | ok v => simp [Item.lacksOperands, ho, Except.isOk, Except.toBool] at h
    | error f => exact ⟨f, fun s => by simp only [perform, runBranch, ho]⟩
  | loop body =>
    cases hb : bounds m.stack with
    | ok v => simp [Item.lacksOperands, hb, Except.isOk, Except.toBool] at h
    | error f => exact ⟨f, fun s => by simp only [perform, runLoop, hb]⟩

section

variable (note : σ → Event → σ) (room : Nat) {w : Word} {m : Machine}

theorem interpret_rest_of_ready (h : m.Ready w) (queue : List Word) (s : σ) :
    (interpret note room w queue m s).rest = (Item.read w queue).2 := by
  have hlacks : ¬(Item.read w queue).1.lacksOperands m.stack = true := fun hl =>
    ((Item.reads_read w queue).lacksOperands_iff m).1 hl h
  exact if_neg hlacks

theorem interpret_of_not_ready (h : ¬m.Ready w) (queue : List Word) (s : σ) :
    (interpret note room w queue m s).rest = queue ∧
      ∃ f, (interpret note room w queue m s).toEnding = m.fault f := by
  have hlacks := ((Item.reads_read w queue).lacksOperands_iff m).2 h
  obtain ⟨f, hf⟩ := perform_of_lacksOperands note (runWords note room) hlacks
  exact ⟨if_pos hlacks, f, congrArg Outcome.toEnding (hf (note s (.interpreting w m.stack)))⟩

/-- `runWords` goes on with what `interpret` leaves. A word that is not ready fails, so there it
does not matter that `Item.read` has read on. -/
theorem runWords_cons (w : Word) (queue : List Word) (depth : Nat) (m : Machine) (s : σ) :
    runWords note (depth + 1) (w :: queue) m s =
      ((step note (runWords note depth) (Item.read w queue).1).andThen
        (runWords note (depth + 1) (interpret note room w queue m s).rest)) m s := by
  have hrun : runWords note (depth + 1) (w :: queue) =
      (step note (runWords note depth) (Item.read w queue).1).andThen
        (runWords note (depth + 1) (Item.read w queue).2) := by
    simp only [runWords, items, runItems_cons]
  rw [hrun]
  by_cases h : m.Ready w
  · rw [interpret_rest_of_ready note room h]
  · have hlacks := ((Item.reads_read w queue).lacksOperands_iff m).2 h
    obtain ⟨f, hf⟩ := perform_of_lacksOperands note (runWords note depth) hlacks
    have hfails : (step note (runWords note depth) (Item.read w queue).1 m s).failure =
        some (.fault f) := by
      rw [step, hf]
      rfl
    rw [Action.andThen_of_failure hfails, Action.andThen_of_failure hfails]

/-- On a machine that is `Ready` for the word, `interpret` leaves the rest that the word `Leaves` of
the queue. On one that is not, it ends in a fault, with the machine and the queue as they were. The
rest is a suffix of the queue, and the same on machines that are both ready or both not; and
`runWords` goes on with it, at every depth. -/
theorem interpret_leaves (w : Word) (queue : List Word) (m : Machine) (s : σ) :
    (m.Ready w → ∀ rest, (interpret note room w queue m s).rest = rest ↔ Leaves w queue rest) ∧
    (¬m.Ready w → (interpret note room w queue m s).rest = queue ∧
      ∃ f, (interpret note room w queue m s).toEnding = m.fault f) ∧
    (interpret note room w queue m s).rest <:+ queue ∧
    (∀ (m' : Machine) (s' : σ), (m'.Ready w ↔ m.Ready w) →
      (interpret note room w queue m' s').rest = (interpret note room w queue m s).rest) ∧
    ∀ depth, runWords note (depth + 1) (w :: queue) m s =
      ((step note (runWords note depth) (Item.read w queue).1).andThen
        (runWords note (depth + 1) (interpret note room w queue m s).rest)) m s := by
  refine ⟨fun h rest => ?_, fun h => interpret_of_not_ready note room h queue s, ?_, ?_,
    fun depth => runWords_cons note room w queue depth m s⟩
  · rw [interpret_rest_of_ready note room h]
    exact leaves_iff
  · by_cases h : m.Ready w
    · rw [interpret_rest_of_ready note room h]
      exact Item.read_suffix w queue
    · simp only [(interpret_of_not_ready note room h queue s).1, List.suffix_refl]
  · intro m' s' hiff
    by_cases h : m.Ready w
    · rw [interpret_rest_of_ready note room h, interpret_rest_of_ready note room (hiff.2 h)]
    · have h' : ¬m'.Ready w := fun hr => h (hiff.1 hr)
      rw [(interpret_of_not_ready note room h queue s).1,
        (interpret_of_not_ready note room h' queue s').1]

end

/-- A loop whose body fails in its first turn, and one that is to start at a variable. -/
theorem interpret_leaves_torn :
    let m := { Machine.fresh with stack := [.int 0, .int 2] }
    ((interpret unwatched nestingLimit "do" ["if", "loop", "9"] m ()).failure =
        some (.fault .underflow) ∧
      (interpret unwatched nestingLimit "do" ["if", "loop", "9"] m ()).rest = ["9"]) ∧
    (interpret unwatched nestingLimit "do" ["if", "loop", "9"] (m.push (.ref "x")) ()).rest =
      ["if", "loop", "9"] := by
  intro m
  have hready : m.Ready "do" := Machine.ready_loop_iff.2 ⟨0, 2, [], rfl⟩
  have hnot : ¬(m.push (.ref "x")).Ready "do" := by
    simp [Machine.ready_loop_iff, Machine.push]
  have hfails : (interpret unwatched nestingLimit "do" ["if", "loop", "9"] m ()).failure =
      some (.fault .underflow) := by decide +kernel
  have hleaves : Leaves "do" ["if", "loop", "9"] ["9"] := leaves_iff.1 (by decide)
  obtain ⟨left, -⟩ := interpret_leaves unwatched nestingLimit "do" ["if", "loop", "9"] m ()
  obtain ⟨-, kept, -⟩ :=
    interpret_leaves unwatched nestingLimit "do" ["if", "loop", "9"] (m.push (.ref "x")) ()
  exact ⟨⟨hfails, (left hready ["9"]).2 hleaves⟩, (kept hnot).1⟩

end FlatForth
