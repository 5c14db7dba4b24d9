import FlatForth.Proofs.Sequence

/-!
Watching changes nothing. Take a view of what a watcher has gathered, and a second watcher who sees
every event as the first one does through that view. Whatever runs, the second then has gathered the
first one's gatherings under that view, and the run ends alike for both (`runWords_mirrors`). So a
run ends as it does when nobody watches (`evaluate_toEnding`).
-/

namespace FlatForth

variable {σ τ : Type}

/-- The same ending, and a view of what was gathered. -/
def Outcome.map (view : σ → τ) (o : Outcome σ) : Outcome τ := ⟨o.toEnding, view o.seen⟩

/-- The second action does as the first, and gathers the same under a view. -/
def Action.Mirrors (view : σ → τ) (a : Action σ) (b : Action τ) : Prop :=
  ∀ m s, b m (view s) = (a m s).map view

/-- The second watcher makes of an event what the first makes of it, under a view. -/
def Mirrored (view : σ → τ) (note : σ → Event → σ) (note' : τ → Event → τ) : Prop :=
  ∀ s e, note' (view s) e = view (note s e)

namespace Action

variable {view : σ → τ}

theorem quiet_mirrors (f : Machine → Ending) : (quiet f : Action σ).Mirrors view (quiet f) :=
  fun _ _ => rfl

theorem Mirrors.andThen {a b : Action σ} {a' b' : Action τ} (ha : a.Mirrors view a')
    (hb : b.Mirrors view b') : (a.andThen b).Mirrors view (a'.andThen b') := by
  intro m s
  rcases a.done_or_failure m s with ⟨m', s', h⟩ | ⟨why, h⟩
  · have h' : a' m (view s) = ⟨m'.done, view s'⟩ := by rw [ha, h]; rfl
    rw [andThen_of_done h, andThen_of_done h']
    exact hb m' s'
  · have h' : (a' m (view s)).failure = some why := by rw [ha]; exact h
    rw [andThen_of_failure h, andThen_of_failure h']
    exact ha m s

end Action

section

variable {view : σ → τ} {note : σ → Event → σ} {note' : τ → Event → τ}
  (h : Mirrored view note note') {inner : List Word → Action σ} {inner' : List Word → Action τ}
  (hi : ∀ ws, (inner ws).Mirrors view (inner' ws))

include h hi

theorem enter_mirrors (e : Entry) : (enter note inner e).Mirrors view (enter note' inner' e) := by
  cases e with
  | primitive p => exact Action.quiet_mirrors p.run
  | probe =>
    intro m s
    simp only [enter, h s, Outcome.map]
  | words body => exact hi body

theorem call_mirrors (w : Word) : (call note inner w).Mirrors view (call note' inner' w) := by
  intro m s
  unfold call
  split
  · rfl
  · split
    · exact enter_mirrors h hi _ m s
    · rfl

omit h in
theorem runPart_mirrors (ws : List Word) :
    (runPart inner ws).Mirrors view (runPart inner' ws) := by
  cases ws with
  | nil => exact Action.quiet_mirrors Machine.done
  | cons w ws => exact hi (w :: ws)

theorem runBranch_mirrors (whenTrue whenFalse : List Word) (closed : Bool) :
    (runBranch note inner whenTrue whenFalse closed).Mirrors view
      (runBranch note' inner' whenTrue whenFalse closed) := by
  intro m s
  unfold runBranch
  split
  · rfl
  · have hseen : (if closed then view s else note' (view s) .unclosedBranch) =
        view (if closed then s else note s .unclosedBranch) := by
      rw [apply_ite view, h s]
    rw [hseen]
    exact runPart_mirrors hi _ _ _

omit h in
theorem turn_mirrors (body : List Word) (index : Int) :
    (turn inner body index).Mirrors view (turn inner' body index) := by
  intro m s
  unfold turn
  rw [hi body]
  rfl

omit h in
theorem turns_mirrors (body : List Word) (n : Nat) (index : Int) :
    (turns inner body n index).Mirrors view (turns inner' body n index) := by
  induction n generalizing index with
  | zero => exact Action.quiet_mirrors Machine.done
  | succ n ih => exact (turn_mirrors hi body index).andThen (ih (index + 1))

theorem runLoop_mirrors (body : Option (List Word)) :
    (runLoop note inner body).Mirrors view (runLoop note' inner' body) := by
  intro m s
  unfold runLoop
  split
  · rfl
  · cases body with
    | none => rfl
    | some body =>
      dsimp only
      rw [h s]
      exact turns_mirrors hi body _ _ _ _

theorem perform_mirrors (item : Item) :
    (perform note inner item).Mirrors view (perform note' inner' item) := by
  cases item with
  | word w => exact call_mirrors h hi w
  | define name body =>
    intro m s
    simp only [perform, h s, Outcome.map]
  | misdefine why => exact Action.quiet_mirrors _
  | declare name =>
    cases name with
    | none => exact Action.quiet_mirrors _
    | some name =>
      intro m s
      simp only [perform, h s, Outcome.map]
  | branch whenTrue whenFalse closed => exact runBranch_mirrors h hi whenTrue whenFalse closed
  | loop body => exact runLoop_mirrors h hi body

theorem step_mirrors (item : Item) :
    (step note inner item).Mirrors view (step note' inner' item) := by
  intro m s
  unfold step
  rw [h s]
  exact perform_mirrors h hi item m _

theorem runItems_mirrors (its : List Item) :
    (runItems note inner its).Mirrors view (runItems note' inner' its) := by
  induction its with
  | nil => exact Action.quiet_mirrors Machine.done
  | cons item rest ih => exact (step_mirrors h hi item).andThen ih

end

section

variable {view : σ → τ} {note : σ → Event → σ} {note' : τ → Event → τ}

theorem runWords_mirrors (h : Mirrored view note note') (depth : Nat) (ws : List Word) :
    (runWords note depth ws).Mirrors view (runWords note' depth ws) := by
  induction depth generalizing ws with
  | zero => exact Action.quiet_mirrors _
  | succ depth ih => exact runItems_mirrors h ih (items ws)

theorem evaluate_mirrors (h : Mirrored view note note') (room : Nat) (source : Source) :
    (evaluate note room source).Mirrors view (evaluate note' room source) :=
  runWords_mirrors h (room + 1) source.queue

end

/-- Whatever takes in the events of a run, and whatever it makes of them. -/
theorem evaluate_toEnding (note : σ → Event → σ) (room : Nat) (source : Source) (m : Machine)
    (s : σ) : (evaluate note room source m s).toEnding = m.evaluate room source := by
  have unseen : Mirrored (fun _ : σ => ()) note fun _ _ => () := fun _ _ => rfl
  exact (congrArg Outcome.toEnding (evaluate_mirrors unseen room source m s)).symm

end FlatForth
