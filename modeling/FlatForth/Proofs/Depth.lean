import FlatForth.Proofs.Pairing

/-!
Room to nest. A run that does not fail for nesting too deep ends in the same way wherever bodies may
nest deeper (`runWords_deeper`); so the limit decides nothing but whether a run fails for it. What
carries over from one run to another unless it nests too deep carries over from one sequence of runs
to another (`Ending.CarriesTo.andThen`).
-/

namespace FlatForth

variable {σ τ : Type}

theorem runWords_deeper (note : σ → Event → σ) (note' : τ → Event → τ) {depth depth' : Nat}
    (h : depth ≤ depth') {ws : List Word} {m : Machine} {s : σ}
    (hf : (runWords note depth ws m s).failure ≠ some .nestedTooDeep) (t : τ) :
    (runWords note' depth' ws m t).toEnding = (runWords note depth ws m s).toEnding := by
  have lawful := Pairing.same_lawful (· = .nestedTooDeep)
  refine Pairing.ends_same (Pairing.runWords_keeps lawful note note' h (.inr rfl) ws m m s t rfl) ?_
  rintro _ hw rfl
  exact hf hw

/-! How runs end that nobody watches, and what is run on what they leave. -/

def Ending.andThen (e : Ending) (f : Machine → Ending) : Ending :=
  match e.failure with
  | some _ => e
  | none => f e.machine

def Ending.withLoops (loops : List Int) (e : Ending) : Ending :=
  ⟨{ e.machine with loops := loops }, e.failure⟩

def unwatched : Unit → Event → Unit := fun _ _ => ()

theorem toEnding_andThen (a b : Action Unit) (m : Machine) :
    (a.andThen b m ()).toEnding = (a m ()).toEnding.andThen fun m' => (b m' ()).toEnding := by
  unfold Action.andThen Ending.andThen
  dsimp only
  cases (a m ()).failure <;> rfl

/-- `e'` is `e`, unless `e` is a failure for nesting too deep. -/
def Ending.CarriesTo (e e' : Ending) : Prop := e.failure ≠ some .nestedTooDeep → e' = e

namespace Ending.CarriesTo

theorem refl (e : Ending) : e.CarriesTo e := fun _ => rfl

theorem trans {e e' e'' : Ending} (h : e.CarriesTo e') (h' : e'.CarriesTo e'') :
    e.CarriesTo e'' := by
  intro hdeep
  obtain rfl := h hdeep
  exact h' hdeep

theorem andThen {e e' : Ending} {f f' : Machine → Ending} (h : e.CarriesTo e')
    (hf : e.failure = none → (f e.machine).CarriesTo (f' e.machine)) :
    (e.andThen f).CarriesTo (e'.andThen f') := by
  intro hdeep
  unfold Ending.andThen at hdeep
  cases hwhy : e.failure with
  | none =>
    rw [hwhy] at hdeep
    obtain rfl := h (hwhy ▸ nofun)
    simp only [Ending.andThen, hwhy]
    exact hf hwhy hdeep
  | some why =>
    rw [hwhy] at hdeep
    obtain rfl := h hdeep
    simp only [Ending.andThen, hwhy]

theorem withLoops {e e' : Ending} (h : e.CarriesTo e') (loops : List Int) :
    (e.withLoops loops).CarriesTo (e'.withLoops loops) :=
  fun hdeep => congrArg (Ending.withLoops loops) (h hdeep)

end Ending.CarriesTo

theorem carries_deeper {depth depth' : Nat} (h : depth ≤ depth') (ws : List Word) (m : Machine) :
    (m.runWithin depth ws).CarriesTo (m.runWithin depth' ws) :=
  fun hdeep => runWords_deeper unwatched unwatched h hdeep ()

end FlatForth
