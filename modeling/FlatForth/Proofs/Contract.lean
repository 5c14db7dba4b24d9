import FlatForth.Proofs.Loops

/-!
Runs that take up only what is permitted. A contract says what is to hold of the machine at every
moment, which words may be run as a body, which items may be taken up, and how a run may fail. When
each single effect honours it, so do whole runs (`runWords_safe`), and what holds of the machine
holds wherever an item is taken up on the way (`holds_of_dispatches`).
-/

namespace FlatForth

variable {σ : Type}

/-- `item.Fails m why`: the item fails on `m` before a primitive or a body is run for it. -/
inductive Item.Fails (m : Machine) : Item → Failure → Prop
  | undefined (w : Word) : Fails m (.word w) (.fault (.undefined w))
  | numeralTooLong (w : Word) (digits : Nat) : Fails m (.word w) (.numeralTooLong digits)
  | misdefine (why : Misdefinition) : Fails m (.misdefine why) (.fault (.misdefinition why))
  | nameless : Fails m (.declare none) (.fault .namelessVariable)
  | operand {whenTrue whenFalse : List Word} {closed : Bool} {f : Fault} :
      operand m.stack = .error f → Fails m (.branch whenTrue whenFalse closed) (.fault f)
  | bounds {body : Option (List Word)} {f : Fault} :
      bounds m.stack = .error f → Fails m (.loop body) (.fault f)
  | unclosed : Fails m (.loop none) (.fault .unclosedLoop)

namespace Item.Fails

variable {m : Machine} {item : Item} {why : Failure} (h : item.Fails m why)

include h

theorem ne_notVariable (c : Cell) : why ≠ .fault (.notVariable c) := by
  cases h with
  | operand h => rcases operand_eq_error h with rfl | ⟨d, -, rfl⟩ <;> nofun
  | bounds h => rcases bounds_eq_error h with rfl | ⟨d, -, rfl⟩ <;> nofun
  | undefined | numeralTooLong | misdefine | nameless | unclosed => nofun

theorem ne_nestedTooDeep : why ≠ .nestedTooDeep := by
  cases h <;> nofun

end Item.Fails

structure Contract where
  Holds : Machine → Prop
  Queue : List Word → Prop
  Takes : Item → Prop
  Stops : Failure → Prop

namespace Contract

structure Lawful (k : Contract) : Prop where
  restack : ∀ {m stack}, k.Holds m → (∀ c ∈ stack, c.isInt = true ∨ c ∈ m.stack) →
    k.Holds { m with stack := stack }
  loops : ∀ {m}, k.Holds m → ∀ loops, k.Holds { m with loops := loops }
  refer : ∀ {m w}, k.Holds m → k.Takes (.word w) → m.variables.contains w = true →
    k.Holds (m.push (.ref w))
  primitive : ∀ {m w p}, k.Holds m → m.dictionary.find? w = some (.primitive p) →
    k.Holds (p.run m).machine ∧ ∀ why, (p.run m).failure = some why → k.Stops why
  define : ∀ {m name body}, k.Holds m → k.Takes (.define name body) →
    k.Holds (m.define name (.words body))
  declare : ∀ {m name}, k.Holds m → k.Takes (.declare (some name)) → k.Holds (m.set name 0)
  call : ∀ {m w body}, k.Holds m → k.Takes (.word w) →
    m.dictionary.find? w = some (.words body) → k.Queue body
  branch : ∀ {whenTrue whenFalse closed}, k.Takes (.branch whenTrue whenFalse closed) →
    k.Queue whenTrue ∧ k.Queue whenFalse
  loop : ∀ {body}, k.Takes (.loop (some body)) → k.Queue body
  stops : ∀ {m item why}, k.Holds m → k.Takes item → item.Fails m why → k.Stops why

def Safe (k : Contract) (a : Action σ) : Prop :=
  ∀ m s, k.Holds m →
    k.Holds (a m s).machine ∧ ∀ why, (a m s).failure = some why → k.Stops why

variable {k : Contract}

theorem Safe.holds_of_done {a : Action σ} (ha : k.Safe a) {m m' : Machine} {s s' : σ}
    (hm : k.Holds m) (h : a m s = ⟨m'.done, s'⟩) : k.Holds m' := by
  have hholds := (ha m s hm).1
  rwa [h] at hholds

theorem Safe.andThen {a b : Action σ} (ha : k.Safe a) (hb : k.Safe b) : k.Safe (a.andThen b) := by
  intro m s hm
  rcases a.done_or_failure m s with ⟨m', s', h⟩ | ⟨why, h⟩
  · rw [Action.andThen_of_done h]
    exact hb m' s' (ha.holds_of_done hm h)
  · rw [Action.andThen_of_failure h]
    exact ha m s hm

section

variable (hk : k.Lawful)

include hk

theorem holds_of_operand {m : Machine} {n : Int} {below : List Cell} (hm : k.Holds m)
    (h : operand m.stack = .ok (n, below)) : k.Holds { m with stack := below } :=
  hk.restack hm fun _ hc => .inr (operand_eq_ok h ▸ List.mem_cons_of_mem _ hc)

theorem holds_of_bounds {m : Machine} {start limit : Int} {below : List Cell} (hm : k.Holds m)
    (h : bounds m.stack = .ok (start, limit, below)) : k.Holds { m with stack := below } :=
  hk.restack hm fun _ hc =>
    .inr (bounds_eq_ok h ▸ List.mem_cons_of_mem _ (List.mem_cons_of_mem _ hc))

theorem holds_push_int {m : Machine} (hm : k.Holds m) (n : Int) : k.Holds (m.push (.int n)) := by
  refine hk.restack hm fun c hc => ?_
  rcases List.mem_cons.1 hc with rfl | hc
  · exact .inl rfl
  · exact .inr hc

/-- A `Lawful` contract lets an item fail by itself, whatever machine `m'` it has come to. -/
theorem safe_of_fails {item : Item} {m m' : Machine} {why : Failure} (hm : k.Holds m)
    (hm' : k.Holds m') (hw : k.Takes item) (h : item.Fails m why) :
    k.Holds (m'.stop why).machine ∧ ∀ y, (m'.stop why).failure = some y → k.Stops y := by
  refine ⟨hm', ?_⟩
  rintro _ ⟨⟩
  exact hk.stops hm hw h

theorem pushNumeral_safe {w : Word} (hw : k.Takes (.word w)) :
    k.Safe (σ := σ) (.quiet (Machine.pushNumeral w)) := by
  intro m s hm
  unfold Action.quiet Machine.pushNumeral
  split
  · exact safe_of_fails hk hm hm hw (.undefined w)
  · split
    · exact safe_of_fails hk hm hm hw (.numeralTooLong w _)
    · exact ⟨holds_push_int hk hm _, nofun⟩

variable {note : σ → Event → σ} {inner : List Word → Action σ}
  (hi : ∀ ws, k.Queue ws → k.Safe (inner ws))

include hi

theorem call_safe {w : Word} (hw : k.Takes (.word w)) : k.Safe (call note inner w) := by
  intro m s hm
  unfold call
  split
  · rename_i hv
    exact ⟨hk.refer hm hw hv, nofun⟩
  · split
    · rename_i e he
      cases e with
      | primitive p => exact hk.primitive hm he
      | probe => exact ⟨hm, nofun⟩
      | words body => exact hi body (hk.call hm hw he) m s hm
    · exact pushNumeral_safe hk hw m s hm

theorem runBranch_safe {whenTrue whenFalse : List Word} {closed : Bool}
    (hw : k.Takes (.branch whenTrue whenFalse closed)) :
    k.Safe (runBranch note inner whenTrue whenFalse closed) := by
  have part (ws : List Word) (hws : k.Queue ws) : k.Safe (runPart inner ws) := by
    cases ws with
    | nil => exact fun m s hm => ⟨hm, nofun⟩
    | cons w ws => exact hi (w :: ws) hws
  obtain ⟨htrue, hfalse⟩ := hk.branch hw
  intro m s hm
  unfold runBranch
  cases ho : operand m.stack with
  | error f => exact safe_of_fails hk hm hm hw (.operand ho)
  | ok r =>
    refine part _ ?_ _ _ (holds_of_operand hk hm ho)
    split
    · exact htrue
    · exact hfalse

theorem turns_safe {body : List Word} (hb : k.Queue body) (n : Nat) (index : Int) :
    k.Safe (turns inner body n index) := by
  have first (index : Int) : k.Safe (FlatForth.turn inner body index) := by
    intro m s hm
    obtain ⟨hholds, hstops⟩ := hi body hb { m with loops := index :: m.loops } s (hk.loops hm _)
    exact ⟨hk.loops hholds _, hstops⟩
  induction n generalizing index with
  | zero => exact fun m s hm => ⟨hm, nofun⟩
  | succ n ih => exact (first index).andThen (ih (index + 1))

theorem runLoop_safe {body : Option (List Word)} (hw : k.Takes (.loop body)) :
    k.Safe (runLoop note inner body) := by
  intro m s hm
  unfold runLoop
  cases hb : bounds m.stack with
  | error f => exact safe_of_fails hk hm hm hw (.bounds hb)
  | ok r =>
    have hbelow := holds_of_bounds hk hm hb
    cases body with
    | none => exact safe_of_fails hk hm hbelow hw .unclosed
    | some ws => exact turns_safe hk hi (hk.loop hw) _ _ _ _ hbelow

theorem perform_safe {item : Item} (hw : k.Takes item) : k.Safe (perform note inner item) := by
  cases item with
  | word w => exact call_safe hk hi hw
  | define name body => exact fun m s hm => ⟨hk.define hm hw, nofun⟩
  | misdefine why => exact fun m s hm => safe_of_fails hk hm hm hw (.misdefine why)
  | declare name =>
    cases name with
    | none => exact fun m s hm => safe_of_fails hk hm hm hw .nameless
    | some name => exact fun m s hm => ⟨hk.declare hm hw, nofun⟩
  | branch whenTrue whenFalse closed => exact runBranch_safe hk hi hw
  | loop body => exact runLoop_safe hk hi hw

theorem step_safe {item : Item} (hw : k.Takes item) : k.Safe (step note inner item) :=
  fun m _ hm => perform_safe hk hi hw m _ hm

theorem runItems_safe {its : List Item} (h : ∀ item ∈ its, k.Takes item) :
    k.Safe (runItems note inner its) := by
  induction its with
  | nil => exact fun m s hm => ⟨hm, nofun⟩
  | cons item rest ih =>
    have first : k.Safe (step note inner item) := step_safe hk hi (h item List.mem_cons_self)
    exact first.andThen (ih fun it hit => h it (List.mem_cons_of_mem item hit))

end

/-- A `Lawful` contract that lets any item of a `Queue` be taken up, and lets runs nest too deep. -/
structure Closed (k : Contract) : Prop extends Lawful k where
  items : ∀ {ws}, k.Queue ws → ∀ item ∈ items ws, k.Takes item
  deep : k.Stops .nestedTooDeep

section

variable (hk : k.Closed) {note : σ → Event → σ} {depth : Nat}

include hk

theorem runWords_safe {ws : List Word} (h : k.Queue ws) : k.Safe (runWords note depth ws) := by
  induction depth generalizing ws with
  | zero =>
    refine fun m s hm => ⟨hm, ?_⟩
    rintro _ ⟨⟩
    exact hk.deep
  | succ depth ih => exact runItems_safe hk.toLawful (fun _ => ih) (hk.items h)

theorem holds_of_opens {item : Item} {m m' : Machine} {s s' : σ} {index : Option Int}
    {body : List Word} (h : Opens note (runWords note depth) item m s index body m' s')
    (hm : k.Holds m) (hw : k.Takes item) : k.Holds m' ∧ k.Queue body := by
  cases h with
  | word _ he => exact ⟨hm, hk.call hm hw he⟩
  | @branch whenTrue whenFalse closed _ _ n below w body ho hp =>
    refine ⟨holds_of_operand hk.toLawful hm ho, ?_⟩
    obtain ⟨htrue, hfalse⟩ := hk.branch hw
    rw [← hp]
    split
    · exact htrue
    · exact hfalse
  | @turn body _ _ start limit below n m₁ _ hb _ ht =>
    have hbody := hk.loop hw
    have hbelow := holds_of_bounds hk.toLawful hm hb
    have inner (ws : List Word) (hws : k.Queue ws) : k.Safe (runWords note depth ws) :=
      runWords_safe hk hws
    have hm₁ := (turns_safe hk.toLawful inner hbody n start).holds_of_done hbelow ht
    exact ⟨hk.loops hm₁ _, hbody⟩

theorem holds_of_dispatches {its : List Item} {m m' : Machine} {s s' : σ} {turns : List Int}
    {item : Item} (h : Dispatches note depth its m s turns item m' s') (hm : k.Holds m)
    (hits : ∀ it ∈ its, k.Takes it) : k.Holds m' ∧ k.Takes item := by
  induction h with
  | here => exact ⟨hm, hits _ List.mem_cons_self⟩
  | @later depth first rest m s m₁ _ _ _ _ _ hs _ ih =>
    have inner (ws : List Word) (hws : k.Queue ws) : k.Safe (runWords note depth ws) :=
      runWords_safe hk hws
    have hfirst : k.Safe (step note (runWords note depth) first) :=
      step_safe hk.toLawful inner (hits first List.mem_cons_self)
    exact ih (hfirst.holds_of_done hm hs) fun it hit => hits it (List.mem_cons_of_mem first hit)
  | @within _ first _ _ _ _ _ _ _ _ _ _ _ ho _ ih =>
    obtain ⟨hm', hbody⟩ := holds_of_opens hk ho hm (hits first List.mem_cons_self)
    exact ih hm' (hk.items hbody)

end

end Contract

end FlatForth
