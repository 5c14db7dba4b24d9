import FlatForth.Proofs.Depth
import FlatForth.Proofs.Loops
import FlatForth.Proofs.Operands

/-!
Words that fail before any body is run for them. What such a word asks for it looks at before it
takes anything, so that the machine is as it was when the word is refused (`perform_refused`). There
are two words that do take what they ask for and fail then (`perform_usesUp`): a function that fails
by itself, whose arguments are gone, and a loop that turns out to have no end, whose bounds are.
-/

namespace FlatForth

variable {σ : Type}

/-- `item.UsesUp m f used`: on `m` the item fails by `f` after it has popped `used`. -/
inductive Item.UsesUp (m : Machine) : Item → Fault → List Cell → Prop
  | arguments {w : Word} {f : StackFunction} {args below : List Cell} {why : Fault} :
      m.variables.contains w = false → m.dictionary.find? w = some (.primitive (.function f)) →
      Supplies f.numeric f.arity m.stack args below → f.apply args = .error why →
      UsesUp m (.word w) why args
  | bounds {start limit : Int} {below : List Cell} :
      m.stack = .int start :: .int limit :: below →
      UsesUp m (.loop none) .unclosedLoop [.int start, .int limit]

/-- The names of the faults by which a word is refused. -/
abbrev refusals : List String :=
  ["StackUnderflow", "CellTypeError", "UndeclaredVariable", "LoopContextMissing", "UnknownWord",
    "MalformedDefinition", "MalformedDeclaration"]

/-- A fault with such a name, or an integer with too many digits. -/
inductive Failure.Refuses : Failure → Prop
  | fault {f : Fault} : f.name ∈ refusals → Refuses (.fault f)
  | numeralTooLong (digits : Nat) : Refuses (.numeralTooLong digits)
  | integerTooLong : Refuses .integerTooLong

/-- `e` is no failure, or one that `Refuses` and leaves `m`. -/
def Ending.Refused (m : Machine) (e : Ending) : Prop :=
  ∀ why, e.failure = some why → e.machine = m ∧ why.Refuses

namespace Machine

variable {m : Machine}

theorem refused_done (m' : Machine) : m'.done.Refused m := nofun

theorem refused_stop {why : Failure} (h : why.Refuses) : (m.stop why).Refused m := by
  intro _ hwhy
  cases hwhy
  exact ⟨rfl, h⟩

theorem refused_notVariable (c : Cell) : (m.stop (notVariable c)).Refused m := by
  refine refused_stop ?_
  unfold notVariable
  split
  · exact .fault (by simp [Fault.name])
  · exact .integerTooLong

theorem refused_of_asked {f : Fault} (h : f = .underflow ∨ ∃ c ∈ m.stack, f = .notNumber c) :
    (m.fault f).Refused m := by
  refine refused_stop (.fault ?_)
  rcases h with rfl | ⟨c, -, rfl⟩
  · simp [Fault.name]
  · simp [Fault.name]

theorem apply_refused {f : StackFunction}
    (h : ∀ args below why, Supplies f.numeric f.arity m.stack args below →
      f.apply args ≠ .error why) : (m.apply f).Refused m := by
  rcases m.apply_cases f with ⟨e, he, hrun⟩ | ⟨args, below, hargs, ⟨e, he, -⟩ | ⟨cells, -, hrun⟩⟩
  · exact hrun ▸ refused_of_asked (arguments_eq_error he)
  · exact absurd he (h args below e (supplies_of_arguments hargs))
  · exact hrun ▸ refused_done _

theorem fetch_refused : m.fetch.Refused m := by
  rcases m.fetch_cases with h | ⟨c, below, -, -, h⟩ | ⟨name, n, below, -, -, h⟩
  · exact h ▸ refused_of_asked (.inl rfl)
  · exact h ▸ refused_notVariable c
  · exact h ▸ refused_done _

theorem store_refused : m.store.Refused m := by
  rcases m.store_cases with h | ⟨c, below, -, -, h⟩ | ⟨name, value, below, -, h⟩ |
    ⟨name, n, below, -, -, h⟩
  · exact h ▸ refused_of_asked (.inl rfl)
  · exact h ▸ refused_notVariable c
  · exact h ▸ refused_stop (.fault (by simp [Fault.name]))
  · exact h ▸ refused_done _

theorem pushInnerIndex_refused : m.pushInnerIndex.Refused m := by
  rcases m.pushInnerIndex_cases with h | ⟨i, h⟩
  · exact h ▸ refused_stop (.fault (by simp [Fault.name]))
  · exact h ▸ refused_done _

theorem pushOuterIndex_refused : m.pushOuterIndex.Refused m := by
  rcases m.pushOuterIndex_cases with h | ⟨j, h⟩
  · exact h ▸ refused_stop (.fault (by simp [Fault.name]))
  · exact h ▸ refused_done _

theorem pushNumeral_refused (w : Word) : (m.pushNumeral w).Refused m := by
  unfold pushNumeral
  split
  · exact refused_stop (.fault (by simp [Fault.name]))
  · split
    · exact refused_stop (.numeralTooLong _)
    · exact refused_done _

end Machine

section

variable {note : σ → Event → σ} {inner : List Word → Action σ} {m : Machine} {s : σ}

theorem call_refused {w : Word} (hused : ∀ f used, ¬(Item.word w).UsesUp m f used)
    (hbody : ∀ index body m' s', ¬Opens note inner (.word w) m s index body m' s') :
    (call note inner w m s).Refused m := by
  unfold call
  cases hv : m.variables.contains w with
  | true => exact Machine.refused_done _
  | false =>
    cases hw : m.dictionary.find? w with
    | none => exact Machine.pushNumeral_refused w
    | some e =>
      cases e with
      | probe => exact Machine.refused_done _
      | words body => exact absurd (.word hv hw) (hbody none body m s)
      | primitive p =>
        cases p with
        | innerIndex => exact Machine.pushInnerIndex_refused
        | outerIndex => exact Machine.pushOuterIndex_refused
        | fetch => exact Machine.fetch_refused
        | store => exact Machine.store_refused
        | function f =>
          exact Machine.apply_refused fun args below why hargs hwhy =>
            hused why args (.arguments hv hw hargs hwhy)

theorem runBranch_refused {whenTrue whenFalse : List Word} {closed : Bool}
    (hbody : ∀ index body m' s',
      ¬Opens note inner (.branch whenTrue whenFalse closed) m s index body m' s') :
    (runBranch note inner whenTrue whenFalse closed m s).Refused m := by
  unfold runBranch
  cases ho : operand m.stack with
  | error f => exact Machine.refused_of_asked (operand_eq_error ho)
  | ok r =>
    obtain ⟨n, below⟩ := r
    cases hp : if n ≠ 0 then whenTrue else whenFalse with
    | nil =>
      simp only [hp]
      exact Machine.refused_done _
    | cons w ws => exact absurd (.branch ho hp) (hbody none (w :: ws) _ _)

theorem runLoop_refused {body : Option (List Word)}
    (hused : ∀ f used, ¬(Item.loop body).UsesUp m f used)
    (hbody : ∀ index ws m' s', ¬Opens note inner (.loop body) m s index ws m' s') :
    (runLoop note inner body m s).Refused m := by
  unfold runLoop
  cases hb : bounds m.stack with
  | error f => exact Machine.refused_of_asked (bounds_eq_error hb)
  | ok r =>
    obtain ⟨start, limit, below⟩ := r
    cases body with
    | none => exact absurd (.bounds (bounds_eq_ok hb)) (hused _ _)
    | some ws =>
      cases hn : (limit - start).toNat with
      | zero =>
        simp only [hn]
        exact Machine.refused_done _
      | succ n =>
        -- The first turn would run the body.
        have hturn : 0 < (limit - start).toNat := by omega
        exact absurd (.turn hb hturn rfl) (hbody _ ws _ _)

theorem perform_refused {item : Item} (hused : ∀ f used, ¬item.UsesUp m f used)
    (hbody : ∀ index body m' s', ¬Opens note inner item m s index body m' s') :
    (perform note inner item m s).Refused m := by
  cases item with
  | word w => exact call_refused hused hbody
  | define name body => exact Machine.refused_done _
  | misdefine why => exact Machine.refused_stop (.fault (by simp [Fault.name]))
  | declare name =>
    cases name with
    | none => exact Machine.refused_stop (.fault (by simp [Fault.name]))
    | some name => exact Machine.refused_done _
  | branch whenTrue whenFalse closed => exact runBranch_refused hbody
  | loop body => exact runLoop_refused hused hbody

theorem perform_usesUp {item : Item} {f : Fault} {used : List Cell} (h : item.UsesUp m f used) :
    (perform note inner item m s).toEnding =
      Machine.fault { m with stack := m.stack.drop used.length } f := by
  cases h with
  | @arguments w g args below why hv hw hargs hwhy =>
    have hdrop : m.stack.drop used.length = below := by simp [hargs.stack_eq]
    have hcall : (call note inner w m s).toEnding = m.apply g := by
      simp [call, hv, hw, enter, Action.quiet, Primitive.run]
    rw [hdrop]
    exact hcall.trans (Machine.apply_eq_fault hargs hwhy)
  | @bounds start limit below hs =>
    have hb : bounds m.stack = .ok (start, limit, below) := by simp [hs, bounds]
    have hdrop : m.stack.drop [Cell.int start, Cell.int limit].length = below := by simp [hs]
    rw [hdrop]
    simp only [perform, runLoop, hb]

end

theorem interpret_eq_step (note : σ → Event → σ) (room : Nat) (w : Word) (queue : List Word)
    (m : Machine) (s : σ) :
    (interpret note room w queue m s).toOutcome =
      step note (runWords note room) (Item.read w queue).1 m s := by
  rw [step, Item.opening_read]
  rfl

/-- `interpret` is a `step` of the item that the word begins. At every depth, an item that `UsesUp`
cells fails so and loses just these; a function of a fresh machine does so for a divisor of zero
only, and loses divisor and dividend. If an item uses up nothing and opens no body, and its step
fails, then the failure `Refuses` and the machine is as it was. -/
theorem step_refused (note : σ → Event → σ) (w : Word) (queue : List Word) (m : Machine) (s : σ) :
    (∀ room, (interpret note room w queue m s).toOutcome =
      step note (runWords note room) (Item.read w queue).1 m s) ∧
    ∀ depth,
      (∀ f used, (Item.read w queue).1.UsesUp m f used →
        (step note (runWords note depth) (Item.read w queue).1 m s).toEnding =
          Machine.fault { m with stack := m.stack.drop used.length } f) ∧
      (∀ g f used, builtins.find? w = some (.primitive (.function g)) →
        m.dictionary.find? w = builtins.find? w → (Item.word w).UsesUp m f used →
          f = .zeroDivisor ∧ ∃ a, used = [.int 0, .int a]) ∧
      ((∀ f used, ¬(Item.read w queue).1.UsesUp m f used) →
        (∀ index body m' s', ¬Opens note (runWords note depth) (Item.read w queue).1 m
          (note s (.interpreting w m.stack)) index body m' s') →
        ∀ why, (step note (runWords note depth) (Item.read w queue).1 m s).failure = some why →
          (step note (runWords note depth) (Item.read w queue).1 m s).machine = m ∧
            why.Refuses) := by
  refine ⟨fun room => interpret_eq_step note room w queue m s, fun depth =>
    ⟨fun f used h => perform_usesUp h, fun g f used hg hw h => ?_, fun hused hbody => ?_⟩⟩
  · cases h with
    | @arguments _ g' _ _ _ _ hfind _ hwhy =>
      exact zeroDivisor_of_builtin (hw.symm.trans hfind) hwhy
  · rw [step, Item.opening_read]
    exact perform_refused hused hbody

/-- A divisor of zero, two bounds without a loop, and a text where `@` wants a variable. -/
theorem step_refused_divisor :
    let m := { Machine.fresh with stack := [.int 0, .int 7, .ref "x"], loops := [3] }
    (interpret unwatched nestingLimit "/" ["4"] m ()).toEnding =
      Machine.fault { m with stack := [.ref "x"] } .zeroDivisor ∧
    (interpret unwatched nestingLimit "do" ["i", "do", "loop"] m ()).toEnding =
      Machine.fault { m with stack := [.ref "x"] } .unclosedLoop ∧
    (interpret unwatched nestingLimit "@" [] (m.push (.text "x")) ()).machine =
      m.push (.text "x") := by
  intro m
  have hargs : Supplies true 2 m.stack [.int 0, .int 7] [.ref "x"] := ⟨rfl, rfl, by decide⟩
  have hdivide : (Item.word "/").UsesUp m .zeroDivisor [.int 0, .int 7] :=
    .arguments (f := .divide) rfl rfl hargs rfl
  have hloop : (Item.loop none).UsesUp m .unclosedLoop [.int 0, .int 7] := .bounds rfl
  have hread : Item.read "/" ["4"] = (.word "/", ["4"]) := by decide
  have hopen : Item.read "do" ["i", "do", "loop"] = (.loop none, []) := by decide
  have hfetch : Item.read "@" [] = (.word "@", []) := by decide
  have hfind : (m.push (.text "x")).dictionary.find? "@" = some (.primitive .fetch) := rfl
  obtain ⟨divides, hdivides⟩ := step_refused unwatched "/" ["4"] m ()
  obtain ⟨loops, hloops⟩ := step_refused unwatched "do" ["i", "do", "loop"] m ()
  obtain ⟨fetches, hfetches⟩ := step_refused unwatched "@" [] (m.push (.text "x")) ()
  obtain ⟨divided, -, -⟩ := hdivides nestingLimit
  obtain ⟨looped, -, -⟩ := hloops nestingLimit
  obtain ⟨-, -, refused⟩ := hfetches nestingLimit
  rw [divides, loops, fetches]
  rw [hread] at divided ⊢
  rw [hopen] at looped ⊢
  rw [hfetch] at refused ⊢
  have hfails := refused ?_ ?_ (.fault (.notVariable (.text "x"))) ?_
  · exact ⟨divided _ _ hdivide, looped _ _ hloop, hfails.1⟩
  · intro f used h
    cases h with
    | arguments _ hfunction => simp [hfind] at hfunction
  · intro index body m' s' h
    cases h with
    | word _ hbody => simp [hfind] at hbody
  · rfl

end FlatForth
