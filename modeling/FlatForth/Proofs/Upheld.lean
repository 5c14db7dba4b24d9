import FlatForth.Proofs.Sequence

/-!
A run changes a machine by a few kinds of effect: it puts another stack, sets a variable, defines a
word, notes an event, though nothing printed, and turns a loop around a run. So a relation between
what there was before and what there is after, machine and gathered events together, holds across
whole runs as soon as it is kept by each effect (`runWords_upholds`).
-/

namespace FlatForth

variable {σ : Type}

structure Upheld (note : σ → Event → σ) (T : Machine → σ → Machine → σ → Prop) : Prop where
  refl : ∀ m s, T m s m s
  trans : ∀ {m s m' s' m'' s''}, T m s m' s' → T m' s' m'' s'' → T m s m'' s''
  noted : ∀ m s e, (∀ line, e ≠ .printed line) → T m s m (note s e)
  restack : ∀ m s stack, T m s { m with stack := stack } s
  set : ∀ m s name n, T m s (m.set name n) s
  define : ∀ m s name body, T m s (m.define name (.words body)) s
  turn : ∀ {m s m' s'} (index : Int), T { m with loops := index :: m.loops } s m' s' →
    T m s { m' with loops := m'.loops.tail } s'

def Action.Upholds (T : Machine → σ → Machine → σ → Prop) (a : Action σ) : Prop :=
  ∀ m s, T m s (a m s).machine (a m s).seen

section

variable {note : σ → Event → σ} {T : Machine → σ → Machine → σ → Prop} (h : Upheld note T)

include h

theorem andThen_upholds {a b : Action σ} (ha : a.Upholds T) (hb : b.Upholds T) :
    (a.andThen b).Upholds T := by
  intro m s
  unfold Action.andThen
  dsimp only
  split
  · exact ha m s
  · exact h.trans (ha m s) (hb _ _)

theorem apply_upholds (f : StackFunction) : (Action.quiet (Machine.apply f)).Upholds T := by
  intro m s
  unfold Action.quiet Machine.apply
  split
  · exact h.refl m s
  · split <;> exact h.restack m s _

theorem fetch_upholds : (Action.quiet Machine.fetch).Upholds T := by
  intro m s
  unfold Action.quiet Machine.fetch
  split
  · exact h.refl m s
  · split
    · exact h.refl m s
    · exact h.restack m s _

theorem store_upholds : (Action.quiet Machine.store).Upholds T := by
  intro m s
  unfold Action.quiet Machine.store
  split
  · split
    · exact h.refl m s
    · exact h.trans (h.restack m s _) (h.set _ s _ _)
    · exact h.refl m s
  · exact h.refl m s

theorem primitive_upholds (p : Primitive) : (Action.quiet p.run).Upholds T := by
  cases p with
  | function f => exact apply_upholds h f
  | innerIndex =>
    intro m s
    change T m s m.pushInnerIndex.machine s
    unfold Machine.pushInnerIndex
    split
    · exact h.restack m s _
    · exact h.refl m s
  | outerIndex =>
    intro m s
    change T m s m.pushOuterIndex.machine s
    unfold Machine.pushOuterIndex
    split
    · exact h.restack m s _
    · exact h.refl m s
  | fetch => exact fetch_upholds h
  | store => exact store_upholds h

theorem pushNumeral_upholds (w : Word) : (Action.quiet (Machine.pushNumeral w)).Upholds T := by
  intro m s
  unfold Action.quiet Machine.pushNumeral
  split
  · exact h.refl m s
  · split
    · exact h.refl m s
    · exact h.restack m s _

variable {inner : List Word → Action σ} (hi : ∀ ws, (inner ws).Upholds T)

include hi

theorem call_upholds (w : Word) : (call note inner w).Upholds T := by
  intro m s
  unfold call
  split
  · exact h.restack m s _
  · split
    · rename_i e _
      cases e with
      | primitive p => exact primitive_upholds h p m s
      | probe => exact h.noted m s _ nofun
      | words body => exact hi body m s
    · exact pushNumeral_upholds h w m s

theorem runBranch_upholds (whenTrue whenFalse : List Word) (closed : Bool) :
    (runBranch note inner whenTrue whenFalse closed).Upholds T := by
  intro m s
  unfold runBranch
  split
  · exact h.refl m s
  · rename_i n below _
    have noted : T m s m (if closed then s else note s .unclosedBranch) := by
      cases closed with
      | true => exact h.refl m s
      | false => exact h.noted m s _ nofun
    have part (ws : List Word) : (runPart inner ws).Upholds T := by
      cases ws with
      | nil => exact h.refl
      | cons w ws => exact hi (w :: ws)
    exact h.trans noted (h.trans (h.restack m _ below) (part _ _ _))

theorem turns_upholds (body : List Word) (n : Nat) (index : Int) :
    (turns inner body n index).Upholds T := by
  have first (index : Int) : (turn inner body index).Upholds T :=
    fun _ s => h.turn index (hi body _ s)
  induction n generalizing index with
  | zero => exact h.refl
  | succ n ih => exact andThen_upholds h (first index) (ih (index + 1))

theorem runLoop_upholds (body : Option (List Word)) : (runLoop note inner body).Upholds T := by
  intro m s
  unfold runLoop
  split
  · exact h.refl m s
  · rename_i start limit below _
    cases body with
    | none => exact h.restack m s below
    | some ws =>
      refine h.trans (h.restack m s below) (h.trans (h.noted _ s (.looping start limit ws) nofun) ?_)
      exact turns_upholds h hi ws _ start _ _

theorem perform_upholds (item : Item) : (perform note inner item).Upholds T := by
  cases item with
  | word w => exact call_upholds h hi w
  | define name body => exact fun m s => h.trans (h.define m s name body) (h.noted _ s _ nofun)
  | misdefine why => exact h.refl
  | declare name =>
    cases name with
    | none => exact h.refl
    | some name => exact fun m s => h.trans (h.set m s name 0) (h.noted _ s _ nofun)
  | branch whenTrue whenFalse closed => exact runBranch_upholds h hi whenTrue whenFalse closed
  | loop body => exact runLoop_upholds h hi body

theorem step_upholds (item : Item) : (step note inner item).Upholds T :=
  fun m s => h.trans (h.noted m s (.interpreting item.opening m.stack) nofun)
    (perform_upholds h hi item m _)

theorem runItems_upholds (its : List Item) : (runItems note inner its).Upholds T := by
  induction its with
  | nil => exact h.refl
  | cons item rest ih => exact andThen_upholds h (step_upholds h hi item) ih

omit hi

theorem runWords_upholds (depth : Nat) (ws : List Word) :
    (runWords note depth ws).Upholds T := by
  induction depth generalizing ws with
  | zero => exact h.refl
  | succ depth ih => exact runItems_upholds h ih (items ws)

end

end FlatForth
