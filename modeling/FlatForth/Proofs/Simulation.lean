import FlatForth.Proofs.Loops
import FlatForth.Proofs.Reading
import Mathlib.Data.List.Forall2

/-!
Two runs, step by step. A simulation says which machines are alike, which names, queues and failures
answer each other, and after which failures of the first run nothing is asked of the second. When
the single effects and the words that are read keep to it, so do whole runs (`runWords_simulates`).
The second run may nest deeper than the first, if the first is excused for nesting too deep.
-/

namespace FlatForth

/-! What a word does: either it has a body run, or the machine acts by itself. -/

namespace Machine

variable (m : Machine) (w : Word)

def body? : Option (List Word) :=
  if m.variables.contains w then none
  else
    match m.dictionary.find? w with
    | some (.words body) => some body
    | _ => none

def actAlone : Ending :=
  if m.variables.contains w then (m.push (.ref w)).done
  else
    match m.dictionary.find? w with
    | some (.primitive p) => p.run m
    | some _ => m.done
    | none => m.pushNumeral w

theorem find?_of_body? {m : Machine} {w : Word} {body : List Word} (h : m.body? w = some body) :
    m.dictionary.find? w = some (.words body) := by
  unfold body? at h
  split at h
  · cases h
  · split at h
    · rename_i hw
      cases h
      exact hw
    · cases h

end Machine

section

variable {σ : Type} (note : σ → Event → σ) (inner : List Word → Action σ) {m : Machine} {w : Word}

theorem call_of_body {body : List Word} (h : m.body? w = some body) (s : σ) :
    call note inner w m s = inner body m s := by
  have hw := Machine.find?_of_body? h
  unfold Machine.body? at h
  unfold call
  split at h
  · cases h
  · rename_i hv
    rw [if_neg hv, hw]
    rfl

theorem call_of_no_body (h : m.body? w = none) (s : σ) :
    (call note inner w m s).toEnding = m.actAlone w := by
  unfold Machine.body? at h
  unfold call Machine.actAlone
  split at h
  · rename_i hv
    rw [if_pos hv, if_pos hv]
  · rename_i hv
    rw [if_neg hv, if_neg hv]
    rcases hw : m.dictionary.find? w with _ | ⟨p | _ | body⟩
    · rfl
    · rfl
    · rfl
    · rw [hw] at h
      cases h

end

structure Simulation where
  Like : Machine → Machine → Prop
  Names : Word → Word → Prop
  Queues : List Word → List Word → Prop
  Fails : Failure → Failure → Prop
  Excused : Failure → Prop

namespace Simulation

variable (p : Simulation) {σ τ : Type}

def Ends (e e' : Ending) : Prop :=
  (∃ why, e.failure = some why ∧ p.Excused why) ∨
    Option.Rel p.Fails e.failure e'.failure ∧ p.Like e.machine e'.machine

def Keeps (a : Action σ) (b : Action τ) : Prop :=
  ∀ m m' s t, p.Like m m' → p.Ends (a m s).toEnding (b m' t).toEnding

/-- Items of one kind, whose names, queues and failures answer each other. -/
inductive Items : Item → Item → Prop
  | word {w w'} : p.Names w w' → Items (.word w) (.word w')
  | define {name name' body body'} : p.Names name name' → p.Queues body body' →
      Items (.define name body) (.define name' body')
  | misdefine {why why'} : p.Fails (.fault (.misdefinition why)) (.fault (.misdefinition why')) →
      Items (.misdefine why) (.misdefine why')
  | nameless : Items (.declare none) (.declare none)
  | declare {name name'} : p.Names name name' → Items (.declare (some name)) (.declare (some name'))
  | branch {a a' b b'} (closed : Bool) : p.Queues a a' → p.Queues b b' →
      Items (.branch a b closed) (.branch a' b' closed)
  | unclosed : Items (.loop none) (.loop none)
  | loop {body body'} : p.Queues body body' → Items (.loop (some body)) (.loop (some body'))

/-- Calls of `w` and `w'` act by themselves and end alike, or run bodies that answer each other. -/
inductive Calls (m m' : Machine) (w w' : Word) : Prop
  | alone : m.body? w = none → m'.body? w' = none → p.Ends (m.actAlone w) (m'.actAlone w') →
      Calls m m' w w'
  | body {ws ws'} : m.body? w = some ws → m'.body? w' = some ws' → p.Queues ws ws' →
      Calls m m' w w'

structure Lawful : Prop where
  call : ∀ {m m' w w'}, p.Like m m' → p.Names w w' → p.Calls m m' w w'
  operand : ∀ {m m'}, p.Like m m' →
    (∃ f, operand m.stack = .error f ∧ (p.Excused (.fault f) ∨
      ∃ f', operand m'.stack = .error f' ∧ p.Fails (.fault f) (.fault f'))) ∨
    ∃ n below below', operand m.stack = .ok (n, below) ∧ operand m'.stack = .ok (n, below') ∧
      p.Like { m with stack := below } { m' with stack := below' }
  bounds : ∀ {m m'}, p.Like m m' →
    (∃ f, bounds m.stack = .error f ∧ (p.Excused (.fault f) ∨
      ∃ f', bounds m'.stack = .error f' ∧ p.Fails (.fault f) (.fault f'))) ∨
    ∃ start limit below below', bounds m.stack = .ok (start, limit, below) ∧
      bounds m'.stack = .ok (start, limit, below') ∧
      p.Like { m with stack := below } { m' with stack := below' }
  define : ∀ {m m' name name' body body'}, p.Like m m' → p.Names name name' →
    p.Queues body body' → p.Like (m.define name (.words body)) (m'.define name' (.words body'))
  set : ∀ {m m' name name'}, p.Like m m' → p.Names name name' →
    p.Like (m.set name 0) (m'.set name' 0)
  enter : ∀ {m m'}, p.Like m m' → ∀ index,
    p.Like { m with loops := index :: m.loops } { m' with loops := index :: m'.loops }
  leave : ∀ {m m' n n'}, p.Like m m' → p.Like n n' →
    p.Like { n with loops := m.loops } { n' with loops := m'.loops }
  items : ∀ {ws ws'}, p.Queues ws ws' → List.Forall₂ p.Items (items ws) (items ws')
  nil : ∀ {ws ws'}, p.Queues ws ws' → (ws = [] ↔ ws' = [])
  fails : ∀ why ∈ [Failure.nestedTooDeep, .fault .unclosedLoop, .fault .namelessVariable],
    p.Fails why why

variable {p}

theorem rel_eq {α : Type} {a b : Option α} : Option.Rel Eq a b ↔ a = b := by
  cases a <;> cases b <;> simp

theorem ends_of_like {m m' : Machine} (h : p.Like m m') : p.Ends m.done m'.done := .inr ⟨.none, h⟩

theorem ends_of_fails {m m' : Machine} (h : p.Like m m') {why why' : Failure}
    (hf : p.Fails why why') : p.Ends (m.stop why) (m'.stop why') := .inr ⟨.some hf, h⟩

/-! What answers itself. -/

section

variable (hfails : ∀ why, p.Fails why why)

include hfails

/-- An item answers itself if its words and the queues made of them do. -/
theorem items_self {item : Item} (hnames : ∀ w ∈ item.words, p.Names w w)
    (hqueues : ∀ ws ⊆ item.words, p.Queues ws ws) : p.Items item item := by
  cases item with
  | word w => exact .word (hnames w List.mem_cons_self)
  | define name body =>
    refine .define (hnames name (List.mem_cons_of_mem _ List.mem_cons_self)) (hqueues body ?_)
    exact fun w hw => List.mem_cons_of_mem _ (List.mem_cons_of_mem _ hw)
  | misdefine why => exact .misdefine (hfails _)
  | declare name =>
    cases name with
    | none => exact .nameless
    | some name => exact .declare (hnames name (List.mem_cons_of_mem _ List.mem_cons_self))
  | branch a b closed =>
    refine .branch closed (hqueues a ?_) (hqueues b ?_)
    · exact fun w hw => List.mem_cons_of_mem _ (List.mem_append_left _ hw)
    · exact fun w hw => List.mem_cons_of_mem _ (List.mem_append_right _ hw)
  | loop body =>
    cases body with
    | none => exact .unclosed
    | some body => exact .loop (hqueues body (List.subset_cons_self _ body))

theorem forall₂_items_self {ws : List Word} (hnames : ∀ w ∈ ws, p.Names w w)
    (hqueues : ∀ vs ⊆ ws, p.Queues vs vs) : List.Forall₂ p.Items (items ws) (items ws) := by
  refine List.forall₂_same.2 fun item hitem => ?_
  have hsub := words_subset_of_mem_items hitem
  exact items_self hfails (fun w hw => hnames w (hsub hw)) fun vs hvs =>
    hqueues vs (List.Subset.trans hvs hsub)

variable {m m' : Machine}

section

variable (hs : m'.stack = m.stack)
  (hlike : ∀ below, below <:+ m.stack → p.Like { m with stack := below } { m' with stack := below })

include hs hlike

/-- On equal stacks `operand` fails alike, or takes the same integer and leaves machines that are
`Like`. -/
theorem operand_self :
    (∃ f, operand m.stack = .error f ∧ (p.Excused (.fault f) ∨
      ∃ f', operand m'.stack = .error f' ∧ p.Fails (.fault f) (.fault f'))) ∨
    ∃ n below below', operand m.stack = .ok (n, below) ∧ operand m'.stack = .ok (n, below') ∧
      p.Like { m with stack := below } { m' with stack := below' } := by
  rw [hs]
  cases ho : operand m.stack with
  | error f => exact .inl ⟨f, rfl, .inr ⟨f, rfl, hfails _⟩⟩
  | ok found =>
    have hbelow : found.2 <:+ m.stack := operand_eq_ok ho ▸ List.suffix_cons _ _
    exact .inr ⟨found.1, found.2, found.2, rfl, rfl, hlike _ hbelow⟩

theorem bounds_self :
    (∃ f, bounds m.stack = .error f ∧ (p.Excused (.fault f) ∨
      ∃ f', bounds m'.stack = .error f' ∧ p.Fails (.fault f) (.fault f'))) ∨
    ∃ start limit below below', bounds m.stack = .ok (start, limit, below) ∧
      bounds m'.stack = .ok (start, limit, below') ∧
      p.Like { m with stack := below } { m' with stack := below' } := by
  rw [hs]
  cases hb : bounds m.stack with
  | error f => exact .inl ⟨f, rfl, .inr ⟨f, rfl, hfails _⟩⟩
  | ok found =>
    have hbelow : found.2.2 <:+ m.stack :=
      bounds_eq_ok hb ▸ (List.suffix_cons _ _).trans (List.suffix_cons _ _)
    exact .inr ⟨found.1, found.2.1, found.2.2, found.2.2, rfl, rfl, hlike _ hbelow⟩

end

variable (hm : p.Like m m')

include hm

theorem ends_pushNumeral (hpush : ∀ n, p.Like (m.push (.int n)) (m'.push (.int n))) (w : Word) :
    p.Ends (m.pushNumeral w) (m'.pushNumeral w) := by
  unfold Machine.pushNumeral
  split
  · exact ends_of_fails hm (hfails _)
  · split
    · exact ends_of_fails hm (hfails _)
    · exact ends_of_like (hpush _)

/-- Calls of one word, on machines that have the same under it. -/
theorem calls_self {w : Word} (hv : m'.variables.contains w = m.variables.contains w)
    (hw : m'.dictionary.find? w = m.dictionary.find? w)
    (hpush : ∀ c, c = .ref w ∨ c.isInt = true → p.Like (m.push c) (m'.push c))
    (hprimitive : ∀ q, m.dictionary.find? w = some (.primitive q) → p.Ends (q.run m) (q.run m'))
    (hbody : ∀ body, m.dictionary.find? w = some (.words body) → p.Queues body body) :
    p.Calls m m' w w := by
  have hsame : m'.body? w = m.body? w := by rw [Machine.body?, Machine.body?, hv, hw]
  cases h : m.body? w with
  | some body => exact .body h (hsame.trans h) (hbody body (Machine.find?_of_body? h))
  | none =>
    refine .alone h (hsame.trans h) ?_
    unfold Machine.actAlone
    rw [hv, hw]
    split
    · exact ends_of_like (hpush _ (.inl rfl))
    · split
      · rename_i q hq
        exact hprimitive q hq
      · exact ends_of_like hm
      · exact ends_pushNumeral hfails hm (fun n => hpush _ (.inr rfl)) w

end

/-! Whole runs. -/

theorem Keeps.andThen {a b : Action σ} {a' b' : Action τ} (ha : p.Keeps a a') (hb : p.Keeps b b') :
    p.Keeps (a.andThen b) (a'.andThen b') := by
  intro m m' s t hm
  rcases ha m m' s t hm with ⟨why, hw, hx⟩ | ⟨hf, hl⟩
  · refine .inl ⟨why, ?_, hx⟩
    rw [Action.andThen_of_failure hw]
    exact hw
  -- Otherwise both first actions are over with, or both have failed.
  · rcases a.done_or_failure m s with ⟨n, s₁, h⟩ | ⟨why, h⟩
    · rcases a'.done_or_failure m' t with ⟨n', t₁, h'⟩ | ⟨why', h'⟩
      · rw [h, h'] at hl
        rw [Action.andThen_of_done h, Action.andThen_of_done h']
        exact hb n n' s₁ t₁ hl
      · rw [h, h'] at hf
        cases hf
    · rcases a'.done_or_failure m' t with ⟨n', t₁, h'⟩ | ⟨why', h'⟩
      · rw [h, h'] at hf
        cases hf
      · rw [Action.andThen_of_failure h, Action.andThen_of_failure h']
        exact .inr ⟨hf, hl⟩

section

variable (h : p.Lawful) {note : σ → Event → σ} {note' : τ → Event → τ}
  {inner : List Word → Action σ} {inner' : List Word → Action τ}
  (hi : ∀ {ws ws'}, p.Queues ws ws' → p.Keeps (inner ws) (inner' ws'))

include h hi

theorem call_keeps {w w' : Word} (hw : p.Names w w') :
    p.Keeps (call note inner w) (call note' inner' w') := by
  intro m m' s t hm
  cases h.call hm hw with
  | alone hw hw' hends =>
    rw [call_of_no_body note inner hw s, call_of_no_body note' inner' hw' t]
    exact hends
  | body hw hw' hq =>
    rw [call_of_body note inner hw s, call_of_body note' inner' hw' t]
    exact hi hq m m' s t hm

theorem runPart_keeps {ws ws' : List Word} (hq : p.Queues ws ws') :
    p.Keeps (runPart inner ws) (runPart inner' ws') := by
  rcases ws with _ | ⟨w, ws⟩
  · obtain rfl := (h.nil hq).1 rfl
    exact fun _ _ _ _ hm => ends_of_like hm
  · rcases ws' with _ | ⟨w', ws'⟩
    · cases (h.nil hq).2 rfl
    · exact hi hq

theorem runBranch_keeps {a a' b b' : List Word} (closed : Bool) (ha : p.Queues a a')
    (hb : p.Queues b b') :
    p.Keeps (runBranch note inner a b closed) (runBranch note' inner' a' b' closed) := by
  intro m m' s t hm
  unfold runBranch
  rcases h.operand hm with ⟨f, ho, hx | ⟨f', ho', hf⟩⟩ | ⟨n, below, below', ho, ho', hbelow⟩
  · rw [ho]
    exact .inl ⟨.fault f, rfl, hx⟩
  · rw [ho, ho']
    exact ends_of_fails hm hf
  · rw [ho, ho']
    dsimp only
    split
    · exact runPart_keeps h hi ha _ _ _ _ hbelow
    · exact runPart_keeps h hi hb _ _ _ _ hbelow

variable (hl : ∀ ws m s, (inner ws m s).machine.loops = m.loops)
  (hl' : ∀ ws m t, (inner' ws m t).machine.loops = m.loops)

include hl hl'

theorem turn_keeps {body body' : List Word} (hq : p.Queues body body') (index : Int) :
    p.Keeps (turn inner body index) (turn inner' body' index) := by
  intro m m' s t hm
  rcases hi hq _ _ s t (h.enter hm index) with hx | ⟨hf, hb⟩
  · exact .inl hx
  · refine .inr ⟨hf, ?_⟩
    simp only [turn, hl, hl', List.tail_cons]
    exact h.leave hm hb

theorem turns_keeps {body body' : List Word} (hq : p.Queues body body') (n : Nat) (index : Int) :
    p.Keeps (turns inner body n index) (turns inner' body' n index) := by
  induction n generalizing index with
  | zero => exact fun _ _ _ _ hm => ends_of_like hm
  | succ n ih => exact (turn_keeps h hi hl hl' hq index).andThen (ih (index + 1))

theorem runLoop_keeps {item item' : Option (List Word)} (hq : p.Items (.loop item) (.loop item')) :
    p.Keeps (runLoop note inner item) (runLoop note' inner' item') := by
  intro m m' s t hm
  unfold runLoop
  rcases h.bounds hm with
    ⟨f, hb, hx | ⟨f', hb', hf⟩⟩ | ⟨start, limit, below, below', hb, hb', hbelow⟩
  · rw [hb]
    exact .inl ⟨.fault f, rfl, hx⟩
  · rw [hb, hb']
    exact ends_of_fails hm hf
  · rw [hb, hb']
    cases hq with
    | unclosed => exact ends_of_fails hbelow (h.fails _ (by simp))
    | loop hq => exact turns_keeps h hi hl hl' hq _ start _ _ _ _ hbelow

theorem perform_keeps {item item' : Item} (hq : p.Items item item') :
    p.Keeps (perform note inner item) (perform note' inner' item') := by
  cases hq with
  | word hw => exact call_keeps h hi hw
  | define hw hq => exact fun _ _ _ _ hm => ends_of_like (h.define hm hw hq)
  | misdefine hf => exact fun _ _ _ _ hm => ends_of_fails hm hf
  | nameless => exact fun _ _ _ _ hm => ends_of_fails hm (h.fails _ (by simp))
  | declare hw => exact fun _ _ _ _ hm => ends_of_like (h.set hm hw)
  | branch closed ha hb => exact runBranch_keeps h hi closed ha hb
  | unclosed => exact runLoop_keeps h hi hl hl' .unclosed
  | loop hq => exact runLoop_keeps h hi hl hl' (.loop hq)

theorem runItems_keeps {its its' : List Item} (hq : List.Forall₂ p.Items its its') :
    p.Keeps (runItems note inner its) (runItems note' inner' its') := by
  induction hq with
  | nil => exact fun _ _ _ _ hm => ends_of_like hm
  | @cons item item' _ _ hitem _ ih =>
    have first : p.Keeps (step note inner item) (step note' inner' item') := fun _ _ _ _ hm =>
      perform_keeps h hi hl hl' hitem _ _ _ _ hm
    exact first.andThen ih

end

theorem runWords_simulates (h : p.Lawful) (note : σ → Event → σ) (note' : τ → Event → τ)
    {depth depth' : Nat} (hle : depth ≤ depth')
    (hd : depth = depth' ∨ p.Excused .nestedTooDeep) {ws ws' : List Word} (hq : p.Queues ws ws') :
    p.Keeps (runWords note depth ws) (runWords note' depth' ws') := by
  induction depth generalizing depth' ws ws' with
  | zero =>
    intro m m' s t hm
    rcases hd with rfl | hx
    · exact ends_of_fails hm (h.fails _ (by simp))
    · exact .inl ⟨.nestedTooDeep, rfl, hx⟩
  | succ depth ih =>
    obtain ⟨depth', rfl⟩ : ∃ d, depth' = d + 1 := ⟨depth' - 1, by omega⟩
    have hi {ws ws' : List Word} (hq : p.Queues ws ws') :
        p.Keeps (runWords note depth ws) (runWords note' depth' ws') :=
      ih (by omega) (hd.imp_left Nat.succ.inj) hq
    exact runItems_keeps h hi (runWords_loops depth) (runWords_loops depth') (h.items hq)

end Simulation

end FlatForth
