import FlatForth.Proofs.Simulation

/-!
Runs of the same words on two machines, side by side. A pairing is a simulation in which words and
failures answer no others than themselves. When the single effects keep machines alike, so do whole
runs, and they end alike (`runWords_keeps`).
-/

namespace FlatForth

structure Pairing where
  Like : Machine → Machine → Prop
  Excused : Failure → Prop

namespace Pairing

variable (p : Pairing) {σ τ : Type}

def Ends (e e' : Ending) : Prop :=
  (∃ why, e.failure = some why ∧ p.Excused why) ∨
    e.failure = e'.failure ∧ p.Like e.machine e'.machine

def Keeps (a : Action σ) (b : Action τ) : Prop :=
  ∀ m m' s t, p.Like m m' → p.Ends (a m s).toEnding (b m' t).toEnding

structure Lawful : Prop where
  declared : ∀ {m m'}, p.Like m m' → ∀ w, m.variables.contains w = m'.variables.contains w
  dictionary : ∀ {m m'}, p.Like m m' → ∀ w, m.dictionary.find? w = m'.dictionary.find? w
  push : ∀ {m m'}, p.Like m m' → ∀ c, p.Like (m.push c) (m'.push c)
  primitive : ∀ {m m'}, p.Like m m' → ∀ q : Primitive, p.Ends (q.run m) (q.run m')
  operand : ∀ {m m'}, p.Like m m' →
    (∃ f, operand m.stack = .error f ∧ (p.Excused (.fault f) ∨ operand m'.stack = .error f)) ∨
    ∃ n below below', operand m.stack = .ok (n, below) ∧ operand m'.stack = .ok (n, below') ∧
      p.Like { m with stack := below } { m' with stack := below' }
  bounds : ∀ {m m'}, p.Like m m' →
    (∃ f, bounds m.stack = .error f ∧ (p.Excused (.fault f) ∨ bounds m'.stack = .error f)) ∨
    ∃ start limit below below', bounds m.stack = .ok (start, limit, below) ∧
      bounds m'.stack = .ok (start, limit, below') ∧
      p.Like { m with stack := below } { m' with stack := below' }
  define : ∀ {m m'}, p.Like m m' → ∀ name e, p.Like (m.define name e) (m'.define name e)
  set : ∀ {m m'}, p.Like m m' → ∀ name n, p.Like (m.set name n) (m'.set name n)
  enter : ∀ {m m'}, p.Like m m' → ∀ index,
    p.Like { m with loops := index :: m.loops } { m' with loops := index :: m'.loops }
  leave : ∀ {m m' n n'}, p.Like m m' → p.Like n n' →
    p.Like { n with loops := m.loops } { n' with loops := m'.loops }

variable {p}

section

variable {m m' : Machine} (hs : m'.stack = m.stack)
  (hlike : ∀ below, p.Like { m with stack := below } { m' with stack := below })

include hs hlike

/-- On equal stacks `operand` fails alike, or takes the same integer and leaves machines that are
`Like`. -/
theorem operand_self :
    (∃ f, operand m.stack = .error f ∧ (p.Excused (.fault f) ∨ operand m'.stack = .error f)) ∨
    ∃ n below below', operand m.stack = .ok (n, below) ∧ operand m'.stack = .ok (n, below') ∧
      p.Like { m with stack := below } { m' with stack := below' } := by
  rw [hs]
  cases operand m.stack with
  | error f => exact .inl ⟨f, rfl, .inr rfl⟩
  | ok found => exact .inr ⟨found.1, found.2, found.2, rfl, rfl, hlike found.2⟩

theorem bounds_self :
    (∃ f, bounds m.stack = .error f ∧ (p.Excused (.fault f) ∨ bounds m'.stack = .error f)) ∨
    ∃ start limit below below', bounds m.stack = .ok (start, limit, below) ∧
      bounds m'.stack = .ok (start, limit, below') ∧
      p.Like { m with stack := below } { m' with stack := below' } := by
  rw [hs]
  cases bounds m.stack with
  | error f => exact .inl ⟨f, rfl, .inr rfl⟩
  | ok found =>
    exact .inr ⟨found.1, found.2.1, found.2.2, found.2.2, rfl, rfl, hlike found.2.2⟩

end

variable (p)

/-- The pairing as a `Simulation` in which words, queues and failures answer themselves only. -/
def simulation : Simulation := ⟨p.Like, Eq, Eq, Eq, p.Excused⟩

variable {p}

theorem ends_simulation {e e' : Ending} : p.simulation.Ends e e' ↔ p.Ends e e' :=
  or_congr_right (and_congr_left' Simulation.rel_eq)

theorem Lawful.simulation (h : p.Lawful) : p.simulation.Lawful where
  call := by
    rintro m m' w _ hm rfl
    exact Simulation.calls_self (fun _ => rfl) hm (h.declared hm w).symm (h.dictionary hm w).symm
      (fun c _ => h.push hm c) (fun q _ => ends_simulation.2 (h.primitive hm q)) fun _ _ => rfl
  operand hm := (h.operand hm).imp_left fun ⟨f, ho, hx⟩ =>
    ⟨f, ho, hx.imp_right fun ho' => ⟨f, ho', rfl⟩⟩
  bounds hm := (h.bounds hm).imp_left fun ⟨f, hb, hx⟩ =>
    ⟨f, hb, hx.imp_right fun hb' => ⟨f, hb', rfl⟩⟩
  define := by
    rintro m m' name _ body _ hm rfl rfl
    exact h.define hm name (.words body)
  set := by
    rintro m m' name _ hm rfl
    exact h.set hm name 0
  enter := h.enter
  leave := h.leave
  items := by
    rintro ws _ rfl
    exact Simulation.forall₂_items_self (fun _ => rfl) (fun _ _ => rfl) fun _ _ => rfl
  nil := by
    rintro ws _ rfl
    rfl
  fails _ _ := rfl

theorem runWords_keeps (h : p.Lawful) (note : σ → Event → σ) (note' : τ → Event → τ)
    {depth depth' : Nat} (hle : depth ≤ depth')
    (hd : depth = depth' ∨ p.Excused .nestedTooDeep) (ws : List Word) :
    p.Keeps (runWords note depth ws) (runWords note' depth' ws) := fun _ _ _ _ hm =>
  ends_simulation.1 (Simulation.runWords_simulates h.simulation note note' hle hd rfl _ _ _ _ hm)

/-- Equal machines. What is excused may fail on the first of them alone. -/
def same (excused : Failure → Prop) : Pairing := ⟨Eq, excused⟩

theorem same_lawful (excused : Failure → Prop) : (same excused).Lawful where
  declared := by rintro m _ rfl w; rfl
  dictionary := by rintro m _ rfl w; rfl
  push := by rintro m _ rfl c; rfl
  primitive := by rintro m _ rfl q; exact .inr ⟨rfl, rfl⟩
  operand := by rintro m _ rfl; exact operand_self rfl fun _ => rfl
  bounds := by rintro m _ rfl; exact bounds_self rfl fun _ => rfl
  define := by rintro m _ rfl name e; rfl
  set := by rintro m _ rfl name n; rfl
  enter := by rintro m _ rfl index; rfl
  leave := by rintro m _ n _ rfl rfl; rfl

theorem ends_same {excused : Failure → Prop} {e e' : Ending} (h : (same excused).Ends e e')
    (hx : ∀ why, e.failure = some why → ¬excused why) : e' = e := by
  rcases h with ⟨why, hw, he⟩ | ⟨hf, hm⟩
  · exact absurd he (hx why hw)
  · obtain ⟨m, f⟩ := e
    obtain ⟨m', f'⟩ := e'
    obtain rfl : f = f' := hf
    obtain rfl : m = m' := hm
    rfl

end Pairing

end FlatForth
