import FlatForth.Proofs.Unrolling

/-!
The two innermost loops. A run asks for no running loop but the innermost two, and each turn that
it takes itself puts one in front of them. So whatever other loops are running, a source does the
same, and ends with the loops it began with (`evaluate_innermost`). The relation that the turns keep
is that the first two loops are the same (`take_two_cons`).
-/

namespace FlatForth

namespace Machine

/-- `m` and `m'` have the same stack, variables and dictionary. -/
structure AgreesButLoops (m m' : Machine) : Prop where
  stack : m'.stack = m.stack
  «variables» : m'.variables = m.variables
  dictionary : m'.dictionary = m.dictionary

theorem AgreesButLoops.eq {m m' : Machine} (h : m.AgreesButLoops m') :
    m' = { m with loops := m'.loops } := by
  obtain ⟨hs, hv, hd⟩ := h
  rw [← hs, ← hv, ← hd]

end Machine

/-- The loops are the same, or there are at least two on both sides and the first two are. -/
def SameInnermost (loops loops' : List Int) : Prop :=
  loops' = loops ∨ 2 ≤ loops.length ∧ 2 ≤ loops'.length ∧ loops'.take 2 = loops.take 2

theorem SameInnermost.take_two {loops loops' : List Int} (h : SameInnermost loops loops') :
    loops'.take 2 = loops.take 2 := by
  rcases h with rfl | ⟨-, -, h⟩
  · rfl
  · exact h

theorem take_two_cons {loops loops' : List Int} (h : loops'.take 2 = loops.take 2) (index : Int) :
    (index :: loops').take 2 = (index :: loops).take 2 := by
  have hone : loops'.take 1 = loops.take 1 := by
    simpa [List.take_take] using congrArg (List.take 1) h
  rw [List.take_succ_cons, List.take_succ_cons, hone]

section

variable {m : Machine} {loops : List Int} (h : loops.take 2 = m.loops.take 2)

include h

theorem pushInnerIndex_innermost :
    Machine.pushInnerIndex { m with loops := loops } = m.pushInnerIndex.withLoops loops := by
  unfold Machine.pushInnerIndex
  rcases hl : m.loops with _ | ⟨i, below⟩ <;> rcases loops with _ | ⟨i', below'⟩ <;>
    simp_all [Machine.push, Machine.done, Machine.fault, Machine.stop, Ending.withLoops]

theorem pushOuterIndex_innermost :
    Machine.pushOuterIndex { m with loops := loops } = m.pushOuterIndex.withLoops loops := by
  unfold Machine.pushOuterIndex
  rcases hl : m.loops with _ | ⟨i, _ | ⟨j, below⟩⟩ <;>
    rcases loops with _ | ⟨i', _ | ⟨j', below'⟩⟩ <;>
      simp_all [Machine.push, Machine.done, Machine.fault, Machine.stop, Ending.withLoops]

theorem primitive_innermost (p : Primitive) :
    p.run { m with loops := loops } = (p.run m).withLoops loops := by
  cases p with
  | innerIndex => exact pushInnerIndex_innermost h
  | outerIndex => exact pushOuterIndex_innermost h
  | function f => exact primitive_withLoops (by simp) m loops
  | fetch => exact primitive_withLoops (by simp) m loops
  | store => exact primitive_withLoops (by simp) m loops

end

/-- Machines that agree in all but their loops, and in the first two of these. -/
def innermost : Pairing where
  Like m m' := ∃ loops, m' = { m with loops := loops } ∧ loops.take 2 = m.loops.take 2
  Excused _ := False

theorem innermost_lawful : innermost.Lawful where
  declared := by
    intro m _ hm w
    obtain ⟨loops, rfl, -⟩ := hm
    rfl
  dictionary := by
    intro m _ hm w
    obtain ⟨loops, rfl, -⟩ := hm
    rfl
  push := by
    intro m _ hm c
    obtain ⟨loops, rfl, hl⟩ := hm
    exact ⟨loops, rfl, hl⟩
  primitive := by
    intro m _ hm p
    obtain ⟨loops, rfl, hl⟩ := hm
    have kept : (p.run m).machine.loops = m.loops :=
      primitive_upholds (loops_upheld unwatched) p m ()
    rw [primitive_innermost hl p]
    exact .inr ⟨rfl, loops, rfl, kept ▸ hl⟩
  operand := by
    intro m _ hm
    obtain ⟨loops, rfl, hl⟩ := hm
    exact Pairing.operand_self rfl fun _ => ⟨loops, rfl, hl⟩
  bounds := by
    intro m _ hm
    obtain ⟨loops, rfl, hl⟩ := hm
    exact Pairing.bounds_self rfl fun _ => ⟨loops, rfl, hl⟩
  define := by
    intro m _ hm name e
    obtain ⟨loops, rfl, hl⟩ := hm
    exact ⟨loops, rfl, hl⟩
  set := by
    intro m _ hm name n
    obtain ⟨loops, rfl, hl⟩ := hm
    exact ⟨loops, rfl, hl⟩
  enter := by
    intro m _ hm index
    obtain ⟨loops, rfl, hl⟩ := hm
    exact ⟨index :: loops, rfl, take_two_cons hl index⟩
  leave := by
    intro m _ n _ hm hn
    obtain ⟨loops, rfl, hl⟩ := hm
    obtain ⟨-, rfl, -⟩ := hn
    exact ⟨loops, rfl, hl⟩

/-- Let `m` and `m'` agree in all but their loops, and let these be the same or have the two
innermost in common. On every source they end in the same failure or in none, they agree in all but
their loops again, and each has the loops it had before. -/
theorem evaluate_innermost {m m' : Machine} (hm : m.AgreesButLoops m')
    (hloops : SameInnermost m.loops m'.loops) (room : Nat) (source : Source) :
    (m'.evaluate room source).failure = (m.evaluate room source).failure ∧
    (m.evaluate room source).machine.AgreesButLoops (m'.evaluate room source).machine ∧
    (m.evaluate room source).machine.loops = m.loops ∧
    (m'.evaluate room source).machine.loops = m'.loops := by
  have keeps := Pairing.runWords_keeps innermost_lawful unwatched unwatched
    (Nat.le_refl (room + 1)) (.inl rfl) source.queue
  have hlike : innermost.Like m m' := ⟨m'.loops, hm.eq, hloops.take_two⟩
  have kept (n : Machine) : (n.evaluate room source).machine.loops = n.loops :=
    runWords_loops (room + 1) source.queue n ()
  rcases keeps m m' () () hlike with ⟨_, _, hx⟩ | ⟨hfails, loops, hends, -⟩
  · exact hx.elim
  · have hmachine : (m'.evaluate room source).machine =
        { (m.evaluate room source).machine with loops := loops } := hends
    refine ⟨hfails.symm, ?_, kept m, kept m'⟩
    rw [hmachine]
    exact ⟨rfl, rfl, rfl⟩

/-- A word that asks for both indices, before a loop and in it, with two loops running and with
four. -/
theorem evaluate_innermost_word :
    ∃ m m' : Machine, m.loops = [3, 5] ∧ m'.loops = [3, 5, 7, 9] ∧
      (m'.evaluate nestingLimit (.text "ij 2 1 DO ij LOOP nope")).failure =
        some (.fault (.undefined "nope")) ∧
      (m'.evaluate nestingLimit (.text "ij 2 1 DO ij LOOP nope")).machine.stack =
        [.int 3, .int 1, .int 5, .int 3] ∧
      (m'.evaluate nestingLimit (.text "ij 2 1 DO ij LOOP nope")).machine.loops = [3, 5, 7, 9] := by
  let m : Machine := { Machine.fresh.define "ij" (.words ["i", "j"]) with loops := [3, 5] }
  let m' : Machine := { m with loops := [3, 5, 7, 9] }
  have hloops : SameInnermost m.loops m'.loops := .inr (by decide)
  have hrun : (m.evaluate nestingLimit (.text "ij 2 1 DO ij LOOP nope")).failure =
        some (.fault (.undefined "nope")) ∧
      (m.evaluate nestingLimit (.text "ij 2 1 DO ij LOOP nope")).machine.stack =
        [.int 3, .int 1, .int 5, .int 3] := by
    decide +kernel
  have hm : m.AgreesButLoops m' := ⟨rfl, rfl, rfl⟩
  obtain ⟨hfails, hends, -, hkept⟩ :=
    evaluate_innermost hm hloops nestingLimit (.text "ij 2 1 DO ij LOOP nope")
  exact ⟨m, m', rfl, rfl, hfails.trans hrun.1, hends.stack.trans hrun.2, hkept⟩

end FlatForth
