import FlatForth.Proofs.Unrolling
import Mathlib.Data.Int.Range

/-!
The range of a loop. A loop looks at its bounds once. From then on it visits what lies between them,
in ascending order and each index once, whatever the body does meanwhile (`loopWithin_visits`); so
it may be cut in two at any index on the way (`loopWithin_split`).
-/

namespace FlatForth

namespace Machine

/-- How a loop over `body` ends at `depth`, with `start` and `limit` on the stack of `m`. -/
def loopWithin (depth : Nat) (body : List Word) (start limit : Int) (m : Machine) : Ending :=
  (perform unwatched (runWords unwatched depth)
    (Item.read Keyword.loop (body ++ [Keyword.endLoop])).1
    { m with stack := .int start :: .int limit :: m.stack } ()).toEnding

/-- A turn of `body` for each index, up to the first that fails. -/
def visit (depth : Nat) (body : List Word) : List Int → Machine → Ending
  | [], m => m.done
  | index :: rest, m => (m.runTurn depth body index).andThen (visit depth body rest)

theorem series_eq_visit (depth : Nat) (body : List Word) (n : Nat) (index : Int) (m : Machine) :
    series (runTurn depth body) done n index m =
      m.visit depth body ((List.range n).map fun k : Nat => index + k) := by
  induction n generalizing index m with
  | zero => rfl
  | succ n ih =>
    have hnext : (List.range n).map (fun k : Nat => index + (k + 1 : Nat)) =
        (List.range n).map fun k : Nat => index + 1 + k :=
      List.map_congr_left fun k _ => by omega
    rw [List.range_succ_eq_map, List.map_cons, List.map_map, Function.comp_def, hnext]
    simp only [series, visit, Int.natCast_zero, Int.add_zero]
    exact congrArg (Ending.andThen _) (funext (ih (index + 1)))

end Machine

theorem pairwise_range (start limit : Int) : (Int.range start limit).Pairwise (· < ·) := by
  refine List.Pairwise.map _ (fun k n hlt => ?_) List.pairwise_lt_range
  omega

section

variable {body : List Word} (hparts : (loopMarkers.scan (body ++ [Keyword.endLoop])).parts = [body])
  (hclosed : (loopMarkers.scan (body ++ [Keyword.endLoop])).closed = true)

include hparts hclosed

theorem read_loop_of_parts :
    (Item.read Keyword.loop (body ++ [Keyword.endLoop])).1 = .loop (some body) := by
  have hfirst : (loopMarkers.scan (body ++ [Keyword.endLoop])).first = body :=
    (List.cons.inj hparts).1
  change (Item.readLoop _).1 = _
  simp [Item.readLoop, hclosed, hfirst]

theorem loopWithin_eq_turns (depth : Nat) (start limit : Int) (m : Machine) :
    m.loopWithin depth body start limit =
      (turns (runWords unwatched depth) body (limit - start).toNat start m ()).toEnding := by
  unfold Machine.loopWithin
  rw [read_loop_of_parts hparts hclosed]
  rfl

theorem loopWithin_visits (depth : Nat) (start limit : Int) (m : Machine) :
    m.loopWithin depth body start limit = m.visit depth body (Int.range start limit) := by
  have hseries (n : Nat) :
      ((turns (runWords unwatched depth) body n start).andThen .skip m ()).toEnding =
        series (Machine.runTurn depth body) Machine.done n start m := turns_andThen .skip n start m
  simp only [Action.andThen_skip] at hseries
  rw [loopWithin_eq_turns hparts hclosed, hseries]
  exact Machine.series_eq_visit depth body _ start m

theorem loopWithin_append (depth : Nat) {a b c : Int} (hab : a ≤ b) (hbc : b ≤ c) (m : Machine) :
    m.loopWithin depth body a c =
      (m.loopWithin depth body a b).andThen (Machine.loopWithin depth body b c) := by
  have hcount : (c - a).toNat = (b - a).toNat + (c - b).toNat := by omega
  have hjoint : a + ((b - a).toNat : Int) = b := by omega
  have hrest : Machine.loopWithin depth body b c = fun m' =>
      (turns (runWords unwatched depth) body (c - b).toNat b m' ()).toEnding :=
    funext (loopWithin_eq_turns hparts hclosed depth b c)
  rw [hrest, loopWithin_eq_turns hparts hclosed, loopWithin_eq_turns hparts hclosed, hcount,
    turns_add, hjoint]
  exact toEnding_andThen _ _ m

theorem loopWithin_empty (depth : Nat) {start limit : Int} (h : limit ≤ start) (m : Machine) :
    m.loopWithin depth body start limit = m.done := by
  have hcount : (limit - start).toNat = 0 := by omega
  rw [loopWithin_eq_turns hparts hclosed, hcount]
  rfl

/-- Let the body be cut off whole at the end of the loop. `loopWithin` is what `obey` makes of `do`,
the body and the end of the loop. At every depth, from `a` to `c` it ends as from `a` to `b` and
then, if that does not fail, from `b` to `c`; with `limit ≤ start` it leaves the machine below the
bounds as it was; and it visits the indices from the start up to the limit, each once and in
ascending order, on whatever machine. -/
theorem loopWithin_split :
    (∀ room start limit (m : Machine), (obey unwatched room Keyword.loop (body ++ [Keyword.endLoop])
        { m with stack := .int start :: .int limit :: m.stack } ()).toEnding =
      m.loopWithin room body start limit) ∧
    ∀ depth,
      (∀ a b c : Int, a ≤ b → b ≤ c → ∀ m : Machine, m.loopWithin depth body a c =
        (m.loopWithin depth body a b).andThen (Machine.loopWithin depth body b c)) ∧
      (∀ start limit : Int, limit ≤ start →
        ∀ m : Machine, m.loopWithin depth body start limit = m.done) ∧
      ∀ start limit, ∃ indices : List Int, indices.Pairwise (· < ·) ∧
        (∀ index, index ∈ indices ↔ start ≤ index ∧ index < limit) ∧
        ∀ m : Machine, m.loopWithin depth body start limit = m.visit depth body indices := by
  refine ⟨fun room start limit m => rfl, fun depth => ⟨fun a b c hab hbc m => ?_,
    fun start limit h m => ?_, fun start limit => ?_⟩⟩
  · exact loopWithin_append hparts hclosed depth hab hbc m
  · exact loopWithin_empty hparts hclosed depth h m
  · exact ⟨Int.range start limit, pairwise_range start limit, fun _ => Int.mem_range_iff,
      loopWithin_visits hparts hclosed depth start limit⟩

end

/-- Quotients summed from -3 on, up to a divisor of zero. The first part of the range is gone
through, the second fails. -/
theorem loopWithin_split_divisor :
    let body := ["60", "i", "/", "+"]
    let m := Machine.fresh.push (.int 0)
    (m.loopWithin nestingLimit body (-3) (-1)).failure = none ∧
    (m.loopWithin nestingLimit body (-3) (-1)).machine.stack = [.int (-50)] ∧
    (m.loopWithin nestingLimit body (-3) 2).failure = some (.fault .zeroDivisor) ∧
    m.loopWithin nestingLimit body (-3) 2 = (m.loopWithin nestingLimit body (-3) (-1)).andThen
      (Machine.loopWithin nestingLimit body (-1) 2) ∧
    m.loopWithin nestingLimit body 2 (-3) = m.done := by
  intro body m
  have hparts : (loopMarkers.scan (body ++ [Keyword.endLoop])).parts = [body] := by decide
  obtain ⟨-, hdepth⟩ := loopWithin_split hparts (by decide)
  obtain ⟨hsplit, hempty, -⟩ := hdepth nestingLimit
  exact ⟨by decide +kernel, by decide +kernel, by decide +kernel,
    hsplit (-3) (-1) 2 (by decide) (by decide) m, hempty 2 (-3) (by decide) m⟩

end FlatForth
