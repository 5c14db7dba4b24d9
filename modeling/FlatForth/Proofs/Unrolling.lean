import FlatForth.Proofs.ByItself
import FlatForth.Proofs.Depth
import FlatForth.Proofs.Folding
import FlatForth.Proofs.SelfContained

/-!
Loops unrolled. Where no word asks how far the running loops have come, a run is the same whatever
loops are running (`runWithin_withLoops`). So a loop whose body holds together does what its body
does when it is written out, once for each turn, in place of the loop: it fails where one of the
copies fails, and leaves what they leave (`evaluate_unrolled`). The copies run where the loop
stands, and need less room to nest than its turns.
-/

namespace FlatForth

/-- The words that push the indices of the running loops. -/
abbrev indexWords : List Word := ["i", "j"]

namespace Machine

/-- No definition has an index word in it, and no other word pushes an index. -/
structure LoopBlind (m : Machine) : Prop where
  bodies : ∀ w body, m.dictionary.find? w = some (.words body) → "i" ∉ body ∧ "j" ∉ body
  readers : ∀ w p, w ∉ indexWords → m.dictionary.find? w = some (.primitive p) →
    p ≠ .innerIndex ∧ p ≠ .outerIndex

theorem fresh_loopBlind : fresh.LoopBlind where
  bodies w body hw := absurd hw (find?_builtins_ne_words w body)
  readers w p hw hp := by
    have hmem := Table.mem_of_find? hp
    simp only [List.mem_cons, List.not_mem_nil, or_false, not_or] at hw
    constructor
    · rintro rfl
      simp [fresh, builtins, hw] at hmem
    · rintro rfl
      simp [fresh, builtins, hw] at hmem

variable {m : Machine}

theorem LoopBlind.congr (h : m.LoopBlind) {m' : Machine} (hd : m'.dictionary = m.dictionary) :
    m'.LoopBlind := ⟨hd ▸ h.bodies, hd ▸ h.readers⟩

theorem LoopBlind.define (h : m.LoopBlind) (name : Word) {body : List Word}
    (hb : "i" ∉ body ∧ "j" ∉ body) : (m.define name (.words body)).LoopBlind where
  bodies w ws hw := by
    rcases Table.of_find?_insert hw with he | hw
    · cases he
      exact hb
    · exact h.bodies w ws hw
  readers w p hi hw := by
    rcases Table.of_find?_insert hw with he | hw
    · cases he
    · exact h.readers w p hi hw

end Machine

/-- All primitives but `i` and `j` do the same with other loops running. -/
theorem primitive_withLoops {p : Primitive} (h : p ≠ .innerIndex ∧ p ≠ .outerIndex) (m : Machine)
    (loops : List Int) : p.run { m with loops := loops } = (p.run m).withLoops loops := by
  have declared (c : Cell) : Machine.declared? { m with loops := loops } c = m.declared? c :=
    Machine.declared?_congr rfl c
  cases p with
  | innerIndex => exact absurd rfl h.1
  | outerIndex => exact absurd rfl h.2
  | function f =>
    simp only [Primitive.run, Machine.apply]
    split
    · rfl
    · split <;> rfl
  | fetch =>
    simp only [Primitive.run, Machine.fetch, declared]
    split
    · rfl
    · split <;> rfl
  | store =>
    simp only [Primitive.run, Machine.store, declared]
    split
    · split <;> rfl
    · rfl

/-- The simulation of machines that differ in their loops, on words without `i` and `j`. -/
def indifferent : Simulation where
  Like m m' := m.LoopBlind ∧ ∃ loops, m' = { m with loops := loops }
  Names w w' := w = w' ∧ w ∉ indexWords
  Queues ws ws' := ws = ws' ∧ "i" ∉ ws ∧ "j" ∉ ws
  Fails := Eq
  Excused why := why = .nestedTooDeep

theorem indifferent_lawful : indifferent.Lawful where
  call := by
    rintro m _ w _ ⟨hm, loops, rfl⟩ ⟨rfl, hw⟩
    have alike {n : Machine} (hd : n.dictionary = m.dictionary) :
        indifferent.Like n { n with loops := loops } := ⟨hm.congr hd, loops, rfl⟩
    refine Simulation.calls_self (fun _ => rfl) (alike rfl) rfl rfl (fun c _ => alike rfl) ?_
      fun body hbody => ⟨rfl, hm.bodies w body hbody⟩
    intro q hq
    rw [primitive_withLoops (hm.readers w q hw hq) m loops]
    exact .inr ⟨Simulation.rel_eq.2 rfl, alike (primitive_dictionary q m)⟩
  operand := by
    rintro m _ ⟨hm, loops, rfl⟩
    exact Simulation.operand_self (fun _ => rfl) rfl fun _ _ => ⟨hm.congr rfl, loops, rfl⟩
  bounds := by
    rintro m _ ⟨hm, loops, rfl⟩
    exact Simulation.bounds_self (fun _ => rfl) rfl fun _ _ => ⟨hm.congr rfl, loops, rfl⟩
  define := by
    rintro m _ name _ body _ ⟨hm, loops, rfl⟩ ⟨rfl, -⟩ ⟨rfl, hbody⟩
    exact ⟨hm.define name hbody, loops, rfl⟩
  set := by
    rintro m _ name _ ⟨hm, loops, rfl⟩ ⟨rfl, -⟩
    exact ⟨hm.congr rfl, loops, rfl⟩
  enter := by
    rintro m _ ⟨hm, loops, rfl⟩ index
    exact ⟨hm.congr rfl, index :: loops, rfl⟩
  leave := by
    rintro m _ n _ ⟨-, loops, rfl⟩ ⟨hn, -, rfl⟩
    exact ⟨hn.congr rfl, loops, rfl⟩
  items := by
    rintro ws _ ⟨rfl, hi, hj⟩
    refine Simulation.forall₂_items_self (fun _ => rfl) (fun w hw => ⟨rfl, ?_⟩) fun vs hvs =>
      ⟨rfl, fun hmem => hi (hvs hmem), fun hmem => hj (hvs hmem)⟩
    simp only [List.mem_cons, List.not_mem_nil, or_false, not_or]
    exact ⟨fun heq => hi (heq ▸ hw), fun heq => hj (heq ▸ hw)⟩
  nil := by
    rintro ws _ ⟨rfl, -⟩
    rfl
  fails _ _ := rfl

/-- How a turn of `body` ends on `m`, with the loops of `m` put back. -/
def Machine.runTurn (depth : Nat) (body : List Word) (index : Int) (m : Machine) : Ending :=
  (Machine.runWithin depth body { m with loops := index :: m.loops }).withLoops m.loops

section

variable {m : Machine} {body : List Word} {depth depth' : Nat} (hm : m.LoopBlind)
  (hb : "i" ∉ body ∧ "j" ∉ body)

include hm hb

/-- A body that does not nest too deep ends alike with other loops running and with more room. -/
theorem runWithin_withLoops (h : depth ≤ depth') (loops : List Int)
    (hdeep : (m.runWithin depth body).failure ≠ some .nestedTooDeep) :
    (m.runWithin depth body).machine.LoopBlind ∧
      Machine.runWithin depth' body { m with loops := loops } =
        (m.runWithin depth body).withLoops loops := by
  have keeps := Simulation.runWords_simulates indifferent_lawful unwatched unwatched h (.inr rfl)
    ⟨rfl, hb⟩ m { m with loops := loops } () () ⟨hm, loops, rfl⟩
  have hloops : (Machine.runWithin depth' body { m with loops := loops }).machine.loops = loops :=
    runWords_loops depth' body _ ()
  rcases keeps with ⟨_, hw, rfl⟩ | ⟨hfails, hblind, loops', hlike⟩
  · exact absurd hw hdeep
  · have hmachine : (Machine.runWithin depth' body { m with loops := loops }).machine =
        { (m.runWithin depth body).machine with loops := loops' } := hlike
    have hfailure : (Machine.runWithin depth' body { m with loops := loops }).failure =
        (m.runWithin depth body).failure := (Simulation.rel_eq.1 hfails).symm
    obtain rfl : loops' = loops := (congrArg Machine.loops hmachine).symm.trans hloops
    exact ⟨hblind, congrArg₂ Ending.mk hmachine hfailure⟩

/-- A turn that does not nest too deep ends as the body does outside of the loop. -/
theorem runTurn_carries (h : depth ≤ depth') {index : Int}
    (hdeep : (m.runTurn depth body index).failure ≠ some .nestedTooDeep) :
    (m.runTurn depth body index).machine.LoopBlind ∧
      m.runWithin depth' body = m.runTurn depth body index := by
  have hin : Machine.LoopBlind { m with loops := index :: m.loops } := hm.congr rfl
  obtain ⟨hblind, hrun⟩ := runWithin_withLoops hin hb h m.loops hdeep
  exact ⟨hblind.congr rfl, hrun⟩

theorem carries_runTurn (h : depth ≤ depth') (index : Int)
    (hdeep : (m.runWithin depth body).failure ≠ some .nestedTooDeep) :
    (m.runWithin depth body).machine.LoopBlind ∧
      m.runTurn depth' body index = m.runWithin depth body := by
  obtain ⟨hblind, hrun⟩ := runWithin_withLoops hm hb h (index :: m.loops) hdeep
  have hloops : (m.runWithin depth body).machine.loops = m.loops := runWords_loops depth body m ()
  refine ⟨hblind, ?_⟩
  rw [Machine.runTurn, hrun, Ending.withLoops, Ending.withLoops, ← hloops]

end

/-! A loop, and the copies of its body, are each a series of runs with another behind it. -/

def series (turn : Int → Machine → Ending) (last : Machine → Ending) :
    Nat → Int → Machine → Ending
  | 0, _, m => last m
  | n + 1, index, m => (turn index m).andThen (series turn last n (index + 1))

section

variable {depth : Nat} {body rest : List Word}

theorem turns_andThen (last : Action Unit) (n : Nat) (index : Int) (m : Machine) :
    ((turns (runWords unwatched depth) body n index).andThen last m ()).toEnding =
      series (Machine.runTurn depth body) (fun m => (last m ()).toEnding) n index m := by
  induction n generalizing index m with
  | zero => rfl
  | succ n ih =>
    have hturn : (turn (runWords unwatched depth) body index m ()).toEnding =
        m.runTurn depth body index := by
      have hloops : (runWords unwatched depth body { m with loops := index :: m.loops }
          ()).machine.loops = index :: m.loops := runWords_loops depth body _ ()
      simp only [turn, hloops, List.tail_cons]
      rfl
    have hrest : (fun m' => ((turns (runWords unwatched depth) body n (index + 1)).andThen last
        m' ()).toEnding) = series (Machine.runTurn depth body) (fun m => (last m ()).toEnding) n
          (index + 1) := funext (ih (index + 1))
    rw [turns_succ, Action.andThen_assoc, toEnding_andThen, hturn, hrest]
    rfl

theorem items_loop (h : loopMarkers.scan (body ++ [Keyword.endLoop]) = ⟨body, none, true, []⟩)
    (rest : List Word) : items (Keyword.loop :: (body ++ Keyword.endLoop :: rest)) =
      .loop (some body) :: items rest := by
  refine items_of_read ?_
  have hscan := loopMarkers.scan_append (congrArg Block.closed h) rest
  rw [h, List.append_assoc] at hscan
  change Item.readLoop (body ++ Keyword.endLoop :: rest) = _
  unfold Item.readLoop
  rw [show body ++ Keyword.endLoop :: rest = body ++ ([Keyword.endLoop] ++ rest) from rfl, hscan]
  rfl

theorem runWithin_loop (h : loopMarkers.scan (body ++ [Keyword.endLoop]) = ⟨body, none, true, []⟩)
    (m : Machine) (start limit : Int) :
    Machine.runWithin (depth + 1) (Keyword.loop :: (body ++ Keyword.endLoop :: rest))
        { m with stack := .int start :: .int limit :: m.stack } =
      series (Machine.runTurn depth body) (Machine.runWithin (depth + 1) rest)
        (limit - start).toNat start m := by
  unfold Machine.runWithin
  change (runItems unwatched (runWords unwatched depth) _ _ ()).toEnding = _
  rw [items_loop h]
  exact turns_andThen (runWords unwatched (depth + 1) rest) _ start m

theorem runWithin_copies (h : SelfContained body) (n : Nat) (index : Int) (m : Machine) :
    m.runWithin (depth + 1) ((List.replicate n body).flatten ++ rest) =
      series (fun _ => Machine.runWithin (depth + 1) body) (Machine.runWithin (depth + 1) rest) n
        index m := by
  induction n generalizing index m with
  | zero => rfl
  | succ n ih =>
    have hrun := runItems_items_append unwatched (runWords unwatched depth) h
      ((List.replicate n body).flatten ++ rest)
    rw [List.replicate_succ, List.flatten_cons, List.append_assoc]
    unfold Machine.runWithin
    change (runItems _ _ (items (body ++ _)) m ()).toEnding = _
    rw [hrun]
    refine (toEnding_andThen _ _ m).trans ?_
    exact congrArg (Ending.andThen (m.runWithin (depth + 1) body)) (funext (ih (index + 1)))

end

/-- If every turn and the last action carry to their counterparts, so does the series. -/
theorem series_carries {turn turn' : Int → Machine → Ending} {last last' : Machine → Ending}
    (ht : ∀ index m, m.LoopBlind → (turn index m).failure ≠ some .nestedTooDeep →
      (turn index m).machine.LoopBlind ∧ turn' index m = turn index m)
    (hl : ∀ m, (last m).CarriesTo (last' m)) {m : Machine} (hm : m.LoopBlind) (n : Nat)
    (index : Int) : (series turn last n index m).CarriesTo (series turn' last' n index m) := by
  induction n generalizing index m with
  | zero => exact hl m
  | succ n ih =>
    have hturn : (turn index m).CarriesTo (turn' index m) := fun hdeep => (ht index m hm hdeep).2
    refine hturn.andThen fun hdone => ?_
    exact ih (ht index m hm (hdone ▸ nofun)).1 (index + 1)

/-- Let `m` be `LoopBlind`, and the body free of `i` and `j`, self-contained, and cut off whole at
the end of the loop. With the bounds on the stack, the loop and the words behind it end as
`limit - start` copies of the body and those words do on `m`, unless the loop nests too deep; and
with any more room for the loop, they end alike unless the copies nest too deep. -/
theorem evaluate_unrolled {m : Machine} (hm : m.LoopBlind) {body : List Word}
    (hfolded : ∀ w ∈ body, w.Folded) (hself : SelfContained body)
    (hscan : loopMarkers.scan (body ++ [Keyword.endLoop]) = ⟨body, none, true, []⟩)
    (hindex : "i" ∉ body ∧ "j" ∉ body) (start limit : Int) (rest : List Word) (room : Nat) :
    let bounded := { m with stack := .int start :: .int limit :: m.stack }
    let loop := Source.words (Keyword.loop :: (body ++ Keyword.endLoop :: rest))
    let copies := Source.words ((List.replicate (limit - start).toNat body).flatten ++ rest)
    (bounded.evaluate room loop).CarriesTo (m.evaluate room copies) ∧
      ∀ more > room, (m.evaluate room copies).CarriesTo (bounded.evaluate more loop) := by
  intro bounded loop copies
  have hbody : body.map Text.fold = body := queue_words_folded hfolded
  have hopen : Text.fold Keyword.loop = Keyword.loop := by decide +kernel
  have hclose : Text.fold Keyword.endLoop = Keyword.endLoop := by decide +kernel
  have hlooped : loop.queue = Keyword.loop :: (body ++ Keyword.endLoop :: rest.map Text.fold) := by
    simp [loop, Source.queue, hbody, hopen, hclose]
  have hcopies : copies.queue =
      (List.replicate (limit - start).toNat body).flatten ++ rest.map Text.fold := by
    simp [copies, Source.queue, List.map_flatten, hbody]
  unfold Machine.evaluate
  rw [hlooped, hcopies, runWithin_copies hself _ start]
  refine ⟨?_, fun more hmore => ?_⟩
  · rw [runWithin_loop hscan]
    exact series_carries (fun _ _ hn => runTurn_carries hn hindex (Nat.le_succ room))
      (fun _ => .refl _) hm _ _
  · rw [runWithin_loop hscan]
    exact series_carries (fun index _ hn => carries_runTurn hn hindex hmore index)
      (carries_deeper (by omega) _) hm _ _

/-- Five turns, or five copies, of counting down from three and dividing by what is left. Both end
in the third. -/
theorem evaluate_unrolled_countdown :
    let loop := Source.words ["do", "down", "6", "over", "/", "drop", "loop", "I"]
    ∃ m : Machine, m.dictionary.find? "down" = some (.words ["1", "-"]) ∧ m.stack = [.int 3] ∧
      (Machine.evaluate { m with stack := [.int 0, .int 5, .int 3] } nestingLimit loop).failure =
        some (.fault .zeroDivisor) ∧
      m.evaluate nestingLimit
          (.words ((List.replicate 5 ["down", "6", "over", "/", "drop"]).flatten ++ ["I"])) =
        Machine.evaluate { m with stack := [.int 0, .int 5, .int 3] } nestingLimit loop := by
  intro loop
  let defined := Machine.fresh.define "down" (.words ["1", "-"])
  let m : Machine := { defined with stack := [.int 3] }
  have hdown : m.dictionary.find? "down" = some (.words ["1", "-"]) := by
    simp [m, defined, Machine.define, Table.find?_insert]
  have hdefined : defined.LoopBlind := Machine.fresh_loopBlind.define "down" (by decide)
  have hm : m.LoopBlind := hdefined.congr rfl
  have hself : SelfContained ["down", "6", "over", "/", "drop"] :=
    .word (by decide) (.word (by decide) (.word (by decide) (.word (by decide)
      (.word (by decide) .nil))))
  have hfails : (Machine.evaluate { m with stack := [.int 0, .int 5, .int 3] } nestingLimit
      loop).failure = some (.fault .zeroDivisor) := by decide +kernel
  have h := evaluate_unrolled hm (by decide +kernel) hself (by decide) (by decide) 0 5 ["I"]
    nestingLimit
  refine ⟨m, hdown, rfl, hfails, h.1 ?_⟩
  exact fun hdeep => absurd (hfails.symm.trans hdeep) (by decide)

end FlatForth
