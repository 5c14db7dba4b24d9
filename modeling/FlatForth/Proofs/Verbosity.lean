import FlatForth.CommandLine
import FlatForth.Proofs.Asking
import FlatForth.Watching

/-!
How much is told. A record up to one level is a view of the record up to any higher one, so by the
law of watching a command line that asks for more events ends as before, leaves the same input
unread, and shows the same events with more in between (`execute_quieter`).
-/

namespace FlatForth

variable {σ τ : Type} {view : σ → τ} {note : σ → Event → σ} {note' : τ → Event → τ}

/-! Sessions, watched through a view. -/

namespace Session

def Turn.map (view : σ → τ) (t : Turn σ) : Turn τ := ⟨t.toOutcome.map view, t.ends⟩

def map (view : σ → τ) (s : Session σ) : Session τ := ⟨s.toOutcome.map view, s.unread⟩

variable (h : Mirrored view note note') (room : Nat)

include h

theorem turn_mirrors (line : String) (m : Machine) (s : σ) :
    turn note' room line m (view s) = (turn note room line m s).map view := by
  unfold turn
  rw [evaluate_mirrors h room (source line) m s]
  by_cases hbye : saysGoodbye line
  · rw [if_pos hbye, if_pos hbye]
    rfl
  · rw [if_neg hbye, if_neg hbye]
    generalize evaluate note room (source line) m s = o
    cases hr : response o.toEnding <;> simp [Outcome.map, Turn.map, hr, h _]

theorem converse_mirrors (lines : List String) (m : Machine) (s : σ) :
    converse note' room lines m (view s) = (converse note room lines m s).map view := by
  induction lines generalizing m s with
  | nil => rfl
  | cons line rest ih =>
    unfold converse
    rw [turn_mirrors h room line m s]
    generalize turn note room line m s = t
    cases ht : t.ends
    · simpa [Turn.map, Outcome.map, ht] using ih t.machine t.seen
    · simp [Turn.map, ht, map]

theorem run_mirrors (input : String) (m : Machine) (s : σ) :
    run note' room input m (view s) = (run note room input m s).map view := by
  unfold run
  rw [h s]
  exact converse_mirrors h room _ m _

end Session

/-! Command lines, watched through a view. -/

namespace CommandLine

section

variable (h : Mirrored view note note') (room : Nat)

include h

theorem evaluateAll_mirrors (sources : List Source) :
    (evaluateAll note room sources).Mirrors view (evaluateAll note' room sources) := by
  induction sources with
  | nil => exact Action.quiet_mirrors Machine.done
  | cons source rest ih =>
    have first : Action.Mirrors view
        (fun m s => evaluate note room source m (note s (.evaluating source)))
        (fun m s => evaluate note' room source m (note' s (.evaluating source))) := by
      intro m s
      dsimp only
      rw [h s]
      exact evaluate_mirrors h room source m _
    exact first.andThen ih

theorem printStack_mirrors : (printStack note).Mirrors view (printStack note') := by
  intro m s
  unfold printStack
  split
  · rfl
  · simp only [h s, Outcome.map]

theorem runSources_mirrors (sources : List Source) :
    (runSources note room sources).Mirrors view (runSources note' room sources) :=
  (evaluateAll_mirrors h room sources).andThen (printStack_mirrors h)

end

/-- The events up to a level. -/
def upTo (verbosity : Nat) (events : List Event) : List Event :=
  events.filter (·.level ≤ verbosity)

theorem record_mirrored {v w : Nat} (h : v ≤ w) : Mirrored (upTo v) (record w) (record v) := by
  intro events e
  unfold record upTo
  by_cases hv : e.level ≤ v
  · rw [if_pos hv, if_pos (Nat.le_trans hv h), List.filter_cons_of_pos (by simpa using hv)]
  · rw [if_neg hv]
    split
    · rw [List.filter_cons_of_neg (by simpa using hv)]
    · rfl

/-- The report with its events up to a level. -/
def Report.upTo (verbosity : Nat) (r : Report) : Report :=
  { r with events := CommandLine.upTo verbosity r.events }

theorem execute_quieter (room : Nat) {o : Options} {v : Nat} (h : v ≤ o.verbosity)
    (input : String) :
    execute room { o with verbosity := v } input = (execute room o input).upTo v := by
  have hsession := Session.run_mirrors (record_mirrored h) room input .fresh []
  have hsources := runSources_mirrors (record_mirrored h) room o.sources .fresh []
  change Session.run (record v) room input .fresh [] = _ at hsession
  change runSources (record v) room o.sources .fresh [] = _ at hsources
  unfold execute
  dsimp only
  rw [hsession, hsources]
  split
  · rfl
  · split
    · simp [Report.upTo, upTo, Session.map, Outcome.map]
    · simp [Report.upTo, upTo, Outcome.map]

theorem run_quieter (room : Nat) {asks asks' : List Ask} (htexts : texts asks = texts asks')
    (h : verbosity asks ≤ verbosity asks') (input : String) :
    run room (commandLine asks) input =
      (run room (commandLine asks') input).upTo (verbosity asks) := by
  have hreading : reading asks = reading asks' := by
    rw [← reading_texts asks, htexts, reading_texts]
  unfold run
  rw [parse_commandLine, parse_commandLine, hreading]
  rcases reading asks' with e | e | sources
  · rfl
  · rfl
  · have hless : verbosity asks ≤ (Options.mk (verbosity asks') false sources).verbosity := h
    exact execute_quieter room hless input

theorem level_of_mem_run {room : Nat} {asks : List Ask} {input : String} {e : Event}
    (he : e ∈ (run room (commandLine asks) input).events) : e.level ≤ verbosity asks := by
  rw [run_quieter room rfl (Nat.le_refl _) input] at he
  simpa using (List.mem_filter.1 he).2

/-- Three command lines with the same texts, of verbosity 0, 1, and at least 2. They have the same
exit and complaint and leave the same input unread. The events of the first are those of the second
less those of level 1, and the events of the second those of the third less those of level 2. -/
theorem run_verbosity (room : Nat) {quiet told traced : List Ask} (hquiet : verbosity quiet = 0)
    (htold : verbosity told = 1) (htraced : 2 ≤ verbosity traced)
    (htexts : texts quiet = texts told ∧ texts told = texts traced) (input : String) :
    let quiet := run room (commandLine quiet) input
    let told := run room (commandLine told) input
    let traced := run room (commandLine traced) input
    (quiet.exit = told.exit ∧ told.exit = traced.exit) ∧
      (quiet.complaint = told.complaint ∧ told.complaint = traced.complaint) ∧
      (quiet.unread = told.unread ∧ told.unread = traced.unread) ∧
      quiet.events = told.events.filter (·.level ≠ 1) ∧
      told.events = traced.events.filter (·.level ≠ 2) := by
  have hfirst := run_quieter room htexts.1 (by omega) input
  have hsecond := run_quieter room htexts.2 (by omega) input
  have hcourse : (run room (commandLine quiet) input).events =
      (run room (commandLine told) input).events.filter (·.level ≠ 1) := by
    refine (congrArg Report.events hfirst).trans (List.filter_congr fun e he => ?_)
    have hle := level_of_mem_run he
    rw [decide_eq_decide]
    omega
  have hsteps : (run room (commandLine told) input).events =
      (run room (commandLine traced) input).events.filter (·.level ≠ 2) := by
    refine (congrArg Report.events hsecond).trans (List.filter_congr fun e _ => ?_)
    have hle : e.level ≤ 2 := by cases e <;> simp [Event.level]
    rw [decide_eq_decide]
    omega
  have alike {r r' : Report} {v : Nat} (h : r = r'.upTo v) :
      r.exit = r'.exit ∧ r.complaint = r'.complaint ∧ r.unread = r'.unread := h ▸ ⟨rfl, rfl, rfl⟩
  obtain ⟨hexit, hcomplaint, hunread⟩ := alike hfirst
  obtain ⟨hexit', hcomplaint', hunread'⟩ := alike hsecond
  exact ⟨⟨hexit, hexit'⟩, ⟨hcomplaint, hcomplaint'⟩, ⟨hunread, hunread'⟩, hcourse, hsteps⟩

/-- What is printed without any mark follows from what is told with one. -/
theorem run_verbosity_square :
    let run := run nestingLimit
    (run ["-v", "-e", ": sq dup * ;", "--eval=3 sq if 4"] "7").events =
        [.evaluating (.text ": sq dup * ;"), .defined "sq" ["dup", "*"],
          .evaluating (.text "3 sq if 4"), .printed "4"] ∧
      (run ["-e", ": sq dup * ;", "--eval=3 sq if 4"] "7").events = [.printed "4"] ∧
      (run ["-e", ": sq dup * ;", "-vv", "--eval=3 sq if 4"] "7").unread = "7" := by
  intro run
  have htold : (run ["-v", "-e", ": sq dup * ;", "--eval=3 sq if 4"] "7").events =
      [.evaluating (.text ": sq dup * ;"), .defined "sq" ["dup", "*"],
        .evaluating (.text "3 sq if 4"), .printed "4"] := by decide +kernel
  let asks : List Ask := [.text ": sq dup * ;", .joined "3 sq if 4"]
  obtain ⟨-, -, hunread, hevents, -⟩ := @run_verbosity nestingLimit asks (.more 0 :: asks)
    [.text ": sq dup * ;", .more 1, .joined "3 sq if 4"] (by decide) (by decide) (by decide)
    (by decide) "7"
  refine ⟨htold, (show (run _ "7").events = _ from hevents).trans ?_, hunread.2.symm.trans ?_⟩
  · exact congrArg (List.filter (·.level ≠ 1)) htold
  · decide +kernel

end CommandLine

end FlatForth
