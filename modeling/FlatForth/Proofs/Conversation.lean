import FlatForth.CommandLine
import FlatForth.Proofs.Goodbye
import FlatForth.Proofs.Verbosity
import FlatForth.Proofs.Wording

/-!
Sessions. Without a failure that has no answer, a session runs the lines up to the first that says
goodbye, each on the machine as the lines before have left it, and answers each by one line
(`session_law`). In it the stack is shown, if there is anything on it (`Shows`), and behind the
stack stands how the run ended (`Answers`).
-/

namespace FlatForth

/-- Gathers the lines that are printed, the first one first. -/
def printing (lines : List String) : Event → List String
  | .printed line => lines ++ [line]
  | _ => lines

theorem evaluate_printing (room : Nat) (source : Source) (m : Machine) (lines : List String) :
    (evaluate printing room source m lines).seen = lines := by
  have silent : Upheld printing fun _ lines _ lines' => lines' = lines :=
    { refl := fun _ _ => rfl
      trans := fun h h' => h'.trans h
      noted := fun _ _ e he => by
        cases e with
        | printed line => exact absurd rfl (he line)
        | _ => rfl
      restack := fun _ _ _ => rfl
      set := fun _ _ _ _ => rfl
      define := fun _ _ _ _ => rfl
      turn := fun _ h => h }
  exact runWords_upholds silent (room + 1) source.queue m lines

namespace Session

/-- An empty stack shows nothing, any other its `formatStack?`. -/
inductive Shows : List Cell → String → Prop
  | nothing : Shows [] ""
  | stack {stack shown} : stack ≠ [] → formatStack? stack = some shown → Shows stack shown

/-- A run without failure is answered by ` ok`, a fault by ` ? ` and its message. -/
inductive Answers : Option Failure → String → Prop
  | ok : Answers none " ok"
  | fault (f : Fault) : Answers (some (.fault f)) (" ? " ++ f.message)

theorem Shows.unique {stack : List Cell} {shown shown' : String} (h : Shows stack shown)
    (h' : Shows stack shown') : shown = shown' := by
  cases h with
  | nothing =>
    cases h' with
    | nothing => rfl
    | stack hfull _ => exact absurd rfl hfull
  | stack hfull hshown =>
    cases h' with
    | nothing => exact absurd rfl hfull
    | stack _ hshown' => exact Option.some.inj (hshown.symm.trans hshown')

theorem Answers.unique {failure : Option Failure} {answer answer' : String}
    (h : Answers failure answer) (h' : Answers failure answer') : answer = answer' := by
  cases h <;> cases h' <;> rfl

theorem answers_of_answer {e : Ending} {answer : String} (h : e.answer = .ok answer) :
    Answers e.failure answer := by
  obtain ⟨m, failure⟩ := e
  rcases failure with _ | ⟨f⟩ | _ | _ | _ <;> cases h
  · exact .ok
  · exact .fault f

theorem shows_of_response {e : Ending} {reply : String} (h : response e = .ok reply) :
    ∃ shown answer, Shows e.machine.stack shown ∧ Answers e.failure answer ∧
      reply = shown ++ answer := by
  unfold response at h
  split at h
  · cases h
  · rename_i answer hanswer
    have hanswer := answers_of_answer hanswer
    split at h
    · rename_i hempty
      cases h
      rw [List.isEmpty_iff.1 hempty]
      exact ⟨"", _, .nothing, hanswer, String.empty_append.symm⟩
    · rename_i hfull
      split at h
      · cases h
      · rename_i shown hshown
        cases h
        exact ⟨shown, answer, .stack (by simpa using hfull) hshown, hanswer, rfl⟩

theorem Shows.oneLine {m : Machine} (hm : m.Literate) {shown : String} (h : Shows m.stack shown) :
    Text.OneLine shown := by
  generalize hstack : m.stack = stack at h
  cases h with
  | nothing => decide
  | stack _ hshown => exact formatStack?_oneLine (fun c hc => hm.cell (hstack ▸ hc)) hshown

theorem Answers.oneLine {e : Ending} (he : e.Worded) {answer : String}
    (h : Answers e.failure answer) : Text.OneLine answer := by
  generalize hfailure : e.failure = failure at h
  cases h with
  | ok => decide
  | fault f => exact .append (by decide) (he f hfailure)

variable (room : Nat)

/-- The machine after `lines`, evaluated one after the other on `m`. -/
def follow (m : Machine) (lines : List String) : Machine :=
  lines.foldl (fun m line => (m.evaluate room (source line)).machine) m

/-- The responses to `lines`, evaluated one after the other on `m`. -/
def answers : Machine → List String → List (Except Failure String)
  | _, [] => []
  | m, line :: rest =>
    let e := m.evaluate room (source line)
    response e :: answers e.machine rest

theorem turn_printing (line : String) (m : Machine) (lines : List String) :
    turn printing room line m lines =
      if saysGoodbye line then ⟨⟨m.done, lines⟩, true⟩
      else
        let e := m.evaluate room (source line)
        match response e with
        | .error why => ⟨⟨e.machine.stop why, lines⟩, true⟩
        | .ok answer => ⟨⟨e.machine.done, lines ++ [answer]⟩, false⟩ := by
  unfold turn
  rw [← evaluate_toEnding printing room (source line) m lines]
  simp only [evaluate_printing]
  rfl

section

variable {room} {line : String} {m : Machine}

theorem converse_goodbye (h : saysGoodbye line = true) (rest shown : List String) :
    converse printing room (line :: rest) m shown = ⟨⟨m.done, shown⟩, String.join rest⟩ := by
  simp only [converse, turn_printing, h, if_true]

theorem converse_failed (h : saysGoodbye line = false) {why : Failure}
    (hr : response (m.evaluate room (source line)) = .error why) (rest shown : List String) :
    (converse printing room (line :: rest) m shown).failure = some why := by
  simp [converse, turn_printing, h, hr, Machine.stop]

theorem converse_answered (h : saysGoodbye line = false) {answer : String}
    (hr : response (m.evaluate room (source line)) = .ok answer) (rest shown : List String) :
    converse printing room (line :: rest) m shown =
      converse printing room rest (m.evaluate room (source line)).machine (shown ++ [answer]) := by
  simp [converse, turn_printing, h, hr, Machine.done]

end

/-- The lines before the first goodbye. -/
def heard (lines : List String) : List String := lines.takeWhile (!saysGoodbye ·)

theorem converse_of_no_failure {lines : List String} {m : Machine} {shown : List String}
    (h : (converse printing room lines m shown).failure = none) :
    ∃ replies, answers room m (heard lines) = replies.map .ok ∧
      converse printing room lines m shown =
        ⟨⟨(follow room m (heard lines)).done, shown ++ replies⟩,
          String.join (lines.drop ((heard lines).length + 1))⟩ := by
  induction lines generalizing m shown with
  | nil => exact ⟨[], rfl, by simp [converse, heard, follow, String.join]⟩
  | cons line rest ih =>
    cases hbye : saysGoodbye line with
    | true =>
      rw [converse_goodbye hbye]
      exact ⟨[], by simp [heard, hbye, answers], by simp [heard, hbye, follow]⟩
    | false =>
      cases hr : response (m.evaluate room (source line)) with
      | error why =>
        rw [converse_failed hbye hr] at h
        cases h
      | ok answer =>
        rw [converse_answered hbye hr] at h ⊢
        obtain ⟨replies, hreplies, hrest⟩ := ih h
        have hheard : heard (line :: rest) = line :: heard rest := by simp [heard, hbye]
        refine ⟨answer :: replies, ?_, ?_⟩
        · rw [hheard, answers, hr, hreplies]
          rfl
        · rw [hrest, hheard]
          simp [follow]

theorem getElem?_answers (m : Machine) (lines : List String) (i : Nat) :
    (answers room m lines)[i]? = lines[i]?.map fun line =>
      response ((follow room m (lines.take i)).evaluate room (source line)) := by
  induction lines generalizing m i with
  | nil => rfl
  | cons line rest ih =>
    cases i with
    | zero => rfl
    | succ i => exact ih _ i

theorem length_answers (m : Machine) (lines : List String) :
    (answers room m lines).length = lines.length := by
  induction lines generalizing m with
  | nil => rfl
  | cons line rest ih => exact congrArg (· + 1) (ih _)

theorem afterTexts_typed (lines : List String) :
    Machine.afterTexts room (lines.map typed) = follow room .fresh lines := by
  simp only [Machine.afterTexts, Machine.after, follow, List.map_map, List.foldl_map]
  rfl

theorem follow_literate {m : Machine} (hm : m.Literate) (lines : List String) :
    (follow room m lines).Literate := by
  induction lines generalizing m with
  | nil => exact hm
  | cons line rest ih => exact ih (evaluate_literate hm room (typed line)).1

/-- If all lines have a response, the reply to line `i` is what its evaluation `Shows` and then
`Answers`. -/
theorem exists_reply {lines replies : List String}
    (h : answers room .fresh lines = replies.map .ok) (i : Nat) (hi : i < (lines.map typed).length) :
    let e := (Machine.afterTexts room ((lines.map typed).take i)).evaluate room
      (.text (lines.map typed)[i])
    ∃ shown answer, replies[i]? = some (shown ++ answer) ∧ Shows e.machine.stack shown ∧
      Answers e.failure answer ∧ Text.OneLine (shown ++ answer) := by
  intro e
  have hline : i < lines.length := by simpa using hi
  have he : e = (follow room .fresh (lines.take i)).evaluate room (source lines[i]) := by
    simp only [e, ← List.map_take, afterTexts_typed, List.getElem_map]
    rfl
  have hanswer := getElem?_answers room .fresh lines i
  rw [h, List.getElem?_map, List.getElem?_eq_getElem hline, Option.map_some, ← he] at hanswer
  obtain ⟨reply, hreply, hresponse⟩ := Option.map_eq_some_iff.1 hanswer
  obtain ⟨shown, answer, hshown, hanswer, rfl⟩ := shows_of_response hresponse.symm
  have hliterate := evaluate_literate
    (follow_literate room Machine.fresh_literate (lines.take i)) room (typed lines[i])
  have heq : e = _ := he
  rw [heq] at hshown hanswer ⊢
  exact ⟨shown, answer, hreply, hshown, hanswer,
    (hshown.oneLine hliterate.1).append (hanswer.oneLine hliterate.2)⟩

theorem heard_typed (lines : List String) : (heard lines).map typed =
    (lines.map typed).takeWhile fun line => (Source.text line).queue ≠ [goodbye] := by
  have hbye : ((fun line => decide ((Source.text line).queue ≠ [goodbye])) ∘ typed) =
      fun line => !saysGoodbye line := by
    funext line
    have hiff : saysGoodbye line = true ↔ (Source.text (typed line)).queue = [goodbye] :=
      saysGoodbye_iff line
    simp only [Function.comp_apply, ne_eq, decide_not]
    exact congrArg not (Bool.eq_iff_iff.2 (by simpa using hiff.symm))
  rw [List.takeWhile_map, hbye, heard]

end Session

namespace CommandLine

/-- `printing` gathers the lines of the events that `record 0` keeps. -/
theorem printing_mirrored :
    Mirrored (fun events => events.reverse.filterMap Event.line?) (record 0) printing := by
  intro events e
  cases e with
  | printed line => simp [record, printing, Event.level, Event.line?]
  | probed loops => simp [record, printing, Event.level, Event.line?]
  | _ => rfl

theorem run_without_arguments (room : Nat) (input : String) :
    let session := Session.run printing room input .fresh []
    (run room [] input).exit = .ofSession session.failure ∧
      (run room [] input).output = String.join (session.seen.map (· ++ "\n")) ∧
      (run room [] input).unread = session.unread := by
  have h := Session.run_mirrors printing_mirrored room input .fresh []
  change Session.run printing room input .fresh [] = _ at h
  intro session
  have hs : session = _ := h
  rw [hs]
  exact ⟨rfl, rfl, rfl⟩

/-- Let a session end without a failure, and let `heard` be the lines before the first `bye`, as
they were typed. The machine is the one after these texts, and all input behind the `bye` is unread.
The output is the greeting and a line for each text: evaluated on the machine after the texts
before, it leaves a stack that is `shown`, and ends in what the `answer` says. -/
theorem session_law {room : Nat} {input : String}
    (h : (Session.run printing room input .fresh []).failure = none) :
    let session := Session.run printing room input .fresh []
    let lines := (Text.lines input).map Session.typed
    let heard := lines.takeWhile fun line => (Source.text line).queue ≠ ["bye"]
    session.machine = Machine.afterTexts room heard ∧
      String.join ((Text.lines input).take (heard.length + 1)) ++ session.unread = input ∧
      (run room [] input).unread = session.unread ∧ (run room [] input).exit = .normal ∧
      ∃ replies : List String, replies.length = heard.length ∧
        (run room [] input).output = String.join ((Session.greeting :: replies).map (· ++ "\n")) ∧
        ∀ (i : Nat) (hi : i < heard.length),
          let e := (Machine.afterTexts room (heard.take i)).evaluate room (.text heard[i])
          ∃ shown answer, replies[i]? = some (shown ++ answer) ∧
            Session.Shows e.machine.stack shown ∧ Session.Answers e.failure answer ∧
            '\n' ∉ (shown ++ answer).toList := by
  intro session lines heard
  have hheard : heard = (Session.heard (Text.lines input)).map Session.typed :=
    (Session.heard_typed _).symm
  clear_value heard
  subst hheard
  obtain ⟨hexit, houtput, hunread⟩ := run_without_arguments room input
  obtain ⟨replies, hanswers, hrun⟩ := Session.converse_of_no_failure room h
  have hsession : session = _ := hrun
  have hlength : replies.length = ((Session.heard (Text.lines input)).map Session.typed).length := by
    have hlengths := congrArg List.length hanswers
    rw [Session.length_answers, List.length_map] at hlengths
    rw [List.length_map, hlengths]
  refine ⟨?_, ?_, hunread, ?_, replies, hlength, ?_, Session.exists_reply room hanswers⟩
  · rw [hsession, Session.afterTexts_typed]
    rfl
  · rw [hsession, List.length_map]
    change _ ++ String.join _ = _
    rw [← String.join_append, List.take_append_drop, Text.join_lines]
  · rw [hexit, h]
    rfl
  · rw [houtput]
    exact congrArg (fun s : Session (List String) => String.join (s.seen.map (· ++ "\n"))) hrun

/-- A declaration, which leaves nothing to show, a line that fails half way and leaves what it has
pushed, and a goodbye between blanks, of which one is wide. -/
theorem session_law_goodbye :
    let input := "VARIABLE x\nx 5 oops\n bYe\u3000\n3 4\n"
    let report := run nestingLimit [] input
    (Session.run printing nestingLimit input .fresh []).failure = none ∧
      report.exit = .normal ∧ report.unread = "3 4\n" ∧
      ∃ replies : List String, replies.length = 2 ∧
        report.output = String.join ((Session.greeting :: replies).map (· ++ "\n")) ∧
        replies[0]? = some " ok" ∧ replies[1]? = some "x 5 ? undefined word: oops" := by
  intro input report
  have hnone : (Session.run printing nestingLimit input .fresh []).failure = none := by
    decide +kernel
  have hheard : (((Text.lines input).map Session.typed).takeWhile fun line =>
      (Source.text line).queue ≠ ["bye"]) = ["VARIABLE x", "x 5 oops"] := by decide +kernel
  obtain ⟨-, -, hunread, hexit, replies, hlength, houtput, hreplies⟩ := session_law hnone
  simp only [hheard] at hlength hreplies
  let declared := (Machine.afterTexts nestingLimit []).evaluate nestingLimit (.text "VARIABLE x")
  let failed := (Machine.afterTexts nestingLimit ["VARIABLE x"]).evaluate nestingLimit
    (.text "x 5 oops")
  have hdeclared : declared.machine.stack = [] ∧ declared.failure = none := by decide +kernel
  have hfailed : failed.machine.stack = [.int 5, .ref "x"] ∧
      failed.failure = some (.fault (.undefined "oops")) := by decide +kernel
  refine ⟨hnone, hexit, hunread.trans (by decide +kernel), replies, hlength, houtput, ?_, ?_⟩
  · obtain ⟨shown, answer, hreply, hshown, hanswer, -⟩ := hreplies 0 (by decide)
    change Session.Shows declared.machine.stack shown at hshown
    change Session.Answers declared.failure answer at hanswer
    rw [hdeclared.1] at hshown
    rw [hdeclared.2] at hanswer
    rw [hreply, hshown.unique .nothing, hanswer.unique .ok]
    rfl
  · obtain ⟨shown, answer, hreply, hshown, hanswer, -⟩ := hreplies 1 (by decide)
    change Session.Shows failed.machine.stack shown at hshown
    change Session.Answers failed.failure answer at hanswer
    rw [hfailed.1] at hshown
    rw [hfailed.2] at hanswer
    have hprinted : formatStack? [.int 5, .ref "x"] = some "x 5" := by decide +kernel
    rw [hreply, hshown.unique (.stack nofun hprinted), hanswer.unique (.fault _)]
    decide +kernel

end CommandLine

end FlatForth
