import FlatForth.Proofs.Scan
import FlatForth.Proofs.Sequence

/-!
Words that hold together. In a self-contained queue every construct that is begun is also ended, so
it is cut into the same items whatever words come behind it, and running the whole is running it
first and the words behind it afterwards (`runItems_items_append`). A failure in it ends the whole.
-/

namespace FlatForth

variable {σ : Type}

/-- Every construct in the queue, from front to back, is closed within it. -/
inductive SelfContained : List Word → Prop
  | nil : SelfContained []
  | definition {name body rest} : Keyword.endDefine ∉ body → SelfContained rest →
      SelfContained (Keyword.define :: name :: (body ++ Keyword.endDefine :: rest))
  | declaration {name rest} : SelfContained rest → SelfContained (Keyword.declare :: name :: rest)
  | branch {ws} : (branchMarkers.scan ws).closed = true →
      SelfContained (branchMarkers.scan ws).rest → SelfContained (Keyword.branch :: ws)
  | loop {ws} : (loopMarkers.scan ws).closed = true →
      SelfContained (loopMarkers.scan ws).rest → SelfContained (Keyword.loop :: ws)
  | word {w rest} : w ∉ [Keyword.define, Keyword.declare, Keyword.branch, Keyword.loop] →
      SelfContained rest → SelfContained (w :: rest)

theorem scan_definition {body : List Word} (h : Keyword.endDefine ∉ body) (rest : List Word) :
    definitionMarkers.scan (body ++ Keyword.endDefine :: rest) = ⟨body, none, true, rest⟩ := by
  have plain (w : Word) (hw : w ∈ body) : definitionMarkers.Plain w := by
    refine ⟨?_, nofun, nofun⟩
    rintro rfl
    exact h hw
  exact Markers.scan_balanced (Markers.balanced_of_plain plain) rest

namespace Item

theorem read_definition {name : Word} {body rest : List Word} (hn : isNumeral name = false)
    (hs : definitionMarkers.scan (body ++ Keyword.endDefine :: rest) = ⟨body, none, true, rest⟩) :
    read Keyword.define (name :: (body ++ Keyword.endDefine :: rest)) =
      (define name body, rest) := by
  simp [read, readDefinition, hn, hs]

theorem read_numeral_definition {name : Word} (hn : isNumeral name = true) (rest : List Word) :
    read Keyword.define (name :: rest) = (misdefine (.number name), rest) := by
  simp [read, readDefinition, hn]

theorem read_branch {ws : List Word} (hc : (branchMarkers.scan ws).closed = true)
    (after : List Word) :
    read Keyword.branch (ws ++ after) =
      ((read Keyword.branch ws).1, (branchMarkers.scan ws).rest ++ after) := by
  change readBranch (ws ++ after) = ((readBranch ws).1, _)
  simp only [readBranch, branchMarkers.scan_append hc]

theorem read_loop {ws : List Word} (hc : (loopMarkers.scan ws).closed = true)
    (after : List Word) :
    read Keyword.loop (ws ++ after) =
      ((read Keyword.loop ws).1, (loopMarkers.scan ws).rest ++ after) := by
  change readLoop (ws ++ after) = ((readLoop ws).1, _)
  simp only [readLoop, loopMarkers.scan_append hc]

theorem read_word {w : Word}
    (h : w ∉ [Keyword.define, Keyword.declare, Keyword.branch, Keyword.loop]) (ws : List Word) :
    read w ws = (word w, ws) := by
  simp only [List.mem_cons, List.not_mem_nil, or_false, not_or] at h
  simp [read, h]

end Item

theorem items_of_read {w : Word} {ws rest : List Word} {item : Item}
    (h : Item.read w ws = (item, rest)) : items (w :: ws) = item :: items rest := by
  rw [items, h]

section

variable (note : σ → Event → σ) (inner : List Word → Action σ)

/-- The definition of a numeral fails, so the words behind it are not run. -/
theorem runItems_numeral_definition {name : Word} (hn : isNumeral name = true) (ws : List Word) :
    runItems note inner (items (Keyword.define :: name :: ws)) =
      step note inner (.misdefine (.number name)) := by
  rw [items_of_read (Item.read_numeral_definition hn ws)]
  rfl

theorem runItems_append_of_read {w : Word} {ws rest after : List Word} {item : Item}
    (h : Item.read w ws = (item, rest)) (h' : Item.read w (ws ++ after) = (item, rest ++ after))
    (hr : runItems note inner (items (rest ++ after)) =
      (runItems note inner (items rest)).andThen (runItems note inner (items after))) :
    runItems note inner (items (w :: (ws ++ after))) =
      (runItems note inner (items (w :: ws))).andThen (runItems note inner (items after)) := by
  rw [items_of_read h, items_of_read h', runItems_cons, runItems_cons, hr, Action.andThen_assoc]

theorem runItems_items_append {ws : List Word} (h : SelfContained ws) (after : List Word) :
    runItems note inner (items (ws ++ after)) =
      (runItems note inner (items ws)).andThen (runItems note inner (items after)) := by
  induction h with
  | nil => simp [items, runItems_nil]
  | @definition name body rest hb _ ih =>
    cases hn : isNumeral name with
    | true =>
      rw [List.cons_append, List.cons_append, runItems_numeral_definition note inner hn,
        runItems_numeral_definition note inner hn]
      rfl
    | false =>
      have hr := Item.read_definition hn (scan_definition hb rest)
      have hr' := Item.read_definition hn (scan_definition hb (rest ++ after))
      refine runItems_append_of_read note inner hr ?_ ih
      rw [← hr', List.cons_append, List.append_assoc, List.cons_append]
  | declaration _ ih => exact runItems_append_of_read note inner rfl rfl ih
  | branch hc _ ih =>
    exact runItems_append_of_read note inner rfl (Item.read_branch hc after) ih
  | loop hc _ ih => exact runItems_append_of_read note inner rfl (Item.read_loop hc after) ih
  | word hw _ ih =>
    exact runItems_append_of_read note inner (Item.read_word hw _) (Item.read_word hw _) ih

theorem evaluate_append_of_queue (room : Nat) {a b c : Source} (h : SelfContained a.queue)
    (hc : c.queue = a.queue ++ b.queue) :
    evaluate note room c = (evaluate note room a).andThen (evaluate note room b) := by
  unfold evaluate
  rw [hc]
  exact runItems_items_append note _ h b.queue

end

theorem fields_append (s t : String) :
    Text.fields (s ++ " " ++ t) = Text.fields s ++ Text.fields t := by
  have hb : Text.isBlank ' ' = true := by decide
  simp [Text.fields, List.splitOnP_append_cons _ _ hb]

theorem queue_text_append (t u : String) :
    (Source.text (t ++ " " ++ u)).queue = (Source.text t).queue ++ (Source.text u).queue := by
  have hs : Text.fold " " = " " := by decide +kernel
  simp only [Source.queue, Text.fold_append, hs, fields_append]

/-- If the first part is `SelfContained`, evaluating the whole is evaluating the first part and
then, unless that fails, the second on the machine it leaves: for lists of words and for texts. -/
theorem evaluate_append (note : σ → Event → σ) (room : Nat) :
    (∀ ws after : List Word, SelfContained (Source.words ws).queue →
      evaluate note room (.words (ws ++ after)) =
        (evaluate note room (.words ws)).andThen (evaluate note room (.words after))) ∧
    ∀ t u : String, SelfContained (Source.text t).queue →
      evaluate note room (.text (t ++ " " ++ u)) =
        (evaluate note room (.text t)).andThen (evaluate note room (.text u)) :=
  ⟨fun _ _ h => evaluate_append_of_queue note room h List.map_append,
    fun t u h => evaluate_append_of_queue note room h (queue_text_append t u)⟩

/-- A definition and its use, given at once, as a list and as a text: the square of three. -/
theorem evaluate_append_square :
    let run := evaluate (fun (_ : Unit) _ => ()) nestingLimit
    run (.words ([":", "sq", "dup", "*", ";"] ++ ["3", "SQ"])) =
        (run (.words [":", "sq", "dup", "*", ";"])).andThen (run (.words ["3", "SQ"])) ∧
      run (.text (": sq dup * ;" ++ " " ++ "3 SQ")) =
        (run (.text ": sq dup * ;")).andThen (run (.text "3 SQ")) ∧
      (run (.words [":", "sq", "dup", "*", ";", "3", "SQ"]) .fresh ()).machine.stack = [.int 9] ∧
      (run (.text ": sq dup * ; 3 SQ") .fresh ()).machine.stack = [.int 9] := by
  intro run
  have hbody : Keyword.endDefine ∉ ["dup", "*"] := by decide
  have whole : SelfContained [":", "sq", "dup", "*", ";"] := .definition hbody .nil
  have hws : (Source.words [":", "sq", "dup", "*", ";"]).queue = [":", "sq", "dup", "*", ";"] := by
    decide +kernel
  have ht : (Source.text ": sq dup * ;").queue = [":", "sq", "dup", "*", ";"] := by decide +kernel
  obtain ⟨lists, texts⟩ := evaluate_append (fun (_ : Unit) _ => ()) nestingLimit
  have list := lists _ ["3", "SQ"] (hws ▸ whole)
  have text := texts _ "3 SQ" (ht ▸ whole)
  let left (a : Action Unit) : List Cell := (a .fresh ()).machine.stack
  refine ⟨list, text, ?_, ?_⟩
  · exact (congrArg left list).trans (by decide +kernel)
  · exact (congrArg left text).trans (by decide +kernel)

end FlatForth
