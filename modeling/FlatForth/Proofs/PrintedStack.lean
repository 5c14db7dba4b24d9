import FlatForth.Proofs.Decimal
import FlatForth.Proofs.Rereading

/-!
The printed stack as a source. A cell that is written as a legible word, which the machine takes for
that very cell, is recalled by it (`Machine.Recalls`); a stack of such cells is printed as words
that push it once more (`evaluate_formatStack`). On a machine that texts have made every cell is
recalled, unless an integer is too long to be written or a numeral is the name of a variable.
-/

namespace FlatForth

/-- The text of a cell, of an integer of any length. -/
def Cell.word : Cell → Word
  | int n => n.repr
  | ref name => name
  | text t => t

theorem items_words {ws : List Word} (h : ∀ w ∈ ws, w ∉ Keyword.openers) :
    items ws = ws.map Item.word := by
  induction ws with
  | nil => rw [items]; rfl
  | cons w ws ih =>
    rw [items_of_read (Item.read_word (h w List.mem_cons_self) ws),
      ih fun v hv => h v (List.mem_cons_of_mem w hv), List.map_cons]

/-- The word of the cell is legible and can be written, and its call pushes the cell and does
nothing else. -/
structure Machine.Recalls (m : Machine) (c : Cell) : Prop where
  text : c.text? = some c.word
  legible : c.word.Legible
  not_opener : c.word ∉ Keyword.openers
  call : ∀ (inner : List Word → Action Unit) stack,
    call (fun _ _ => ()) inner c.word { m with stack := stack } () =
      ⟨{ m with stack := c :: stack }.done, ()⟩

theorem Machine.recalls_int {m : Machine} {n : Int}
    (hn : n.natAbs.repr.length ≤ Numeral.digitLimit)
    (hv : m.variables.contains n.repr = false) (hw : m.dictionary.find? n.repr = none) :
    m.Recalls (.int n) where
  text := if_pos hn
  legible := repr_legible n
  not_opener h := by
    have hkeyword : ∀ w ∈ Keyword.openers, w ∈ Keyword.all := by decide
    exact repr_not_keyword n (hkeyword _ h)
  call inner stack := by
    simp only [FlatForth.call, Cell.word, hv, hw, Bool.false_eq_true, if_false, pushNumeral_repr hn]
    rfl

theorem Machine.recalls_ref {m : Machine} {name : Word} (hl : name.Legible)
    (ho : name ∉ Keyword.openers) (hv : m.variables.contains name = true) :
    m.Recalls (.ref name) where
  text := rfl
  legible := hl
  not_opener := ho
  call _ _ := if_pos hv

section

variable {m : Machine} {cells : List Cell} (h : ∀ c ∈ cells, m.Recalls c)

include h

theorem mapM_text?_of_recalls : cells.mapM Cell.text? = some (cells.map Cell.word) := by
  induction cells with
  | nil => rfl
  | cons c cells ih =>
    rw [List.mapM_cons, (h c List.mem_cons_self).text,
      ih fun d hd => h d (List.mem_cons_of_mem c hd)]
    rfl

theorem runItems_of_recalls (inner : List Word → Action Unit) (stack : List Cell) :
    runItems (fun _ _ => ()) inner ((cells.map Cell.word).map Item.word)
      { m with stack := stack } () = ⟨{ m with stack := cells.reverse ++ stack }.done, ()⟩ := by
  induction cells generalizing stack with
  | nil => rfl
  | cons c cells ih =>
    have hstep : step (fun _ _ => ()) inner (.word c.word) { m with stack := stack } () =
        ⟨{ m with stack := c :: stack }.done, ()⟩ := (h c List.mem_cons_self).call inner stack
    rw [List.map_cons, List.map_cons, runItems_cons, Action.andThen_of_done hstep,
      ih fun d hd => h d (List.mem_cons_of_mem c hd)]
    simp

end

theorem evaluate_formatStack_of_recalls {m : Machine} (h : ∀ c ∈ m.stack, m.Recalls c) :
    ∃ shown, formatStack? m.stack = some shown ∧
      ∀ room, m.evaluate room (.text shown) = { m with stack := m.stack ++ m.stack }.done := by
  have hcells : ∀ c ∈ m.stack.reverse, m.Recalls c := fun c hc => h c (List.mem_reverse.1 hc)
  have hwords {P : Word → Prop} (hP : ∀ c, m.Recalls c → P c.word) :
      ∀ w ∈ m.stack.reverse.map Cell.word, P w := by
    intro w hw
    obtain ⟨c, hc, rfl⟩ := List.mem_map.1 hw
    exact hP c (hcells c hc)
  refine ⟨" ".intercalate (m.stack.reverse.map Cell.word), ?_, ?_⟩
  · rw [formatStack?, mapM_text?_of_recalls hcells]
    rfl
  · intro room
    have hqueue := queue_text_legible (hwords fun _ hc => hc.legible)
    have hitems := items_words (hwords fun _ hc => hc.not_opener)
    have hrun := runItems_of_recalls hcells (runWords (fun _ _ => ()) room) m.stack
    rw [Machine.evaluate, hqueue]
    change (runItems _ (runWords _ room) (items _) m ()).toEnding = _
    rw [hitems]
    refine (congrArg Outcome.toEnding hrun).trans ?_
    rw [List.reverse_reverse]

/-- The machine after the texts, evaluated one after the other on a fresh one. -/
def Machine.afterTexts (room : Nat) (texts : List String) : Machine :=
  .after (texts.map fun t => .evaluate room (.text t))

theorem legible_closed : (vocabulary Word.Legible Word.Legible).Closed :=
  vocabulary_closed fun _ => id

theorem afterTexts_legible (room : Nat) (texts : List String) :
    (Machine.afterTexts room texts).Keeps Word.Legible ∧
      ∀ w, (Machine.afterTexts room texts).variables.contains w = true → w.Legible := by
  induction texts using List.reverseRecOn with
  | nil => exact ⟨Machine.fresh_keeps _, nofun⟩
  | append_singleton texts t ih =>
    have hsafe : (vocabulary Word.Legible Word.Legible).Safe
        (runWords (fun (_ : Unit) _ => ()) (room + 1) (Source.text t).queue) :=
      Contract.runWords_safe legible_closed fun _ => legible_of_mem_queue
    rw [Machine.afterTexts, List.map_append, List.map_singleton, Machine.after_concat]
    exact (hsafe (Machine.afterTexts room texts) () ih).1

/-- Let `m` be the machine after some texts, with no variable named like a numeral and no integer
that is too long to be written. Then `formatStack?` has a text for its stack, and evaluating this
text puts the same stack on top of the stack and changes nothing else. -/
theorem evaluate_formatStack {m : Machine} {room : Nat} {texts : List String}
    (hm : Machine.afterTexts room texts = m)
    (hnames : ∀ w, m.variables.contains w = true → isNumeral w = false)
    (hcells : ∀ n, .int n ∈ m.stack → n.natAbs.repr.length ≤ Numeral.digitLimit) :
    ∃ shown, formatStack? m.stack = some shown ∧
      ∀ room', m.evaluate room' (.text shown) = { m with stack := m.stack ++ m.stack }.done := by
  subst hm
  have hformed : (Machine.afterTexts room texts).WellFormed := wellFormed_after _
  refine evaluate_formatStack_of_recalls fun c hc => ?_
  rcases hformed.cells c hc with hint | ⟨name, rfl, hv, ho⟩
  · cases c with
    | int n =>
      refine Machine.recalls_int (hcells n hc) ?_ ?_
      · refine Bool.eq_false_iff.2 fun hv => ?_
        exact absurd (isNumeral_repr n) (by simp [hnames _ hv])
      · refine Option.not_isSome_iff_eq_none.1 fun hw => ?_
        exact absurd (isNumeral_repr n) (by simp [(hformed.names _ hw).1])
    | ref name => cases hint
    | text t => cases hint
  · exact Machine.recalls_ref ((afterTexts_legible room texts).2 name hv) ho hv

/-- A variable named like the end of a loop, a negative integer, and a failure on the way. -/
theorem evaluate_formatStack_loop :
    let m := Machine.afterTexts nestingLimit ["VARIABLE Loop", "loop -٤٢ oops 7"]
    formatStack? m.stack = some "loop -42" ∧
    (m.evaluate nestingLimit (.text "loop -42")).machine.stack =
      [.int (-42), .ref "loop", .int (-42), .ref "loop"] := by
  intro m
  obtain ⟨hstack, hvariables⟩ : m.stack = [.int (-42), .ref "loop"] ∧
      m.variables.entries = [("loop", 0)] := by decide +kernel
  have hshown : formatStack? m.stack = some "loop -42" := by
    rw [hstack]
    decide +kernel
  have hnames (w : Word) (hw : m.variables.contains w = true) : isNumeral w = false := by
    obtain ⟨n, hn⟩ := Table.find?_of_contains hw
    obtain ⟨rfl, -⟩ : w = "loop" ∧ n = 0 := by simpa [hvariables] using Table.mem_of_find? hn
    decide +kernel
  have hcells (n : Int) (hn : .int n ∈ m.stack) : n.natAbs.repr.length ≤ Numeral.digitLimit := by
    obtain rfl : n = -42 := by simpa [hstack] using hn
    decide +kernel
  obtain ⟨shown, hs, hrun⟩ := evaluate_formatStack (m := m) rfl hnames hcells
  obtain rfl : "loop -42" = shown := Option.some.inj (hshown.symm.trans hs)
  refine ⟨hshown, ?_⟩
  rw [hrun]
  exact congrArg (fun stack => stack ++ stack) hstack

end FlatForth
