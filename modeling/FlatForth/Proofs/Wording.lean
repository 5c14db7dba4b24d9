import FlatForth.Proofs.PrintedStack
import FlatForth.Session

/-!
Answers of one line. On a machine that texts have made every word is legible, whether it is read,
kept in a definition, or the name of a variable. A fault mentions nothing but such words and the
cells of the stack, and a cell is written as an integer or as the name of a variable; so neither a
message nor a printed stack has a line feed in it (`evaluate_literate`, `formatStack?_oneLine`).
-/

namespace FlatForth

/-- A text without a line feed. -/
def Text.OneLine (s : String) : Prop := '\n' ∉ s.toList

instance (s : String) : Decidable (Text.OneLine s) := inferInstanceAs (Decidable ('\n' ∉ s.toList))

namespace Text

theorem OneLine.append {s t : String} (hs : OneLine s) (ht : OneLine t) : OneLine (s ++ t) := by
  unfold OneLine
  rw [String.toList_append, List.mem_append, not_or]
  exact ⟨hs, ht⟩

theorem oneLine_intercalate {sep : String} (hsep : OneLine sep) {ts : List String}
    (h : ∀ t ∈ ts, OneLine t) : OneLine (sep.intercalate ts) := by
  induction ts with
  | nil => exact List.not_mem_nil
  | cons t ts ih =>
    have ht : OneLine t := h t List.mem_cons_self
    cases ts with
    | nil => simpa using ht
    | cons u ts =>
      have hrest : OneLine (sep.intercalate (u :: ts)) :=
        ih fun v hv => h v (List.mem_cons_of_mem t hv)
      have hjoin : sep.intercalate (t :: u :: ts) = t ++ sep ++ sep.intercalate (u :: ts) := by
        simp
      rw [hjoin]
      exact (ht.append hsep).append hrest

end Text

theorem Word.Legible.oneLine {w : Word} (h : w.Legible) : Text.OneLine w := fun hmem =>
  absurd (h.not_blank '\n' hmem) (by decide)

theorem Cell.text?_eq_some {c : Cell} {t : String} (h : c.text? = some t) : t = c.word := by
  cases c with
  | int n =>
    change (if n.natAbs.repr.length ≤ Numeral.digitLimit then some n.repr else none) = some t at h
    split at h
    · exact (Option.some.inj h).symm
    · cases h
  | ref | text => exact (Option.some.inj h).symm

theorem Cell.shown_oneLine {c : Cell} (h : Text.OneLine c.word) :
    Text.OneLine (Fault.shown c) := by
  unfold Fault.shown
  cases ht : c.text? with
  | none => decide
  | some t =>
    rw [text?_eq_some ht]
    exact h

theorem mapM_text?_eq_some {cells : List Cell} {ts : List String}
    (h : cells.mapM Cell.text? = some ts) : ts = cells.map Cell.word := by
  induction cells generalizing ts with
  | nil => exact (Option.some.inj h).symm
  | cons c cells ih =>
    simp only [List.mapM_cons, Option.bind_eq_bind, Option.bind_eq_some_iff] at h
    obtain ⟨t, ht, rest, hrest, hts⟩ := h
    rw [List.map_cons, ← ih hrest, ← Cell.text?_eq_some ht]
    exact (Option.some.inj hts).symm

theorem formatStack?_oneLine {stack : List Cell} (h : ∀ c ∈ stack, Text.OneLine c.word)
    {shown : String} (hs : formatStack? stack = some shown) : Text.OneLine shown := by
  obtain ⟨ts, hts, rfl⟩ := Option.map_eq_some_iff.1 hs
  have hwords : ts = stack.reverse.map Cell.word := mapM_text?_eq_some hts
  refine Text.oneLine_intercalate (by decide) fun t ht => ?_
  rw [hwords] at ht
  obtain ⟨c, hc, rfl⟩ := List.mem_map.1 ht
  exact h c (List.mem_reverse.1 hc)

/-! What a fault mentions. -/

def Misdefinition.names : Misdefinition → List Word
  | nameless => []
  | number w => [w]
  | unclosed name => [name]

def Fault.mentions : Fault → List String
  | undefined w => [w]
  | misdefinition why => why.names
  | notVariable c | notNumber c => [shown c]
  | notStorable value name => [shown value, name]
  | underflow | namelessVariable | unclosedLoop | outsideLoop | outsideNestedLoop | zeroDivisor => []

theorem Fault.message_oneLine {f : Fault} (h : ∀ t ∈ f.mentions, Text.OneLine t) :
    Text.OneLine f.message := by
  cases f with
  | underflow | namelessVariable | unclosedLoop | outsideLoop | outsideNestedLoop | zeroDivisor =>
    decide
  | undefined w | notVariable c | notNumber c =>
    exact .append (by decide) (h _ List.mem_cons_self)
  | misdefinition why =>
    cases why with
    | nameless => decide
    | number w | unclosed name => exact .append (by decide) (h _ List.mem_cons_self)
  | notStorable value name =>
    have hvalue : Text.OneLine ("cannot store variable " ++ shown value) :=
      .append (by decide) (h _ List.mem_cons_self)
    exact (hvalue.append (by decide)).append (h _ (List.mem_cons_of_mem _ List.mem_cons_self))

theorem names_subset_of_readDefinition {ws : List Word} {why : Misdefinition}
    (h : (Item.readDefinition ws).1 = .misdefine why) : why.names ⊆ ws := by
  cases ws with
  | nil =>
    cases h
    exact List.nil_subset []
  | cons name ws =>
    have hname : [name] ⊆ name :: ws := List.cons_subset.2 ⟨List.mem_cons_self, List.nil_subset _⟩
    by_cases hn : isNumeral name
    · simp only [Item.readDefinition, hn, if_true] at h
      cases h
      exact hname
    · by_cases hc : (definitionMarkers.scan ws).closed
      · simp [Item.readDefinition, hn, hc] at h
      · simp only [Item.readDefinition, hn, hc, if_false, Bool.false_eq_true] at h
        cases h
        exact hname

/-- What a misdefinition names is among the words of the queue. -/
theorem names_subset_of_mem_items {ws : List Word} {why : Misdefinition}
    (h : .misdefine why ∈ items ws) : why.names ⊆ ws := by
  induction ws using items.induct with
  | case1 => simp [items] at h
  | case2 w ws r ih =>
    rw [items] at h
    rcases List.mem_cons.1 h with hread | h
    · have hw : w = Keyword.define := (Item.opening_read w ws).symm.trans (hread ▸ rfl)
      rw [Item.read, if_pos hw] at hread
      refine List.Subset.trans ?_ (List.subset_cons_self w ws)
      exact names_subset_of_readDefinition hread.symm
    · exact fun v hv => List.mem_cons_of_mem w ((Item.read_suffix w ws).subset (ih h hv))

/-- If the run ended in a fault, its message is one line. -/
def Ending.Worded (e : Ending) : Prop :=
  ∀ f, e.failure = some (.fault f) → Text.OneLine f.message

theorem fault_worded {m : Machine} {f : Fault} (h : Text.OneLine f.message) :
    (m.fault f).Worded := by
  intro g hg
  cases hg
  exact h

theorem done_worded {m : Machine} : m.done.Worded := nofun

/-! Machines that texts have made. -/

structure Machine.Literate (m : Machine) : Prop where
  wellFormed : m.WellFormed
  unextended : m.Unextended
  words : (vocabulary Word.Legible Word.Legible).Holds m

namespace Machine

theorem fresh_literate : fresh.Literate :=
  ⟨fresh_wellFormed, fresh_unextended, ⟨fresh_keeps _, nofun⟩⟩

namespace Literate

variable {m : Machine} (h : m.Literate)

include h

theorem cell {c : Cell} (hc : c ∈ m.stack) : Text.OneLine c.word := by
  rcases h.wellFormed.cells c hc with hint | ⟨name, rfl, hv, -⟩
  · cases c with
    | int n => exact (repr_legible n).oneLine
    | ref | text => cases hint
  · exact (h.words.2 name hv).oneLine

theorem shown {c : Cell} (hc : c ∈ m.stack) : Text.OneLine (Fault.shown c) :=
  Cell.shown_oneLine (h.cell hc)

theorem not_number {f : Fault} (hf : f = .underflow ∨ ∃ c ∈ m.stack, f = .notNumber c) :
    Text.OneLine f.message := by
  rcases hf with rfl | ⟨c, hc, rfl⟩
  · decide
  · exact Fault.message_oneLine (List.forall_mem_singleton.2 (h.shown hc))

theorem not_variable {c : Cell} (hc : c ∈ m.stack) : (m.stop (notVariable c)).Worded := by
  intro f hf
  have hf : notVariable c = .fault f := Option.some.inj hf
  unfold notVariable at hf
  split at hf
  · cases hf
    exact Fault.message_oneLine (List.forall_mem_singleton.2 (h.shown hc))
  · cases hf

theorem apply {w : Word} {g : StackFunction}
    (hw : m.dictionary.find? w = some (.primitive (.function g))) : (m.apply g).Worded := by
  rcases m.apply_cases g with ⟨e, he, h'⟩ | ⟨args, below, -, ⟨e, he, h'⟩ | ⟨cells, -, h'⟩⟩
  · exact h' ▸ fault_worded (h.not_number (arguments_eq_error he))
  · have hbuiltin : builtins.find? w = some (.primitive (.function g)) :=
      (h.unextended w _ hw).resolve_right nofun
    obtain ⟨rfl, -⟩ := zeroDivisor_of_builtin hbuiltin he
    exact h' ▸ fault_worded (by decide)
  · exact h' ▸ done_worded

theorem fetch : m.fetch.Worded := by
  rcases m.fetch_cases with h' | ⟨c, below, hs, -, h'⟩ | ⟨name, n, below, -, -, h'⟩
  · exact h' ▸ fault_worded (by decide)
  · exact h' ▸ h.not_variable (hs ▸ List.mem_cons_self)
  · exact h' ▸ done_worded

theorem store : m.store.Worded := by
  rcases m.store_cases with h' | ⟨c, below, hs, -, h'⟩ | ⟨name, value, below, hs, h'⟩ |
    ⟨name, n, below, -, -, h'⟩
  · exact h' ▸ fault_worded (by decide)
  · exact h' ▸ h.not_variable (hs ▸ List.mem_cons_self)
  · have hname : Cell.ref name ∈ m.stack := hs ▸ List.mem_cons_self
    have hvalue : value ∈ m.stack := hs ▸ List.mem_cons_of_mem _ List.mem_cons_self
    rw [h']
    refine fault_worded (Fault.message_oneLine (List.forall_mem_cons.2 ⟨h.shown hvalue, ?_⟩))
    exact List.forall_mem_singleton.2 (h.cell hname)
  · exact h' ▸ done_worded

theorem primitive {w : Word} {p : Primitive} (hw : m.dictionary.find? w = some (.primitive p)) :
    (p.run m).Worded := by
  cases p with
  | function g => exact h.apply hw
  | innerIndex =>
    change m.pushInnerIndex.Worded
    rcases m.pushInnerIndex_cases with h' | ⟨i, h'⟩
    · exact h' ▸ fault_worded (by decide)
    · exact h' ▸ done_worded
  | outerIndex =>
    change m.pushOuterIndex.Worded
    rcases m.pushOuterIndex_cases with h' | ⟨j, h'⟩
    · exact h' ▸ fault_worded (by decide)
    · exact h' ▸ done_worded
  | fetch => exact h.fetch
  | store => exact h.store

end Literate

end Machine

/-- Legible words keep a literate machine literate, and their faults have messages of one line. -/
def literate : Contract where
  Holds := Machine.Literate
  Queue ws := ∀ w ∈ ws, w.Legible
  Takes item := ∃ ws, (∀ w ∈ ws, w.Legible) ∧ item ∈ items ws
  Stops why := ∀ f, why = .fault f → Text.OneLine f.message

section

variable {item : Item} (h : literate.Takes item)

include h

theorem wellFormed_of_takes : wellFormed.Takes item := by
  obtain ⟨ws, hws, hitem⟩ := h
  exact wellFormed_closed.items (fun w hw => (hws w hw).folded) item hitem

theorem legible_of_takes : ∀ w ∈ item.words, w.Legible := by
  obtain ⟨ws, hws, hitem⟩ := h
  exact fun w hw => hws w (words_subset_of_mem_items hitem hw)

theorem oneLine_of_fails {m : Machine} (hm : m.Literate) {f : Fault}
    (hf : item.Fails m (.fault f)) : Text.OneLine f.message := by
  cases hf with
  | undefined w =>
    have hw : w.Legible := legible_of_takes h w List.mem_cons_self
    exact Fault.message_oneLine (List.forall_mem_singleton.2 hw.oneLine)
  | misdefine why =>
    obtain ⟨ws, hws, hitem⟩ := h
    exact Fault.message_oneLine fun w hw => (hws w (names_subset_of_mem_items hitem hw)).oneLine
  | nameless | unclosed => decide
  | operand hf => exact hm.not_number (operand_eq_error hf)
  | bounds hf => exact hm.not_number (bounds_eq_error hf)

end

theorem literate_closed : literate.Closed where
  restack hm hs := ⟨hm.wellFormed.restack hs, hm.unextended, hm.words⟩
  loops hm loops := ⟨wellFormed_closed.loops hm.wellFormed loops, hm.unextended, hm.words⟩
  refer hm htakes hv :=
    ⟨wellFormed_closed.refer hm.wellFormed (wellFormed_of_takes htakes) hv, hm.unextended, hm.words⟩
  primitive {m w p} hm hw := by
    refine ⟨⟨(hm.wellFormed.primitive hw).machine, ?_, (legible_closed.primitive hm.words hw).1⟩, ?_⟩
    · exact hm.unextended.congr (primitive_dictionary p m)
    · intro why hwhy f hf
      exact hm.primitive hw f (hf ▸ hwhy)
  define hm htakes :=
    ⟨wellFormed_closed.define hm.wellFormed (wellFormed_of_takes htakes), hm.unextended.define _ _,
      legible_closed.define hm.words (legible_of_takes htakes)⟩
  declare hm htakes :=
    ⟨wellFormed_closed.declare hm.wellFormed (wellFormed_of_takes htakes), hm.unextended,
      legible_closed.declare hm.words (legible_of_takes htakes)⟩
  call hm _ hw := hm.words.1 _ _ hw
  branch htakes := legible_closed.branch (legible_of_takes htakes)
  loop htakes := legible_closed.loop (legible_of_takes htakes)
  stops hm htakes hfails f hf := oneLine_of_fails htakes hm (hf ▸ hfails)
  items hws item hitem := ⟨_, hws, hitem⟩
  deep := nofun

/-- Evaluating a text on a literate machine leaves a literate machine and an ending that is
`Worded`. -/
theorem evaluate_literate {m : Machine} (hm : m.Literate) (room : Nat) (t : String) :
    (m.evaluate room (.text t)).machine.Literate ∧ (m.evaluate room (.text t)).Worded := by
  have hsafe : literate.Safe (runWords (fun (_ : Unit) _ => ()) (room + 1) (Source.text t).queue) :=
    Contract.runWords_safe literate_closed fun _ => legible_of_mem_queue
  obtain ⟨hmachine, hstops⟩ := hsafe m () hm
  exact ⟨hmachine, fun f hf => hstops _ hf f rfl⟩

end FlatForth
