import FlatForth.Proofs.Rereading
import FlatForth.Proofs.SelfContained

/-!
Declarations in any order. A definition keeps its body as words and runs none of them, and a
declaration only sets a variable. So a source that consists of such items does nothing but enter
them into the tables (`evaluate_of_declares`); and as long as no word is defined twice, the tables
are the same in whatever order the items come (`evaluate_reordered`).
-/

namespace FlatForth

/-- A definition or the declaration of a variable, in the words of a source. The body may have any
word but the semicolon. -/
inductive Declaration where
  | define (name : Word) (body : List Word) (not_numeral : isNumeral name = false)
      (whole : Keyword.endDefine ∉ body)
  | declare (name : Word)

namespace Declaration

def words : Declaration → List Word
  | define name body _ _ => Keyword.define :: name :: (body ++ [Keyword.endDefine])
  | declare name => [Keyword.declare, name]

def item : Declaration → Item
  | define name body _ _ => .define (Text.fold name) (body.map Text.fold)
  | declare name => .declare (some (Text.fold name))

/-- The name that a definition enters in the dictionary. -/
def defined? : Declaration → Option Word
  | define name _ _ _ => some (Text.fold name)
  | declare _ => none

end Declaration

namespace Machine

def declare (m : Machine) : Declaration → Machine
  | .define name body _ _ => m.define (Text.fold name) (.words (body.map Text.fold))
  | .declare name => m.set (Text.fold name) 0

/-- The declaration is in force: the body stands in the dictionary, or the variable is zero. -/
def Has (m : Machine) : Declaration → Prop
  | .define name body _ _ =>
    m.dictionary.find? (Text.fold name) = some (.words (body.map Text.fold))
  | .declare name => m.variables.find? (Text.fold name) = some 0

theorem declare_has (m : Machine) (d : Declaration) : (m.declare d).Has d := by
  cases d with
  | define name body _ _ => exact (Table.find?_insert _ _ _ _).trans (if_pos rfl)
  | declare name => exact (Table.find?_insert _ _ _ _).trans (if_pos rfl)

/-- Two declarations commute unless they define the same name. -/
theorem declare_comm (m : Machine) {d d' : Declaration}
    (h : ∀ name, d.defined? = some name → d'.defined? ≠ some name) :
    (m.declare d).declare d' = (m.declare d').declare d := by
  cases d with
  | define name body _ _ =>
    cases d' with
    | define name' body' _ _ =>
      have hne : Text.fold name ≠ Text.fold name' := fun heq =>
        h _ rfl (congrArg some heq.symm)
      simp only [declare, define, m.dictionary.insert_comm fun heq => absurd heq hne]
    | declare name' => rfl
  | declare name =>
    cases d' with
    | define name' body' _ _ => rfl
    | declare name' => simp only [declare, set, m.variables.insert_comm fun _ => rfl]

end Machine

/-- The queue of the source is that of the declarations, in this order. -/
def Source.Declares (source : Source) (ds : List Declaration) : Prop :=
  source.queue = (ds.flatMap Declaration.words).map Text.fold

/-- The words of a declaration are cut as its item, whatever stands behind them. -/
theorem items_declaration (d : Declaration) (rest : List Word) :
    items (d.words.map Text.fold ++ rest) = d.item :: items rest := by
  cases d with
  | define name body hn hb =>
    have hname : isNumeral (Text.fold name) = false := (isNumeral_fold name).trans hn
    have hbody : Keyword.endDefine ∉ body.map Text.fold := by
      intro hmem
      obtain ⟨w, hw, hfold⟩ := List.mem_map.1 hmem
      exact hb (fold_eq_endDefine_iff.1 hfold ▸ hw)
    have hread := items_of_read (Item.read_definition hname (scan_definition hbody rest))
    have hdefine : Text.fold Keyword.define = Keyword.define := Keyword.folded _ (by decide)
    have hend : Text.fold Keyword.endDefine = Keyword.endDefine := Keyword.folded _ (by decide)
    simpa [Declaration.words, Declaration.item, hdefine, hend] using hread
  | declare name =>
    have hdeclare : Text.fold Keyword.declare = Keyword.declare := Keyword.folded _ (by decide)
    simp only [Declaration.words, List.map_cons, List.map_nil, hdeclare]
    exact items_of_read rfl

theorem items_declarations (ds : List Declaration) :
    items ((ds.flatMap Declaration.words).map Text.fold) = ds.map Declaration.item := by
  induction ds with
  | nil => simp [items]
  | cons d ds ih => rw [List.flatMap_cons, List.map_append, items_declaration, ih, List.map_cons]

section

variable {σ : Type} (note : σ → Event → σ) (inner : List Word → Action σ)

theorem step_declaration (d : Declaration) (m : Machine) (s : σ) :
    ∃ s', step note inner d.item m s = ⟨(m.declare d).done, s'⟩ := by
  cases d with
  | define name body _ _ => exact ⟨_, rfl⟩
  | declare name => exact ⟨_, rfl⟩

theorem runItems_declarations (ds : List Declaration) (m : Machine) (s : σ) :
    (runItems note inner (ds.map Declaration.item) m s).toEnding =
      (ds.foldl Machine.declare m).done := by
  induction ds generalizing m s with
  | nil => rfl
  | cons d ds ih =>
    obtain ⟨s', hstep⟩ := step_declaration note inner d m s
    rw [List.map_cons, runItems_cons, Action.andThen_of_done hstep, List.foldl_cons, ih]

end

theorem evaluate_of_declares {source : Source} {ds : List Declaration} (h : source.Declares ds)
    (m : Machine) (room : Nat) : m.evaluate room source = (ds.foldl Machine.declare m).done := by
  change (runItems _ _ (items source.queue) m ()).toEnding = _
  rw [h, items_declarations]
  exact runItems_declarations _ _ ds m ()

theorem foldl_declare_stack (ds : List Declaration) (m : Machine) :
    (ds.foldl Machine.declare m).stack = m.stack ∧ (ds.foldl Machine.declare m).loops = m.loops := by
  induction ds generalizing m with
  | nil => exact ⟨rfl, rfl⟩
  | cons d ds ih =>
    obtain ⟨hstack, hloops⟩ := ih (m.declare d)
    cases d <;> exact ⟨hstack, hloops⟩

/-- No name is defined twice. -/
abbrev Declaration.Distinct (ds : List Declaration) : Prop := (ds.filterMap Declaration.defined?).Nodup

theorem foldl_declare_perm {ds ds' : List Declaration} (hp : ds.Perm ds') (h : Declaration.Distinct ds)
    (m : Machine) : ds.foldl Machine.declare m = ds'.foldl Machine.declare m := by
  induction hp generalizing m with
  | nil => rfl
  | @cons d ds ds' _ ih =>
    have htail : Declaration.Distinct ds := h.sublist ((List.sublist_cons_self d ds).filterMap _)
    rw [List.foldl_cons, List.foldl_cons, ih htail]
  | swap d d' ds =>
    have hpair := (List.pairwise_cons.1 (List.pairwise_filterMap.1 h)).1 d List.mem_cons_self
    rw [List.foldl_cons, List.foldl_cons, List.foldl_cons, List.foldl_cons,
      m.declare_comm fun name hd' hd => hpair name hd' name hd rfl]
  | trans hp _ ih ih' =>
    have hmid := (hp.filterMap Declaration.defined?).nodup_iff.1 h
    rw [ih h, ih' hmid]

theorem foldl_declare_has {ds : List Declaration} (h : Declaration.Distinct ds) {d : Declaration}
    (hd : d ∈ ds) (m : Machine) : (ds.foldl Machine.declare m).Has d := by
  -- Any of them may be taken for the last one.
  obtain ⟨before, after, rfl⟩ := List.append_of_mem hd
  have hlast : (before ++ d :: after).Perm (before ++ after ++ [d]) := by
    rw [List.append_assoc]
    exact (List.perm_append_singleton d after).symm.append_left before
  rw [foldl_declare_perm hlast h, List.foldl_append]
  exact Machine.declare_has _ d

/-- Let `source` and `source'` declare the same in another order, no word being defined twice. Both
succeed and leave the same machine, which has each of the declarations, and the stack and the loops
as they were; so whatever is evaluated later ends in the same way. -/
theorem evaluate_reordered {ds ds' : List Declaration} (hp : ds.Perm ds') (h : Declaration.Distinct ds)
    {source source' : Source} (hs : source.Declares ds) (hs' : source'.Declares ds')
    (m : Machine) (room : Nat) :
    m.evaluate room source' = m.evaluate room source ∧
    (m.evaluate room source).failure = none ∧
    (∀ d ∈ ds, (m.evaluate room source).machine.Has d) ∧
    (m.evaluate room source).machine.stack = m.stack ∧
    (m.evaluate room source).machine.loops = m.loops ∧
    ∀ room' later, (m.evaluate room source').machine.evaluate room' later =
      (m.evaluate room source).machine.evaluate room' later := by
  have hsame : m.evaluate room source' = m.evaluate room source := by
    rw [evaluate_of_declares hs, evaluate_of_declares hs', foldl_declare_perm hp h]
  obtain ⟨hstack, hloops⟩ := foldl_declare_stack ds m
  rw [hsame, evaluate_of_declares hs]
  exact ⟨rfl, rfl, fun d hd => foldl_declare_has h hd m, hstack, hloops, fun _ _ => rfl⟩

/-- A word before the one it is made of, a variable of the same name, and keywords in a body; then
the last item first. -/
theorem evaluate_reordered_half :
    let source := Source.text ": Quarter half half ; VARIABLE half : Half : if variable ;"
    let source' := Source.text ": half : IF variable ; : quarter half half ; variable HALF"
    ∃ ds ds' : List Declaration, source.Declares ds ∧ source'.Declares ds' ∧
      Machine.fresh.evaluate nestingLimit source' = Machine.fresh.evaluate nestingLimit source ∧
      (Machine.fresh.evaluate nestingLimit source).machine.dictionary.find? "half" =
        some (.words [":", "if", "variable"]) := by
  intro source source'
  let quarter : Declaration := .define "Quarter" ["half", "half"] (by decide) (by decide)
  let zero : Declaration := .declare "half"
  let half : Declaration := .define "Half" [":", "if", "variable"] (by decide) (by decide)
  have hp : ([quarter, zero] ++ [half]).Perm ([half] ++ [quarter, zero]) := List.perm_append_comm
  have hs : source.Declares [quarter, zero, half] := by
    have hfields : Text.fields ": Quarter half half ; VARIABLE half : Half : if variable ;" =
        [":", "Quarter", "half", "half", ";", "VARIABLE", "half", ":", "Half", ":", "if", "variable",
          ";"] := by decide +kernel
    have hdeclare : Text.fold "VARIABLE" = Text.fold "variable" := by decide +kernel
    simp only [source, Source.Declares, Source.queue, Text.fields_fold, hfields, List.map_cons,
      hdeclare]
    rfl
  have hs' : source'.Declares [half, quarter, zero] := by
    have hfields : Text.fields ": half : IF variable ; : quarter half half ; variable HALF" =
        [":", "half", ":", "IF", "variable", ";", ":", "quarter", "half", "half", ";", "variable",
          "HALF"] := by decide +kernel
    have hhalf : Text.fold "Half" = Text.fold "half" := by decide +kernel
    have hupper : Text.fold "HALF" = Text.fold "half" := by decide +kernel
    have hquarter : Text.fold "Quarter" = Text.fold "quarter" := by decide +kernel
    have hbranch : Text.fold "IF" = Text.fold "if" := by decide +kernel
    simp only [source', Source.Declares, Source.queue, Text.fields_fold, hfields, List.map_cons,
      hupper, hbranch, half, quarter, zero, Declaration.words, List.flatMap_cons, List.map_append,
      hhalf, hquarter]
    rfl
  have hdistinct : Declaration.Distinct [quarter, zero, half] := by decide +kernel
  obtain ⟨hsame, -, hhas, -⟩ := evaluate_reordered hp hdistinct hs hs' .fresh nestingLimit
  have hname : Text.fold "Half" = "half" := by decide +kernel
  have hbody : [":", "if", "variable"].map Text.fold = [":", "if", "variable"] := by decide +kernel
  have hhalf := hhas half (by simp)
  rw [Machine.Has, hname, hbody] at hhalf
  exact ⟨_, _, hs, hs', hsame, hhalf⟩

end FlatForth
