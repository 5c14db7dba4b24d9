import FlatForth.Proofs.ByItself
import FlatForth.Proofs.Contract
import FlatForth.Proofs.Reading

/-!
Words of one kind. Nothing makes up a word, as all that an item holds are words of the queue it is
read from. So where the words that are read and the words of the stored definitions are of one kind,
be it folded or legible, so is every word that a run comes across, every name it declares and every
word it keeps (`vocabulary_closed`).
-/

namespace FlatForth

/-- `P` holds of every word in the definitions of `m`. -/
def Machine.Keeps (P : Word → Prop) (m : Machine) : Prop :=
  ∀ w body, m.dictionary.find? w = some (.words body) → ∀ v ∈ body, P v

theorem Machine.Keeps.define {P : Word → Prop} {m : Machine} (h : m.Keeps P) {name : Word}
    {body : List Word} (hbody : ∀ v ∈ body, P v) : (m.define name (.words body)).Keeps P := by
  intro w ws hw
  rcases Table.of_find?_insert hw with he | hw
  · cases he
    exact hbody
  · exact h w ws hw

theorem Machine.fresh_keeps (P : Word → Prop) : Machine.fresh.Keeps P :=
  fun w body hw => absurd hw (find?_builtins_ne_words w body)

/-- Every entry of the dictionary is a definition or one of a fresh machine. -/
def Machine.Unextended (m : Machine) : Prop :=
  ∀ w e, m.dictionary.find? w = some e → builtins.find? w = some e ∨ ∃ body, e = .words body

namespace Machine

variable {m : Machine}

theorem fresh_unextended : fresh.Unextended := fun _ _ he => .inl he

theorem Unextended.congr (hm : m.Unextended) {m' : Machine} (h : m'.dictionary = m.dictionary) :
    m'.Unextended := fun w e he => hm w e (h ▸ he)

theorem Unextended.define (hm : m.Unextended) (name : Word) (body : List Word) :
    (m.define name (.words body)).Unextended := by
  intro w e he
  rcases Table.of_find?_insert he with rfl | he
  · exact .inr ⟨body, rfl⟩
  · exact hm w e he

end Machine

/-- If `P` holds of the words of a queue, it holds of those in definitions, and `V` of the
variables. -/
def vocabulary (P V : Word → Prop) : Contract where
  Holds m := m.Keeps P ∧ ∀ w, m.variables.contains w = true → V w
  Queue ws := ∀ w ∈ ws, P w
  Takes item := ∀ w ∈ item.words, P w
  Stops _ := True

theorem vocabulary_closed {P V : Word → Prop} (h : ∀ w, P w → V w) : (vocabulary P V).Closed where
  restack hm _ := hm
  loops hm _ := hm
  refer hm _ _ := hm
  primitive {m w p} hm _ := by
    refine ⟨⟨?_, fun v hv => hm.2 v (primitive_declared p m v ▸ hv)⟩, fun _ _ => trivial⟩
    unfold Machine.Keeps
    rw [primitive_dictionary]
    exact hm.1
  define hm htakes :=
    ⟨hm.1.define fun v hv => htakes v (List.mem_cons_of_mem _ (List.mem_cons_of_mem _ hv)), hm.2⟩
  declare {m name} hm htakes := by
    refine ⟨hm.1, fun w hw => ?_⟩
    rw [Machine.set, Table.contains_insert, Bool.or_eq_true, decide_eq_true_eq] at hw
    rcases hw with rfl | hw
    · exact h w (htakes w (List.mem_cons_of_mem _ (List.mem_singleton_self w)))
    · exact hm.2 w hw
  call hm _ hw := hm.1 _ _ hw
  branch htakes :=
    ⟨fun w hw => htakes w (List.mem_cons_of_mem _ (List.mem_append_left _ hw)),
      fun w hw => htakes w (List.mem_cons_of_mem _ (List.mem_append_right _ hw))⟩
  loop htakes := fun w hw => htakes w (List.mem_cons_of_mem _ hw)
  stops _ _ _ := trivial
  items hq _ hitem := fun w hw => hq w (words_subset_of_mem_items hitem hw)
  deep := trivial

end FlatForth
