import FlatForth.Proofs.Folding
import FlatForth.Proofs.SelfContained
import Mathlib.Algebra.Group.End

/-!
Renaming. A renaming permutes the folded words, all but those that mean something by themselves: the
keywords, the names of what a fresh machine can do, and the numerals. Tables hold under the new
names what they held under the old ones (`Table.find?_rename`), and a queue of new names is cut
where that of the old ones is (`Renaming.items_apply`): the scans tell no words apart but the
reserved ones.
-/

namespace FlatForth

/-! What is renamed. -/

section

variable (f : Word → Word)

def Cell.rename : Cell → Cell
  | int n => int n
  | ref name => ref (f name)
  | text t => text t

def Misdefinition.rename : Misdefinition → Misdefinition
  | nameless => nameless
  | number w => number (f w)
  | unclosed name => unclosed (f name)

def Fault.rename : Fault → Fault
  | underflow => underflow
  | undefined w => undefined (f w)
  | misdefinition why => misdefinition (why.rename f)
  | namelessVariable => namelessVariable
  | unclosedLoop => unclosedLoop
  | outsideLoop => outsideLoop
  | outsideNestedLoop => outsideNestedLoop
  | notVariable c => notVariable (c.rename f)
  | notNumber c => notNumber (c.rename f)
  | notStorable value name => notStorable (value.rename f) (f name)
  | zeroDivisor => zeroDivisor

def Failure.rename : Failure → Failure
  | fault why => fault (why.rename f)
  | numeralTooLong digits => numeralTooLong digits
  | integerTooLong => integerTooLong
  | nestedTooDeep => nestedTooDeep

def Entry.rename : Entry → Entry
  | primitive p => primitive p
  | probe => probe
  | words body => words (body.map f)

def Block.rename (b : Block) : Block :=
  ⟨b.first.map f, b.second.map (·.map f), b.closed, b.rest.map f⟩

def Item.rename : Item → Item
  | word w => word (f w)
  | define name body => define (f name) (body.map f)
  | misdefine why => misdefine (why.rename f)
  | declare name => declare (name.map f)
  | branch whenTrue whenFalse closed => branch (whenTrue.map f) (whenFalse.map f) closed
  | loop body => loop (body.map (·.map f))

/-- The table with `f w` for every name `w`, and `g a` for the value `a` under it. -/
def Table.rename {α : Type} (g : α → α) (t : Table α) : Table α :=
  t.entries.foldr (fun e t => t.insert (f e.1) (g e.2)) .empty

def Machine.rename (m : Machine) : Machine where
  stack := m.stack.map (Cell.rename f)
  «variables» := m.variables.rename f id
  dictionary := m.dictionary.rename f (Entry.rename f)
  loops := m.loops

def Ending.rename (e : Ending) : Ending := ⟨e.machine.rename f, e.failure.map (Failure.rename f)⟩

theorem Fault.name_rename (why : Fault) : (why.rename f).name = why.name := by
  cases why <;> rfl

end

/-! Tables. -/

namespace Table

variable {α : Type} {f : Word → Word} {g : α → α}

theorem find?_foldr_insert (hf : f.Injective) (es : List (Word × α)) (w : Word) :
    (es.foldr (fun e t => t.insert (f e.1) (g e.2)) empty).find? (f w) = (lookIn w es).map g := by
  induction es with
  | nil => rfl
  | cons e es ih =>
    rw [List.foldr_cons, find?_insert, lookIn, ih]
    by_cases hw : w = e.1
    · rw [if_pos hw, if_pos (congrArg f hw)]
      rfl
    · rw [if_neg hw, if_neg fun heq => hw (hf heq)]

theorem find?_rename (hf : f.Injective) (t : Table α) (w : Word) :
    (t.rename f g).find? (f w) = (t.find? w).map g := find?_foldr_insert hf t.entries w

theorem contains_rename (hf : f.Injective) (t : Table α) (w : Word) :
    (t.rename f g).contains (f w) = t.contains w := by
  rw [contains, contains, find?_rename hf, Option.isSome_map]

theorem rename_insert (hf : f.Bijective) (t : Table α) (w : Word) (a : α) :
    (t.insert w a).rename f g = (t.rename f g).insert (f w) (g a) := by
  refine ext_find? fun v => ?_
  obtain ⟨v, rfl⟩ := hf.2 v
  rw [find?_rename hf.1, find?_insert, find?_insert, find?_rename hf.1]
  by_cases hv : v = w
  · rw [if_pos hv, if_pos (congrArg f hv)]
    rfl
  · rw [if_neg hv, if_neg fun heq => hv (hf.1 heq)]

end Table

/-! Blocks and items. -/

theorem Block.divide_rename (f : Word → Word) (b : Block) :
    (b.rename f).divide = b.divide.rename f := by
  obtain ⟨first, second, closed, rest⟩ := b
  cases second with
  | none => simp [divide, rename]
  | some part => simp [divide, rename]

/-- `f w` is a marker exactly if `w` is, and then the same one. -/
def Markers.Spared (k : Markers) (f : Word → Word) : Prop :=
  ∀ w, (f w = k.closer ↔ w = k.closer) ∧ (some (f w) = k.opener ↔ some w = k.opener) ∧
    (some (f w) = k.divider ↔ some w = k.divider)

namespace Markers

variable {k : Markers} {f : Word → Word} (h : k.Spared f)

include h

theorem depthAfter_spared (depth : Nat) (w : Word) :
    k.depthAfter depth (f w) = k.depthAfter depth w := by
  obtain ⟨hcloser, hopener, -⟩ := h w
  simp only [depthAfter, hcloser, hopener]

theorem scanFrom_rename (depth : Nat) (ws : List Word) :
    k.scanFrom depth (ws.map f) = (k.scanFrom depth ws).rename f := by
  induction ws generalizing depth with
  | nil => rfl
  | cons w ws ih =>
    obtain ⟨hcloser, -, hdivider⟩ := h w
    simp only [List.map_cons, scanFrom, hcloser, hdivider, depthAfter_spared h, ih]
    split
    · rfl
    · split
      · exact Block.divide_rename f _
      · rfl

end Markers

/-- A keyword, a name that a fresh machine has, or a numeral. -/
def Word.Reserved (w : Word) : Prop :=
  w ∈ Keyword.all ∨ builtins.contains w = true ∨ isNumeral w = true

instance (w : Word) : Decidable w.Reserved :=
  inferInstanceAs (Decidable (_ ∨ _ ∨ _))

/-- A permutation of the folded words that fixes the reserved ones. -/
structure Renaming where
  perm : Equiv.Perm { w : Word // w.Folded }
  reserved : ∀ w, Word.Reserved w.1 → perm w = w

namespace Renaming

/-- The renaming that exchanges `v` and `w`. -/
def swap (v w : { w : Word // w.Folded }) (hv : ¬v.1.Reserved) (hw : ¬w.1.Reserved) : Renaming where
  perm := Equiv.swap v w
  reserved u hu := by
    refine Equiv.swap_apply_of_ne_of_ne ?_ ?_
    · rintro rfl
      exact hv hu
    · rintro rfl
      exact hw hu

variable (r : Renaming)

/-- The new name of a word. A word that is not folded keeps its name. -/
def apply : Word → Word := Equiv.Perm.ofSubtype r.perm

instance : CoeFun Renaming fun _ => Word → Word := ⟨apply⟩

theorem bijective : (r : Word → Word).Bijective := (Equiv.Perm.ofSubtype r.perm).bijective

theorem apply_reserved {w : Word} (h : w.Reserved) : r w = w := by
  unfold apply
  by_cases hw : w.Folded
  · rw [Equiv.Perm.ofSubtype_apply_of_mem r.perm hw, r.reserved ⟨w, hw⟩ h]
  · exact Equiv.Perm.ofSubtype_apply_of_not_mem r.perm hw

theorem apply_eq_iff {w v : Word} (h : v.Reserved) : r w = v ↔ w = v := by
  constructor
  · intro hw
    exact r.bijective.1 (hw.trans (r.apply_reserved h).symm)
  · rintro rfl
    exact r.apply_reserved h

theorem apply_folded {w : Word} (h : w.Folded) : (r w).Folded := by
  unfold apply
  rw [Equiv.Perm.ofSubtype_apply_of_mem r.perm h]
  exact (r.perm ⟨w, h⟩).2

theorem queue_words {ws : List Word} (h : ∀ w ∈ ws, w.Folded) :
    (Source.words (ws.map r)).queue = (Source.words ws).queue.map r := by
  rw [queue_words_folded h]
  refine queue_words_folded fun w hw => ?_
  obtain ⟨v, hv, rfl⟩ := List.mem_map.1 hw
  exact r.apply_folded (h v hv)

theorem spared {k : Markers} (hc : k.closer ∈ Keyword.all) (ho : ∀ o ∈ k.opener, o ∈ Keyword.all)
    (hd : ∀ d ∈ k.divider, d ∈ Keyword.all) : k.Spared r := by
  have optional (w : Word) {marker : Option Word} (hm : ∀ v ∈ marker, v ∈ Keyword.all) :
      some (r w) = marker ↔ some w = marker := by
    cases marker with
    | none => simp
    | some v => simpa using r.apply_eq_iff (.inl (hm v rfl))
  intro w
  exact ⟨r.apply_eq_iff (.inl hc), optional w ho, optional w hd⟩

theorem ofWord?_apply (w : Word) (h : isNumeral w = false) : Numeral.ofWord? (r w) = none := by
  have hr : isNumeral (r w) = false := by
    refine Bool.eq_false_iff.2 fun hn => ?_
    have hw : w = r w := (r.apply_eq_iff (.inr (.inr hn))).1 rfl
    rw [← hw, h] at hn
    exact Bool.false_ne_true hn
  exact Option.not_isSome_iff_eq_none.1 (Bool.eq_false_iff.1 hr)

theorem isNumeral_apply (w : Word) : isNumeral (r w) = isNumeral w := by
  cases h : isNumeral w with
  | true => rw [r.apply_reserved (.inr (.inr h)), h]
  | false => simp [isNumeral, r.ofWord?_apply w h]

theorem scan_apply {k : Markers} (h : k.Spared r) (ws : List Word) :
    k.scan (ws.map r) = (k.scan ws).rename r := Markers.scanFrom_rename h 0 ws

theorem readDefinition_apply (ws : List Word) :
    Item.readDefinition (ws.map r) =
      ((Item.readDefinition ws).1.rename r, (Item.readDefinition ws).2.map r) := by
  have hscan := r.scan_apply (r.spared (k := definitionMarkers) (by decide) nofun nofun)
  cases ws with
  | nil => rfl
  | cons name ws =>
    simp only [List.map_cons, Item.readDefinition, r.isNumeral_apply, hscan, Block.rename]
    split
    · rfl
    · split <;> rfl

theorem readBranch_apply (ws : List Word) :
    Item.readBranch (ws.map r) =
      ((Item.readBranch ws).1.rename r, (Item.readBranch ws).2.map r) := by
  have hscan := r.scan_apply (r.spared (k := branchMarkers) (by decide) (by decide) (by decide)) ws
  simp only [Item.readBranch, hscan, Block.rename, Item.rename]
  cases (branchMarkers.scan ws).second <;> rfl

theorem readLoop_apply (ws : List Word) :
    Item.readLoop (ws.map r) = ((Item.readLoop ws).1.rename r, (Item.readLoop ws).2.map r) := by
  have hscan := r.scan_apply (r.spared (k := loopMarkers) (by decide) (by decide) nofun) ws
  simp only [Item.readLoop, hscan, Block.rename, Item.rename]
  split <;> rfl

theorem read_apply (w : Word) (ws : List Word) :
    Item.read (r w) (ws.map r) = ((Item.read w ws).1.rename r, (Item.read w ws).2.map r) := by
  have keyword {k : Word} (hk : k ∈ Keyword.all) : r w = k ↔ w = k := r.apply_eq_iff (.inl hk)
  have hdefine := keyword (k := Keyword.define) (by decide)
  have hdeclare := keyword (k := Keyword.declare) (by decide)
  have hbranch := keyword (k := Keyword.branch) (by decide)
  have hloop := keyword (k := Keyword.loop) (by decide)
  simp only [Item.read, hdefine, hdeclare, hbranch, hloop]
  split
  · exact r.readDefinition_apply ws
  split
  · simp [Item.readDeclaration, Item.rename]
  split
  · exact r.readBranch_apply ws
  split
  · exact r.readLoop_apply ws
  · rfl

theorem items_apply (ws : List Word) : items (ws.map r) = (items ws).map (Item.rename r) := by
  induction ws using items.induct with
  | case1 => simp [items]
  | case2 w ws item ih =>
    rw [List.map_cons, items_of_read (r.read_apply w ws), ih, items, List.map_cons]

end Renaming

end FlatForth
