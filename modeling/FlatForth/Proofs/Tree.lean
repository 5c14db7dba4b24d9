import FlatForth.Proofs.SelfContained

/-!
Programs as trees of constructs, one within the other, and the words that they are written as.
Cutting the words of a tree into items gives back its constructs, whatever comes behind them
(`items_flatten_append`), although each scan looks for its own markers only.
-/

namespace FlatForth

/-- A word that is no keyword. -/
abbrev PlainWord := { w : Word // w ∉ Keyword.all }

/-- Well-nested programs, with definitions if `definitions` is set. The body of a definition has
none. -/
inductive Tree : (definitions : Bool) → Type
  | nothing {d} : Tree d
  | seq {d} (first second : Tree d) : Tree d
  | word {d} (w : PlainWord) : Tree d
  | branch {d} (whenTrue : Tree d) : Tree d
  | fork {d} (whenTrue whenFalse : Tree d) : Tree d
  | loop {d} (body : Tree d) : Tree d
  | define (name : PlainWord) (not_numeral : isNumeral name = false) (body : Tree false) : Tree true
  | declare {d} (name : PlainWord) : Tree d

namespace Tree

def flatten {d : Bool} : Tree d → List Word
  | nothing => []
  | seq a b => a.flatten ++ b.flatten
  | word w => [w]
  | branch a => Keyword.branch :: (a.flatten ++ [Keyword.endBranch])
  | fork a b =>
    Keyword.branch :: (a.flatten ++ Keyword.otherwise :: (b.flatten ++ [Keyword.endBranch]))
  | loop a => Keyword.loop :: (a.flatten ++ [Keyword.endLoop])
  | define name _ a => Keyword.define :: name :: (a.flatten ++ [Keyword.endDefine])
  | declare name => [Keyword.declare, name]

/-- The items that the words of a tree are cut into. -/
def items {d : Bool} : Tree d → List Item
  | nothing => []
  | seq a b => a.items ++ b.items
  | word w => [.word w]
  | branch a => [.branch a.flatten [] true]
  | fork a b => [.branch a.flatten b.flatten true]
  | loop a => [.loop (some a.flatten)]
  | define name _ a => [.define name a.flatten]
  | declare name => [.declare (some (name : Word))]

end Tree

/-! The scans keep every construct whole. -/

namespace Markers

variable {k : Markers}

theorem balanced_enclosed {first last : Word} (hf : k.Plain first) (hl : k.Plain last)
    {ws : List Word} (h : k.Balanced ws) : k.Balanced (first :: (ws ++ [last])) :=
  balanced_append (balanced_singleton hf) (balanced_append h (balanced_singleton hl))

theorem balanced_fork (hf : k.Plain Keyword.branch) (hd : k.Plain Keyword.otherwise)
    (hl : k.Plain Keyword.endBranch) {ws vs : List Word} (hw : k.Balanced ws) (hv : k.Balanced vs) :
    k.Balanced (Keyword.branch :: (ws ++ Keyword.otherwise :: (vs ++ [Keyword.endBranch]))) :=
  balanced_append (balanced_singleton hf) (balanced_append hw (balanced_enclosed hd hl hv))

/-- For these markers plain words are plain, and branches and loops of balanced words balanced. -/
structure KeepWhole (k : Markers) : Prop where
  word : ∀ w : PlainWord, k.Plain w
  declare : k.Plain Keyword.declare
  branch : ∀ {ws}, k.Balanced ws → k.Balanced (Keyword.branch :: (ws ++ [Keyword.endBranch]))
  fork : ∀ {ws vs}, k.Balanced ws → k.Balanced vs →
    k.Balanced (Keyword.branch :: (ws ++ Keyword.otherwise :: (vs ++ [Keyword.endBranch])))
  loop : ∀ {ws}, k.Balanced ws → k.Balanced (Keyword.loop :: (ws ++ [Keyword.endLoop]))

theorem balanced_flatten (hk : k.KeepWhole) {d : Bool} (t : Tree d)
    (hd : d = false ∨ k.Plain Keyword.define ∧ k.Plain Keyword.endDefine) :
    k.Balanced t.flatten := by
  induction t with
  | nothing => exact balanced_nil
  | seq a b iha ihb => exact balanced_append (iha hd) (ihb hd)
  | word w => exact balanced_singleton (hk.word w)
  | branch a ih => exact hk.branch (ih hd)
  | fork a b iha ihb => exact hk.fork (iha hd) (ihb hd)
  | loop a ih => exact hk.loop (ih hd)
  | define name _ a ih =>
    obtain ⟨hdef, hend⟩ := hd.resolve_left nofun
    exact balanced_append (balanced_singleton hdef)
      (balanced_enclosed (hk.word name) hend (ih (.inl rfl)))
  | declare name =>
    exact balanced_append (balanced_singleton hk.declare) (balanced_singleton (hk.word name))

theorem plain_word
    (hk : ∀ v ∈ k.closer :: (k.opener.toList ++ k.divider.toList), v ∈ Keyword.all)
    (w : PlainWord) : k.Plain w where
  not_closer h := w.2 (hk w (by simp [h]))
  not_opener h := w.2 (hk w (by simp [← h]))
  not_divider h := w.2 (hk w (by simp [← h]))

theorem branchMarkers_keepWhole : branchMarkers.KeepWhole where
  word := plain_word (by decide)
  declare := by decide
  branch h := balanced_nested rfl (by decide) (by decide) fun depth rest => h (depth + 1) rest
  fork {ws vs} hw hv := by
    -- The divider of a branch within the branch is met where something is open, and is kept.
    have inside (depth : Nat) (rest : List Word) :
        branchMarkers.scanFrom (depth + 1) (ws ++ Keyword.otherwise :: vs ++ rest) =
          (branchMarkers.scanFrom (depth + 1) rest).keepAll (ws ++ Keyword.otherwise :: vs) := by
      have hdepth : branchMarkers.depthAfter (depth + 1) Keyword.otherwise = depth + 1 := rfl
      rw [List.append_assoc, hw, List.cons_append, scanFrom_succ, hdepth, hv]
      simp [Block.keepAll, Block.keep]
    have h := balanced_nested (k := branchMarkers) rfl (by decide) (by decide) inside
    rwa [List.append_assoc, List.cons_append] at h
  loop h := balanced_enclosed (by decide) (by decide) h

theorem loopMarkers_keepWhole : loopMarkers.KeepWhole where
  word := plain_word (by decide)
  declare := by decide
  branch h := balanced_enclosed (by decide) (by decide) h
  fork := balanced_fork (by decide) (by decide) (by decide)
  loop h := balanced_nested rfl (by decide) (by decide) fun depth rest => h (depth + 1) rest

theorem definitionMarkers_keepWhole : definitionMarkers.KeepWhole where
  word := plain_word (by decide)
  declare := by decide
  branch h := balanced_enclosed (by decide) (by decide) h
  fork := balanced_fork (by decide) (by decide) (by decide)
  loop h := balanced_enclosed (by decide) (by decide) h

end Markers

/-! The words of a construct are read back as that construct. -/

namespace Item

variable {d : Bool} (rest : List Word)

theorem read_flatten_word (w : PlainWord) : read w rest = (word w, rest) := by
  have openers : ∀ v ∈ [Keyword.define, Keyword.declare, Keyword.branch, Keyword.loop],
      v ∈ Keyword.all := by decide
  exact read_word (fun h => w.2 (openers w h)) rest

theorem balanced_flatten_branch (t : Tree d) : branchMarkers.Balanced t.flatten :=
  Markers.balanced_flatten Markers.branchMarkers_keepWhole t
    (.inr ⟨by decide, by decide⟩)

theorem read_flatten_branch (a : Tree d) :
    read Keyword.branch (a.flatten ++ Keyword.endBranch :: rest) =
      (branch a.flatten [] true, rest) := by
  have hs : branchMarkers.scan (a.flatten ++ Keyword.endBranch :: rest) = _ :=
    Markers.scan_balanced (balanced_flatten_branch a) rest
  change readBranch _ = _
  rw [readBranch, hs]
  rfl

theorem read_flatten_fork (a b : Tree d) :
    read Keyword.branch
      (a.flatten ++ Keyword.otherwise :: (b.flatten ++ Keyword.endBranch :: rest)) =
      (branch a.flatten b.flatten true, rest) := by
  have hs : branchMarkers.scan
      (a.flatten ++ Keyword.otherwise :: (b.flatten ++ Keyword.endBranch :: rest)) = _ :=
    Markers.scan_divided (balanced_flatten_branch a) (balanced_flatten_branch b) rfl (by decide) rest
  change readBranch _ = _
  rw [readBranch, hs]
  rfl

theorem read_flatten_loop (a : Tree d) :
    read Keyword.loop (a.flatten ++ Keyword.endLoop :: rest) = (loop (some a.flatten), rest) := by
  have ha : loopMarkers.Balanced a.flatten :=
    Markers.balanced_flatten Markers.loopMarkers_keepWhole a
      (.inr ⟨by decide, by decide⟩)
  have hs : loopMarkers.scan (a.flatten ++ Keyword.endLoop :: rest) = _ :=
    Markers.scan_balanced ha rest
  change readLoop _ = _
  rw [readLoop, hs]
  rfl

theorem read_flatten_define {name : Word} (hn : isNumeral name = false) (a : Tree false) :
    read Keyword.define (name :: (a.flatten ++ Keyword.endDefine :: rest)) =
      (define name a.flatten, rest) := by
  have ha : definitionMarkers.Balanced a.flatten :=
    Markers.balanced_flatten Markers.definitionMarkers_keepWhole a (.inl rfl)
  exact read_definition hn (Markers.scan_balanced ha rest)

end Item

section

variable {d : Bool}

theorem items_flatten_append (t : Tree d) (rest : List Word) :
    items (t.flatten ++ rest) = t.items ++ items rest := by
  induction t generalizing rest with
  | nothing => rfl
  | seq a b iha ihb => rw [Tree.flatten, List.append_assoc, iha, ihb, Tree.items, List.append_assoc]
  | word w => exact items_of_read (Item.read_flatten_word rest w)
  | branch a _ =>
    have h := items_of_read (Item.read_flatten_branch rest a)
    simpa [Tree.flatten, Tree.items] using h
  | fork a b _ _ =>
    have h := items_of_read (Item.read_flatten_fork rest a b)
    simpa [Tree.flatten, Tree.items] using h
  | loop a _ =>
    have h := items_of_read (Item.read_flatten_loop rest a)
    simpa [Tree.flatten, Tree.items] using h
  | define name hn a _ =>
    have h := items_of_read (Item.read_flatten_define rest hn a)
    simpa [Tree.flatten, Tree.items] using h
  | declare name => exact items_of_read rfl

theorem items_flatten (t : Tree d) : items t.flatten = t.items := by
  have h := items_flatten_append t []
  rwa [List.append_nil, show items [] = [] by rw [items], List.append_nil] at h

end

end FlatForth
