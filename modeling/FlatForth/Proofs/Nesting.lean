import FlatForth.Proofs.Depth
import FlatForth.Proofs.Undefining

/-!
How deep runs nest. When no word calls itself, not even by way of others, and nothing is defined on
the way, then the levels that a run needs are bounded by the words of the source and of the bodies
(`nestingBound`), however often its loops turn and whichever branches it takes. Each level has fewer
words than the one that opens it, or is the body of a word of smaller rank; so what the bodies of
smaller rank can use up is put aside, and the words of the level itself are counted on top
(`Fits`).
-/

namespace FlatForth

variable {σ : Type} {note : σ → Event → σ}

/-- How many levels are allowed for an entry. -/
def Entry.room : Entry → Nat
  | .words body => body.length + 1
  | _ => 0

/-- How many levels are allowed for the entries whose names are `counted`. -/
def roomIn (counted : Word → Bool) : List (Word × Entry) → Nat
  | [] => 0
  | e :: es => (if counted e.1 then e.2.room else 0) + roomIn counted es

def Table.room (d : Table Entry) (counted : Word → Bool) : Nat := roomIn counted d.entries

/-- The number of words, one more, and the levels for all entries of the dictionary. -/
def nestingBound (d : Table Entry) (ws : List Word) : Nat :=
  ws.length + 1 + d.room fun _ => true

/-- A definition calls only definitions of smaller rank. -/
def Table.Ranked (d : Table Entry) (rank : Word → Nat) : Prop :=
  ∀ w body, d.find? w = some (.words body) →
    ∀ v ∈ body, ∀ ws, d.find? v = some (.words ws) → rank v < rank w

section

variable {p q : Word → Bool} (h : ∀ w, p w = true → q w = true)

include h

theorem roomIn_mono (es : List (Word × Entry)) : roomIn p es ≤ roomIn q es := by
  induction es with
  | nil => exact Nat.le_refl 0
  | cons e es ih =>
    refine Nat.add_le_add ?_ ih
    by_cases hp : p e.1 = true
    · simp [hp, h e.1 hp]
    · rw [if_neg hp]
      exact Nat.zero_le _

/-- Where `q` counts what `p` counts and the name of an entry besides, there are levels for that
entry as well. -/
theorem room_add_roomIn {w : Word} {entry : Entry} (hp : p w = false) (hq : q w = true)
    {es : List (Word × Entry)} (hw : (w, entry) ∈ es) : entry.room + roomIn p es ≤ roomIn q es := by
  induction es with
  | nil => cases hw
  | cons e es ih =>
    rcases List.mem_cons.1 hw with rfl | hw
    · simpa [roomIn, hp, hq] using roomIn_mono h es
    · have hrest := ih hw
      have hfirst := roomIn_mono h [e]
      simp only [roomIn, Nat.add_zero] at hfirst ⊢
      omega

end

/-- The levels for a definition and for all of smaller rank are among those below a greater rank
`r`. -/
theorem Table.room_add_room {d : Table Entry} {rank : Word → Nat} {w : Word} {body : List Word}
    {r : Nat} (hw : d.find? w = some (.words body)) (hr : rank w < r) :
    body.length + 1 + d.room (rank · < rank w) ≤ d.room (rank · < r) := by
  have below (v : Word) (hv : decide (rank v < rank w) = true) : decide (rank v < r) = true :=
    decide_eq_true (Nat.lt_trans (of_decide_eq_true hv) hr)
  exact room_add_roomIn below (decide_eq_false (Nat.lt_irrefl _)) (decide_eq_true hr)
    (Table.mem_of_find? hw)

/-- `ws` are `Undefining` and call definitions of rank below some `r` only, and `depth` is at least
their number, one more, and the levels for those definitions. -/
def Fits (d : Table Entry) (rank : Word → Nat) (depth : Nat) (ws : List Word) : Prop :=
  Undefining ws ∧ ∃ r, (∀ v ∈ ws, ∀ body, d.find? v = some (.words body) → rank v < r) ∧
    ws.length + 1 + d.room (rank · < r) ≤ depth

section

variable {d : Table Entry} {rank : Word → Nat} {depth : Nat} {ws : List Word}

theorem Fits.part (h : Fits d rank (depth + 1) ws) {w : Word} {rest vs : List Word}
    (hrest : (w :: rest).Sublist ws) (hvs : vs.Sublist rest) : Fits d rank depth vs := by
  obtain ⟨hu, r, hcalls, hroom⟩ := h
  have hsub : vs.Sublist ws := hvs.trans ((List.sublist_cons_self w rest).trans hrest)
  have hlen : vs.length + 1 ≤ ws.length :=
    Nat.le_trans (Nat.succ_le_succ hvs.length_le) hrest.length_le
  exact ⟨hu.sublist hsub, r, fun v hv => hcalls v (hsub.subset hv), by omega⟩

theorem Fits.body (hd : d.EndFree) (hr : d.Ranked rank) (h : Fits d rank (depth + 1) ws)
    {w : Word} (hw : w ∈ ws) {body : List Word} (hb : d.find? w = some (.words body)) :
    Fits d rank depth body := by
  obtain ⟨-, r, hcalls, hroom⟩ := h
  have hlt := hcalls w hw body hb
  have hle := Table.room_add_room hb hlt
  exact ⟨.inr (hd w body hb), rank w, hr w body hb, by omega⟩

theorem exists_rank_above (rank : Word → Nat) (ws : List Word) : ∃ r, ∀ v ∈ ws, rank v < r := by
  induction ws with
  | nil => exact ⟨0, nofun⟩
  | cons w ws ih =>
    obtain ⟨r, hr⟩ := ih
    refine ⟨max (rank w + 1) r, fun v hv => ?_⟩
    rcases List.mem_cons.1 hv with rfl | hv
    · exact Nat.lt_of_lt_of_le (Nat.lt_succ_self _) (Nat.le_max_left _ _)
    · exact Nat.lt_of_lt_of_le (hr v hv) (Nat.le_max_right _ _)

theorem fits_nestingBound (h : Undefining ws) : Fits d rank (nestingBound d ws) ws := by
  obtain ⟨r, hr⟩ := exists_rank_above rank ws
  have hroom : d.room (rank · < r) ≤ d.room fun _ => true := roomIn_mono (fun _ _ => rfl) _
  exact ⟨h, r, fun v hv _ _ => hr v hv, Nat.add_le_add_left hroom _⟩

end

theorem primitive_failure_ne (p : Primitive) (m : Machine) :
    (p.run m).failure ≠ some .nestedTooDeep := by
  have notVariable (c : Cell) : (m.stop (Machine.notVariable c)).failure ≠ some .nestedTooDeep := by
    unfold Machine.notVariable
    split <;> exact nofun
  cases p with
  | function f =>
    change (m.apply f).failure ≠ _
    rcases m.apply_cases f with ⟨e, -, h⟩ | ⟨args, below, -, ⟨e, -, h⟩ | ⟨cells, -, h⟩⟩
    · exact h ▸ nofun
    · exact h ▸ nofun
    · exact h ▸ nofun
  | innerIndex =>
    change m.pushInnerIndex.failure ≠ _
    rcases m.pushInnerIndex_cases with h | ⟨i, h⟩
    · exact h ▸ nofun
    · exact h ▸ nofun
  | outerIndex =>
    change m.pushOuterIndex.failure ≠ _
    rcases m.pushOuterIndex_cases with h | ⟨j, h⟩
    · exact h ▸ nofun
    · exact h ▸ nofun
  | fetch =>
    change m.fetch.failure ≠ _
    rcases m.fetch_cases with h | ⟨c, below, -, -, h⟩ | ⟨name, n, below, -, -, h⟩
    · exact h ▸ nofun
    · exact h ▸ notVariable c
    · exact h ▸ nofun
  | store =>
    change m.store.failure ≠ _
    rcases m.store_cases with h | ⟨c, below, -, -, h⟩ | ⟨name, value, below, -, h⟩ |
      ⟨name, n, below, -, -, h⟩
    · exact h ▸ nofun
    · exact h ▸ notVariable c
    · exact h ▸ nofun
    · exact h ▸ nofun

/-- Words that fit into `depth` levels do not nest too deep. -/
def nesting (d : Table Entry) (rank : Word → Nat) (depth : Nat) : Contract where
  Holds m := m.dictionary = d
  Queue := Fits d rank depth
  Takes item := ∃ ws, Fits d rank (depth + 1) ws ∧ item ∈ items ws
  Stops why := why ≠ .nestedTooDeep

section

variable {d : Table Entry} (hd : d.EndFree) {rank : Word → Nat} (hr : d.Ranked rank)

include hd hr

theorem nesting_lawful (depth : Nat) : (nesting d rank depth).Lawful where
  restack h _ := h
  loops h _ := h
  refer h _ _ := h
  primitive {m _ p} h _ := ⟨(primitive_dictionary p m).trans h,
    fun _ hwhy heq => primitive_failure_ne p m (hwhy.trans (congrArg some heq))⟩
  define := by
    rintro m name body - ⟨ws, ⟨hu, -⟩, hitem⟩
    obtain ⟨w, rest, hrest, hread⟩ := reads_of_mem_items hitem
    exact absurd (hu.sublist hrest) hread.not_undefining
  declare h _ := h
  call := by
    rintro m w body rfl ⟨ws, hfits, hitem⟩ hb
    obtain ⟨v, rest, hrest, hread⟩ := reads_of_mem_items hitem
    cases hread with
    | word _ => exact hfits.body hd hr (hrest.subset List.mem_cons_self) hb
  branch := by
    rintro whenTrue whenFalse closed ⟨ws, hfits, hitem⟩
    obtain ⟨w, rest, hrest, hread⟩ := reads_of_mem_items hitem
    have hparts := hread.content_sublist
    exact ⟨hfits.part hrest ((List.sublist_append_left whenTrue whenFalse).trans hparts),
      hfits.part hrest ((List.sublist_append_right whenTrue whenFalse).trans hparts)⟩
  loop := by
    rintro body ⟨ws, hfits, hitem⟩
    obtain ⟨w, rest, hrest, hread⟩ := reads_of_mem_items hitem
    exact hfits.part hrest hread.content_sublist
  stops _ _ h := h.ne_nestedTooDeep

theorem runWords_fits {depth : Nat} {ws : List Word} (h : Fits d rank depth ws) :
    (nesting d rank depth).Safe (runWords note depth ws) := by
  induction depth generalizing ws with
  | zero =>
    obtain ⟨-, r, -, hroom⟩ := h
    omega
  | succ depth ih =>
    have inner (vs : List Word) (hvs : Fits d rank depth vs) :
        (nesting d rank depth).Safe (runWords note depth vs) := ih hvs
    exact Contract.runItems_safe (nesting_lawful hd hr depth) inner fun item hitem =>
      ⟨ws, h, hitem⟩

end

/-- Let the dictionary be `EndFree` and `Ranked`, and the queue of the source free of colons. From
the depth `nestingBound` on, which dictionary and queue determine, the run has the same ending at
every depth, and this is no failure for nesting too deep. -/
theorem evaluate_within_nestingBound {m : Machine} (hd : m.dictionary.EndFree) {rank : Word → Nat}
    (hr : m.dictionary.Ranked rank) {source : Source} (hs : Keyword.define ∉ source.queue) :
    ∃ e : Ending, e.failure ≠ some .nestedTooDeep ∧
      (∀ depth ≥ nestingBound m.dictionary source.queue, m.runWithin depth source.queue = e) ∧
      ∀ room, nestingBound m.dictionary source.queue ≤ room + 1 → m.evaluate room source = e := by
  let bound := nestingBound m.dictionary source.queue
  have hfits : Fits m.dictionary rank bound source.queue := fits_nestingBound (.inl hs)
  have hsafe : (nesting m.dictionary rank bound).Safe
      (runWords (fun (_ : Unit) _ => ()) bound source.queue) := runWords_fits hd hr hfits
  have hends : (m.runWithin bound source.queue).failure ≠ some .nestedTooDeep := fun hf =>
    (hsafe m () rfl).2 _ hf rfl
  have hsame (depth : Nat) (h : bound ≤ depth) :
      m.runWithin depth source.queue = m.runWithin bound source.queue :=
    runWords_deeper (fun (_ : Unit) _ => ()) (fun (_ : Unit) _ => ()) h hends ()
  exact ⟨m.runWithin bound source.queue, hends, hsame, fun room => hsame (room + 1)⟩

/-- A word that calls another one twice, in a branch. -/
theorem evaluate_within_nestingBound_quad :
    let m := { (Machine.fresh.define "sq" (.words ["dup", "*"])).define "quad"
      (.words ["sq", "sq"]) with stack := [.int 3] }
    let source := Source.text "1 if quad then"
    nestingBound m.dictionary source.queue = 11 ∧
    ∃ e : Ending, e.failure ≠ some .nestedTooDeep ∧
      (∀ depth ≥ nestingBound m.dictionary source.queue, m.runWithin depth source.queue = e) ∧
      ∀ room, nestingBound m.dictionary source.queue ≤ room + 1 → m.evaluate room source = e := by
  intro m source
  have hd : m.dictionary.EndFree :=
    (Machine.fresh_wellFormed.endFree.insert (by decide)).insert (by decide)
  have bodies (w : Word) (body : List Word) (hw : m.dictionary.find? w = some (.words body)) :
      w = "quad" ∧ body = ["sq", "sq"] ∨ w = "sq" ∧ body = ["dup", "*"] := by
    simp only [m, Machine.define, Table.find?_insert] at hw
    split at hw
    · cases hw
      exact .inl ⟨‹_›, rfl⟩
    · split at hw
      · cases hw
        exact .inr ⟨‹_›, rfl⟩
      · exact absurd hw (find?_builtins_ne_words w body)
  have hr : m.dictionary.Ranked fun w => if w = "quad" then 1 else 0 := by
    intro w body hw v hv ws hws
    rcases bodies w body hw with ⟨rfl, rfl⟩ | ⟨rfl, rfl⟩
    · obtain rfl : v = "sq" := by simpa using hv
      decide
    · rcases bodies v ws hws with ⟨rfl, -⟩ | ⟨rfl, -⟩
      · simp at hv
      · simp at hv
  exact ⟨by decide +kernel, evaluate_within_nestingBound hd hr (by decide +kernel)⟩

end FlatForth
