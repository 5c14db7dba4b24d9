import FlatForth.Proofs.Upheld

/-!
The running loops. However a run ends, the machine has the loops it had before (`runWords_loops`);
and an item that is taken up on the way finds those, and in front of them the index of each turn
that it is taken up in, the innermost first (`Dispatches.loops`).

Which turns an item is taken up in is said by how the run came to it (`Opens`, `Dispatches`), not by
the machine. Nothing is taken up in another way: the places where a run comes to an item are those
where an item shows in the history of its events (`dispatches_iff`).
-/

namespace FlatForth

variable {σ : Type} {note : σ → Event → σ}

theorem loops_upheld (note : σ → Event → σ) : Upheld note fun m _ m' _ => m'.loops = m.loops where
  refl _ _ := rfl
  trans h h' := h'.trans h
  noted _ _ _ _ := rfl
  restack _ _ _ := rfl
  set _ _ _ _ := rfl
  define _ _ _ _ := rfl
  turn _ h := congrArg List.tail h

theorem runWords_loops (depth : Nat) (ws : List Word) (m : Machine) (s : σ) :
    (runWords note depth ws m s).machine.loops = m.loops :=
  runWords_upholds (loops_upheld note) depth ws m s

section

variable {depth : Nat}

theorem perform_loops (item : Item) (m : Machine) (s : σ) :
    (perform note (runWords note depth) item m s).machine.loops = m.loops :=
  perform_upholds (loops_upheld note) (runWords_loops depth) item m s

theorem turns_loops (body : List Word) (n : Nat) (index : Int) (m : Machine) (s : σ) :
    (turns (runWords note depth) body n index m s).machine.loops = m.loops :=
  turns_upholds (loops_upheld note) (runWords_loops depth) body n index m s

end

/-- `Opens note inner item m s index body m' s'`: the step of `item` on `m` runs `body` on `m'`, in
a turn with this index if there is one. -/
inductive Opens (note : σ → Event → σ) (inner : List Word → Action σ) :
    Item → Machine → σ → Option Int → List Word → Machine → σ → Prop
  | word {w body m s} :
      m.variables.contains w = false → m.dictionary.find? w = some (.words body) →
      Opens note inner (.word w) m s none body m s
  | branch {whenTrue whenFalse closed m s n below w body} :
      operand m.stack = .ok (n, below) → (if n ≠ 0 then whenTrue else whenFalse) = w :: body →
      Opens note inner (.branch whenTrue whenFalse closed) m s none (w :: body)
        { m with stack := below } (if closed then s else note s .unclosedBranch)
  | turn {body m s start limit below n} {m' : Machine} {s'} :
      bounds m.stack = .ok (start, limit, below) → n < (limit - start).toNat →
      turns inner body n start { m with stack := below } (note s (.looping start limit body)) =
        ⟨m'.done, s'⟩ →
      Opens note inner (.loop (some body)) m s (some (start + n)) body
        { m' with loops := (start + n) :: m'.loops } s'

/-- `Dispatches note depth its m s turns item m' s'`: the run of `its` takes up `item` on `m'`, in
these turns, the innermost first. -/
inductive Dispatches (note : σ → Event → σ) :
    Nat → List Item → Machine → σ → List Int → Item → Machine → σ → Prop
  | here {depth item rest m s} : Dispatches note (depth + 1) (item :: rest) m s [] item m s
  | later {depth first rest m s} {m' : Machine} {s' turns item m'' s''} :
      step note (runWords note depth) first m s = ⟨m'.done, s'⟩ →
      Dispatches note (depth + 1) rest m' s' turns item m'' s'' →
      Dispatches note (depth + 1) (first :: rest) m s turns item m'' s''
  | within {depth first rest m s} {index : Option Int} {body m' s' turns item m'' s''} :
      Opens note (runWords note depth) first m (note s (.interpreting first.opening m.stack))
        index body m' s' →
      Dispatches note depth (items body) m' s' turns item m'' s'' →
      Dispatches note (depth + 1) (first :: rest) m s (turns ++ index.toList) item m'' s''

theorem Opens.loops {depth : Nat} {item : Item} {m m' : Machine} {s s' : σ} {index : Option Int}
    {body : List Word} (h : Opens note (runWords note depth) item m s index body m' s') :
    m'.loops = index.toList ++ m.loops := by
  cases h with
  | word _ _ => rfl
  | branch _ _ => rfl
  | @turn _ _ _ start _ _ n m₁ _ _ _ ht =>
    have hm : m₁.loops = m.loops :=
      (congrArg (·.machine.loops) ht).symm.trans (turns_loops body n start _ _)
    simp [hm]

theorem Dispatches.loops {depth : Nat} {its : List Item} {m m' : Machine} {s s' : σ}
    {turns : List Int} {item : Item} (h : Dispatches note depth its m s turns item m' s') :
    m'.loops = turns ++ m.loops := by
  induction h with
  | here => rfl
  | @later _ first _ m s m₁ _ _ _ _ _ hs _ ih =>
    have hm : m₁.loops = m.loops :=
      (congrArg (·.machine.loops) hs).symm.trans (perform_loops first m _)
    rw [ih, hm]
  | within ho _ ih => rw [ih, ho.loops, List.append_assoc]

/-! The history of a run. -/

/-- Gathers all events, the first one first. -/
def recount (events : List Event) (e : Event) : List Event := events ++ [e]

theorem history_upheld : Upheld recount fun _ s _ s' => s <+: s' where
  refl _ s := List.prefix_refl s
  trans h h' := h.trans h'
  noted _ s _ _ := List.prefix_append s _
  restack _ s _ := List.prefix_refl s
  set _ s _ _ := List.prefix_refl s
  define _ s _ _ := List.prefix_refl s
  turn _ h := h

def Action.Grows (a : Action (List Event)) : Prop := a.Upholds fun _ es _ es' => es <+: es'

theorem andThen_history {a b : Action (List Event)} (hb : b.Grows) (m : Machine)
    (es : List Event) : (a m es).seen <+: (a.andThen b m es).seen := by
  unfold Action.andThen
  dsimp only
  split
  · exact List.prefix_refl _
  · exact hb _ _

/-- Of two prefixes of one course of events, `es` has `es'` and the event `e` in it, or ends before
`e`. -/
theorem prefix_or_prefix {es es' all : List Event} {e : Event} (h : es <+: all)
    (he : es' ++ [e] <+: all) : es' ++ [e] <+: es ∨ es <+: es' := by
  have h' : es' <+: all := (List.prefix_append es' [e]).trans he
  by_cases hl : es.length ≤ es'.length
  · exact .inr (List.prefix_of_prefix_length_le h h' hl)
  · exact .inl (List.prefix_of_prefix_length_le he h (by simp; omega))

theorem not_in_shorter {es es' : List Event} {e : Event} (h : es <+: es') :
    ¬es' ++ [e] <+: es := by
  intro he
  have hle := h.length_le
  have hlt := he.length_le
  simp at hlt
  omega

/-- If `e` follows on a history and `e'` on a longer one, the longer one has `e` in it. -/
theorem prefix_next {es es' all : List Event} {e e' : Event} (h : es <+: es')
    (he : es ++ [e] <+: all) (he' : es' ++ [e'] <+: all) (hne : e' ≠ e) : es ++ [e] <+: es' := by
  rcases prefix_or_prefix he he' with hp | hp
  · have heq : es' ++ [e'] = es ++ [e] :=
      hp.eq_of_length_le (by simpa using h.length_le)
    exact absurd (List.append_inj' heq rfl).2 (by simpa using hne)
  · exact hp

theorem not_after_other {es es' : List Event} {e e' : Event} (h : es <+: es') (hne : e' ≠ e) :
    ¬es' ++ [e'] <+: es ++ [e] := fun he =>
  not_in_shorter (prefix_next h (List.prefix_refl _) he hne) he

section

variable {inner : List Word → Action (List Event)}

theorem exists_opens_word {v : Word} {m : Machine} {es es' : List Event} {w : Word}
    {stack : List Cell} (h : es <+: es')
    (he : es' ++ [.interpreting w stack] <+: (call recount inner v m es).seen) :
    ∃ index body m' s', Opens recount inner (.word v) m es index body m' s' ∧ s' <+: es' ∧
      es' ++ [.interpreting w stack] <+: (inner body m' s').seen := by
  unfold call at he
  split at he
  · exact absurd he (not_in_shorter h)
  · rename_i hv
    split at he
    · rename_i entry hw
      cases entry with
      | primitive p => exact absurd he (not_in_shorter h)
      | probe => exact absurd he (not_after_other h (by simp))
      | words body => exact ⟨none, body, m, es, .word (by simpa using hv) hw, h, he⟩
    · exact absurd he (not_in_shorter h)

variable (hi : ∀ ws, (inner ws).Grows)

include hi

theorem exists_turn {body : List Word} {n : Nat} {index : Int} {m : Machine}
    {es es' : List Event} {e : Event} (h : es <+: es')
    (he : es' ++ [e] <+: (turns inner body n index m es).seen) :
    ∃ (k : Nat) (m' : Machine) (s' : List Event), k < n ∧
      turns inner body k index m es = ⟨m'.done, s'⟩ ∧ s' <+: es' ∧
      es' ++ [e] <+: (inner body { m' with loops := (index + k) :: m'.loops } s').seen := by
  induction n generalizing index m es with
  | zero => exact absurd he (not_in_shorter h)
  | succ n ih =>
    have grows := turns_upholds history_upheld hi body n (index + 1)
    unfold turns at he
    dsimp only at he
    split at he
    · exact ⟨0, m, es, by omega, rfl, h, by simpa [turn] using he⟩
    · rename_i hf
      rcases prefix_or_prefix (grows _ _) he with hp | hp
      · exact ⟨0, m, es, by omega, rfl, h, by simpa [turn] using hp⟩
      · obtain ⟨k, m', s', hk, ht, hs, hb⟩ := ih hp he
        refine ⟨k + 1, m', s', by omega, ?_, hs, ?_⟩
        · simp only [turns, hf, ht]
        · rwa [show index + ((k + 1 : Nat) : Int) = index + 1 + k by omega]

theorem exists_opens_branch {whenTrue whenFalse : List Word} {closed : Bool} {m : Machine}
    {es es' : List Event} {w : Word} {stack : List Cell} (h : es <+: es')
    (he : es' ++ [.interpreting w stack] <+:
      (runBranch recount inner whenTrue whenFalse closed m es).seen) :
    ∃ index body m' s', Opens recount inner (.branch whenTrue whenFalse closed) m es index body m' s' ∧
      s' <+: es' ∧ es' ++ [.interpreting w stack] <+: (inner body m' s').seen := by
  unfold runBranch at he
  split at he
  · exact absurd he (not_in_shorter h)
  · rename_i n below ho
    generalize hp : (if n ≠ 0 then whenTrue else whenFalse) = part at he
    cases part with
    | nil =>
      cases closed with
      | true => exact absurd he (not_in_shorter h)
      | false => exact absurd he (not_after_other h (by simp))
    | cons v body =>
      refine ⟨none, v :: body, _, _, .branch ho hp, ?_, he⟩
      cases closed with
      | true => exact h
      | false => exact prefix_next h (hi _ _ _) he (by simp)

theorem exists_opens_loop {body : Option (List Word)} {m : Machine} {es es' : List Event} {w : Word}
    {stack : List Cell} (h : es <+: es')
    (he : es' ++ [.interpreting w stack] <+: (runLoop recount inner body m es).seen) :
    ∃ index ws m' s', Opens recount inner (.loop body) m es index ws m' s' ∧ s' <+: es' ∧
      es' ++ [.interpreting w stack] <+: (inner ws m' s').seen := by
  unfold runLoop at he
  split at he
  · exact absurd he (not_in_shorter h)
  · rename_i start limit below hb
    cases body with
    | none => exact absurd he (not_in_shorter h)
    | some body =>
      have grows := turns_upholds history_upheld hi body (limit - start).toNat start
      have hl := prefix_next h (grows _ _) he (by simp)
      obtain ⟨k, m', s', hk, ht, hs, hw⟩ := exists_turn hi hl he
      exact ⟨some (start + k), body, _, s', .turn hb hk ht, hs, hw⟩

theorem exists_opens {item : Item} {m : Machine} {es es' : List Event} {w : Word}
    {stack : List Cell} (h : es <+: es')
    (he : es' ++ [.interpreting w stack] <+: (perform recount inner item m es).seen) :
    ∃ index body m' s', Opens recount inner item m es index body m' s' ∧ s' <+: es' ∧
      es' ++ [.interpreting w stack] <+: (inner body m' s').seen := by
  cases item with
  | word v => exact exists_opens_word h he
  | define name body => exact absurd he (not_after_other h (by simp))
  | misdefine why => exact absurd he (not_in_shorter h)
  | declare name =>
    cases name with
    | none => exact absurd he (not_in_shorter h)
    | some name => exact absurd he (not_after_other h (by simp))
  | branch whenTrue whenFalse closed => exact exists_opens_branch hi h he
  | loop body => exact exists_opens_loop hi h he

theorem Opens.history {item : Item} {m m' : Machine} {es es' : List Event} {index : Option Int}
    {body : List Word} (h : Opens recount inner item m es index body m' es') :
    (inner body m' es').seen <+: (perform recount inner item m es).seen := by
  cases h with
  | @word w _ _ _ hv hw =>
    change _ <+: (call recount inner w m es).seen
    simp [call, hv, hw, enter]
  | @branch whenTrue whenFalse closed _ _ n below v body ho hp =>
    change _ <+: (runBranch recount inner whenTrue whenFalse closed m es).seen
    simp [runBranch, ho, hp, runPart]
  | @turn _ _ _ start limit below n m₁ _ hb hn ht =>
    change _ <+: (runLoop recount inner (some body) m es).seen
    obtain ⟨left, hl⟩ : ∃ left, (limit - start).toNat = n + (left + 1) :=
      ⟨(limit - start).toNat - n - 1, by omega⟩
    have later : (turns inner body left (start + n + 1)).Grows :=
      turns_upholds history_upheld hi body left (start + n + 1)
    simp only [runLoop, hb, hl]
    rw [turns_add, Action.andThen_of_done ht, turns_succ]
    exact andThen_history (a := FlatForth.turn inner body (start + n)) later m₁ es'

theorem step_history (item : Item) (rest : List Item) (m : Machine) (es : List Event) :
    (step recount inner item m es).seen <+: (runItems recount inner (item :: rest) m es).seen :=
  andThen_history (runItems_upholds history_upheld hi rest) m es

end

theorem Dispatches.history {depth : Nat} {its : List Item} {m m' : Machine} {es es' : List Event}
    {turns : List Int} {item : Item}
    (h : Dispatches recount (depth + 1) its m es turns item m' es') :
    es' ++ [.interpreting item.opening m'.stack] <+:
      (runItems recount (runWords recount depth) its m es).seen := by
  generalize hd : depth + 1 = d at h
  induction h generalizing depth with
  | @here _ item rest m es =>
    have hi := runWords_upholds history_upheld depth
    have noted := perform_upholds history_upheld hi item m
      (es ++ [.interpreting item.opening m.stack])
    exact noted.trans (step_history hi item rest m es)
  | @later _ first rest m es m₁ es₁ _ _ _ _ hs _ ih =>
    obtain rfl := Nat.succ.inj hd
    rw [runItems_cons, Action.andThen_of_done hs]
    exact ih rfl
  | @within d first rest m es index body m₁ es₁ _ item m₂ es₂ ho hb ih =>
    obtain rfl := Nat.succ.inj hd
    have hi := runWords_upholds history_upheld depth
    refine List.IsPrefix.trans ?_ ((ho.history hi).trans (step_history hi first rest m es))
    cases depth with
    | zero => cases hb
    | succ depth => exact ih rfl

/-- After the events `es'` the run dispatches an item that begins with `w`, on a machine with this
stack. -/
def TakesUp (depth : Nat) (its : List Item) (m : Machine) (es es' : List Event) (w : Word)
    (stack : List Cell) : Prop :=
  ∃ turns item m', Dispatches recount depth its m es turns item m' es' ∧
    item.opening = w ∧ m'.stack = stack

section

variable {depth : Nat} {es' : List Event} {w : Word} {stack : List Cell}

theorem exists_dispatch_of_inner
    (inner : ∀ body m es, es <+: es' →
      es' ++ [.interpreting w stack] <+: (runWords recount depth body m es).seen →
      TakesUp depth (items body) m es es' w stack)
    {its : List Item} {m : Machine} {es : List Event} (h : es <+: es')
    (he : es' ++ [.interpreting w stack] <+:
      (runItems recount (runWords recount depth) its m es).seen) :
    TakesUp (depth + 1) its m es es' w stack := by
  induction its generalizing m es with
  | nil => exact absurd he (not_in_shorter h)
  | cons item rest ih =>
    have hi : ∀ ws, (runWords recount depth ws).Grows := runWords_upholds history_upheld depth
    have noted : es ++ [.interpreting item.opening m.stack] <+:
        (step recount (runWords recount depth) item m es).seen :=
      perform_upholds history_upheld hi item m _
    have hall := step_history hi item rest m es
    -- The event tells of the first item itself, of its body, or of an item after it.
    rcases prefix_or_prefix (noted.trans hall) he with hp | hlater
    · have heq : es' ++ [.interpreting w stack] = es ++ [.interpreting item.opening m.stack] :=
        hp.eq_of_length_le (by simpa using h.length_le)
      obtain ⟨rfl, hev⟩ := List.append_inj' heq rfl
      obtain ⟨rfl, rfl⟩ : w = item.opening ∧ stack = m.stack := by simpa using hev
      exact ⟨[], item, m, .here, rfl, rfl⟩
    · rcases prefix_or_prefix hall he with hin | hafter
      · obtain ⟨index, body, m', s', ho, hs, hb⟩ := exists_opens hi hlater hin
        obtain ⟨turns, it, m'', hd, hw, hst⟩ := inner body m' s' hs hb
        exact ⟨turns ++ index.toList, it, m'', .within ho hd, hw, hst⟩
      · rw [runItems_cons] at he
        rcases (step recount (runWords recount depth) item).done_or_failure m es with
          ⟨m', s', hs⟩ | ⟨why, hs⟩
        · rw [hs] at hafter
          rw [Action.andThen_of_done hs] at he
          obtain ⟨turns, it, m'', hd, hw, hst⟩ := ih hafter he
          exact ⟨turns, it, m'', .later hs hd, hw, hst⟩
        · rw [Action.andThen_of_failure hs] at he
          exact absurd he (not_in_shorter hafter)

theorem exists_dispatch (body : List Word) (m : Machine) (es : List Event) (h : es <+: es')
    (he : es' ++ [.interpreting w stack] <+: (runWords recount depth body m es).seen) :
    TakesUp depth (items body) m es es' w stack := by
  induction depth generalizing body m es with
  | zero => exact absurd he (not_in_shorter h)
  | succ depth ih => exact exists_dispatch_of_inner ih h he

/-- An event `.interpreting w stack` follows on `es'` in the history exactly if the run `TakesUp` an
item of `w` there. -/
theorem dispatches_iff {its : List Item} {m : Machine} {es : List Event} (h : es <+: es') :
    es' ++ [.interpreting w stack] <+: (runItems recount (runWords recount depth) its m es).seen ↔
      TakesUp (depth + 1) its m es es' w stack := by
  constructor
  · exact exists_dispatch_of_inner exists_dispatch h
  · rintro ⟨turns, item, m', hd, rfl, rfl⟩
    exact hd.history

end

/-- `evaluate`, `interpret` and `obey` end with the loops they began with. Where a run `Dispatches`
an item, the loops are the turns in progress on top of those; and the history of events, to which
`recount` listens, tells of just the items that a run `TakesUp`. -/
theorem loops_kept_and_nested (note : σ → Event → σ) (room : Nat) (m : Machine) (s : σ) :
    (∀ source, (evaluate note room source m s).machine.loops = m.loops) ∧
    (∀ w queue, (interpret note room w queue m s).machine.loops = m.loops ∧
      (obey note room w queue m s).machine.loops = m.loops) ∧
    (∀ depth its turns item m' s', Dispatches note depth its m s turns item m' s' →
      m'.loops = turns ++ m.loops) ∧
    (∀ source es w stack,
      es ++ [.interpreting w stack] <+: (evaluate recount room source m []).seen ↔
        TakesUp (room + 1) (items source.queue) m [] es w stack) ∧
    ∀ v queue es w stack,
      es ++ [.interpreting w stack] <+: (interpret recount room v queue m []).seen ↔
        TakesUp (room + 1) [(Item.read v queue).1] m [] es w stack := by
  refine ⟨fun source => runWords_loops (room + 1) source.queue m s,
    fun w queue => ⟨perform_loops _ m _, perform_loops _ m s⟩,
    fun _ _ _ _ _ _ h => h.loops, fun source es w stack => ?_, fun v queue es w stack => ?_⟩
  · exact dispatches_iff List.nil_prefix
  · rw [← dispatches_iff List.nil_prefix, runItems_cons, runItems_nil, Action.andThen_skip]
    unfold step
    rw [Item.opening_read]
    exact Iff.rfl

/-- A loop that is run while another stands at 7: in its second turn, after it, and after one that
fails in the first turn. -/
theorem loops_kept_and_nested_turn :
    let note (_ : Unit) (_ : Event) := ()
    let m := { Machine.fresh with stack := [.int 0, .int 2], loops := [7] }
    (∃ m', Dispatches note 2 [.loop (some ["i"])] m () [1] (.word "i") m' () ∧
      m'.stack = [.int 0] ∧ m'.loops = [1, 7]) ∧
    (evaluate note nestingLimit (.text "DO i LOOP") m ()).machine.loops = [7] ∧
    (evaluate note nestingLimit (.text "DO i 0 / LOOP") m ()).failure =
      some (.fault .zeroDivisor) ∧
    (evaluate note nestingLimit (.text "DO i 0 / LOOP") m ()).machine.loops = [7] := by
  intro note m
  let m' := { Machine.fresh with stack := [.int 0], loops := [1, 7] }
  have hi : items ["i"] = [.word "i"] := by decide +kernel
  have first : turns (runWords note 1) ["i"] 1 0 { m with stack := [] } () =
      ⟨Machine.done { m with stack := [.int 0] }, ()⟩ := by
    rw [turns_succ, turns_zero, Action.andThen_skip, turn, runWords, hi]
    rfl
  have hb : bounds m.stack = .ok (0, 2, []) := rfl
  have opens : Opens note (runWords note 1) (.loop (some ["i"])) m () (some 1) ["i"] m' () :=
    @Opens.turn Unit note (runWords note 1) ["i"] m () 0 2 [] 1 { m with stack := [.int 0] } () hb
      (by decide) first
  have taken : Dispatches note 1 (items ["i"]) m' () [] (.word "i") m' () := by
    rw [hi]
    exact .here
  have whole : Dispatches note 2 [.loop (some ["i"])] m () ([] ++ (some (1 : Int)).toList) (.word "i")
      m' () := .within opens taken
  obtain ⟨kept, -, nested, -⟩ := loops_kept_and_nested note nestingLimit m ()
  exact ⟨⟨m', whole, rfl, nested _ _ _ _ _ _ whole⟩, kept _, by decide +kernel, kept _⟩

end FlatForth
