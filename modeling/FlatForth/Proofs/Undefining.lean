import FlatForth.Proofs.ByItself
import FlatForth.Proofs.SelfContained
import FlatForth.Proofs.WellFormed
import FlatForth.Watching

/-!
Runs that define nothing. A definition takes both a colon and a semicolon out of the words that are
run, so words that lack one of the two define nothing, and neither do parts of them
(`Undefining`). Where no stored body has a semicolon this holds of all that is run on the way,
and the dictionary stays as it is (`runWords_dictionary`); and as every colon taken up fails, it is
the last word that is taken up (`Dispatches.fails`).
-/

namespace FlatForth

variable {σ : Type} {note : σ → Event → σ}

/-! A failure on the way is how the whole run ends. -/

theorem Opens.fails {inner : List Word → Action σ} {item : Item} {m m' : Machine} {s s' : σ}
    {index : Option Int} {body : List Word} {why : Failure}
    (h : Opens note inner item m s index body m' s')
    (hf : (inner body m' s').failure = some why) :
    (perform note inner item m s).failure = some why ∧
      (perform note inner item m s).seen = (inner body m' s').seen := by
  cases h with
  | @word w _ _ _ hv hw =>
    have hcall : perform note inner (.word w) m s = inner body m s := by
      simp [perform, call, hv, hw, enter]
    exact ⟨hcall ▸ hf, hcall ▸ rfl⟩
  | @branch whenTrue whenFalse closed _ _ n below v body ho hp =>
    have hrun : perform note inner (.branch whenTrue whenFalse closed) m s =
        inner (v :: body) { m with stack := below }
          (if closed then s else note s .unclosedBranch) := by
      simp [perform, runBranch, ho, hp, runPart]
    exact ⟨hrun ▸ hf, hrun ▸ rfl⟩
  | @turn _ _ _ start limit below n m₁ _ hb hn ht =>
    obtain ⟨left, hl⟩ : ∃ left, (limit - start).toNat = n + (left + 1) :=
      ⟨(limit - start).toNat - n - 1, by omega⟩
    have hturn : (FlatForth.turn inner body (start + n) m₁ s').failure = some why := hf
    have hrun : perform note inner (.loop (some body)) m s =
        FlatForth.turn inner body (start + n) m₁ s' := by
      simp only [perform, runLoop, hb, hl]
      rw [turns_add, Action.andThen_of_done ht, turns_succ, Action.andThen_of_failure hturn]
    exact ⟨hrun ▸ hf, hrun ▸ rfl⟩

theorem Dispatches.fails {depth : Nat} {its : List Item} {m m' : Machine} {s s' s'' : σ}
    {turns : List Int} {item : Item} {why : Failure}
    (h : Dispatches note (depth + 1) its m s turns item m' s')
    (hf : ∀ inner, (step note inner item m' s').failure = some why ∧
      (step note inner item m' s').seen = s'') :
    (runItems note (runWords note depth) its m s).failure = some why ∧
      (runItems note (runWords note depth) its m s).seen = s'' := by
  generalize hd : depth + 1 = d at h
  induction h generalizing depth with
  | here =>
    rw [runItems_cons, Action.andThen_of_failure (hf _).1]
    exact hf _
  | later hs _ ih =>
    obtain rfl := Nat.succ.inj hd
    rw [runItems_cons, Action.andThen_of_done hs]
    exact ih hf rfl
  | @within d first rest m s index body m₁ s₁ _ item m₂ s₂ ho hb ih =>
    obtain rfl := Nat.succ.inj hd
    cases depth with
    | zero => cases hb
    | succ depth =>
      obtain ⟨hfail, hseen⟩ := ih hf rfl
      obtain ⟨hfirst, hlast⟩ := ho.fails hfail
      have hstep : (step note (runWords note (depth + 1)) first m s).failure = some why := hfirst
      rw [runItems_cons, Action.andThen_of_failure hstep]
      exact ⟨hstep, hlast.trans hseen⟩

/-- No definition is read out of the words, for want of a colon or of a semicolon. -/
def Undefining (ws : List Word) : Prop := Keyword.define ∉ ws ∨ Keyword.endDefine ∉ ws

theorem Undefining.sublist {ws vs : List Word} (h : Undefining ws) (hs : vs.Sublist ws) :
    Undefining vs := h.imp (fun h hv => h (hs.subset hv)) fun h hv => h (hs.subset hv)

def Table.EndFree (d : Table Entry) : Prop :=
  ∀ w body, d.find? w = some (.words body) → Keyword.endDefine ∉ body

theorem Machine.WellFormed.endFree {m : Machine} (h : m.WellFormed) : m.dictionary.EndFree :=
  fun w body hw => (h.bodies w body hw).1

theorem Table.EndFree.insert {d : Table Entry} (h : d.EndFree) {name : Word} {body : List Word}
    (hb : Keyword.endDefine ∉ body) : (d.insert name (.words body)).EndFree := by
  intro w ws hw
  rcases of_find?_insert hw with he | hw
  · cases he
    exact hb
  · exact h w ws hw

namespace Item

theorem Reads.not_undefining {w : Word} {rest : List Word} {name : Word} {body : List Word}
    (h : Reads w rest (Item.define name body)) : ¬Undefining (w :: rest) := by
  cases h with
  | define _ hc =>
    have hend := definitionMarkers.closer_mem_of_closed hc
    rintro (hw | hw)
    · exact hw List.mem_cons_self
    · exact hw (List.mem_cons_of_mem _ (List.mem_cons_of_mem _ hend))

theorem Reads.misdefine_of_opening {w : Word} {rest : List Word} {item : Item}
    (h : Reads w rest item) (hw : Undefining (w :: rest)) (ho : item.opening = Keyword.define) :
    ∃ why, item = Item.misdefine why := by
  cases h with
  | word hn =>
    obtain rfl : w = Keyword.define := ho
    exact absurd List.mem_cons_self hn
  | define hn hc => exact absurd hw (Reads.define hn hc).not_undefining
  | misdefine why => exact ⟨why, rfl⟩
  | declare => exact absurd (show Keyword.declare = Keyword.define from ho) (by decide)
  | branch => exact absurd (show Keyword.branch = Keyword.define from ho) (by decide)
  | loop => exact absurd (show Keyword.loop = Keyword.define from ho) (by decide)

end Item

/-- `Undefining` words leave the dictionary as it is. -/
def undefining (d : Table Entry) : Contract where
  Holds m := m.dictionary = d
  Queue := Undefining
  Takes item := ∃ w rest, Item.Reads w rest item ∧ Undefining (w :: rest)
  Stops _ := True

theorem undefining_closed {d : Table Entry} (hd : d.EndFree) : (undefining d).Closed where
  restack h _ := h
  loops h _ := h
  refer h _ _ := h
  primitive h _ := ⟨(primitive_dictionary _ _).trans h, fun _ _ => trivial⟩
  define := by
    rintro m name body - ⟨w, rest, hread, hw⟩
    exact absurd hw hread.not_undefining
  declare h _ := h
  call := by
    rintro m w body rfl - hw
    exact .inr (hd w body hw)
  branch := by
    rintro whenTrue whenFalse closed ⟨w, rest, hread, hw⟩
    have hcontent := (hw.sublist (List.sublist_cons_self w rest)).sublist hread.content_sublist
    exact ⟨hcontent.sublist (List.sublist_append_left whenTrue whenFalse),
      hcontent.sublist (List.sublist_append_right whenTrue whenFalse)⟩
  loop := by
    rintro body ⟨w, rest, hread, hw⟩
    exact (hw.sublist (List.sublist_cons_self w rest)).sublist hread.content_sublist
  stops _ _ _ := trivial
  items h item hitem := by
    obtain ⟨w, rest, hsub, hread⟩ := reads_of_mem_items hitem
    exact ⟨w, rest, hread, h.sublist hsub⟩
  deep := trivial

section

variable {m : Machine} (hm : m.dictionary.EndFree)

include hm

theorem runWords_dictionary {ws : List Word} (h : Undefining ws) (depth : Nat) (s : σ) :
    (runWords note depth ws m s).machine.dictionary = m.dictionary :=
  (Contract.runWords_safe (undefining_closed hm) h m s rfl).1

theorem interpret_dictionary {w : Word} (hw : w ∉ Keyword.openers) (room : Nat) (queue : List Word)
    (s : σ) :
    (interpret note room w queue m s).machine.dictionary = m.dictionary := by
  have hk := undefining_closed hm
  have inner (ws : List Word) (hws : Undefining ws) :
      (undefining m.dictionary).Safe (runWords note room ws) :=
    Contract.runWords_safe hk hws
  have hne : Keyword.define ∉ [w] := fun h =>
    hw (List.mem_singleton.1 h ▸ List.mem_cons_self)
  have htakes : (undefining m.dictionary).Takes (Item.read w queue).1 := by
    rw [Item.read_word hw]
    exact ⟨w, [], .word hw, .inl hne⟩
  exact (Contract.perform_safe hk.toLawful inner htakes m _ rfl).1

theorem dispatched_colon {depth : Nat} {ws : List Word} (h : Undefining ws) {m' : Machine}
    {s s' : σ} {turns : List Int} {item : Item}
    (hd : Dispatches note (depth + 1) (items ws) m s turns item m' s')
    (ho : item.opening = Keyword.define) :
    (∃ why, (runWords note (depth + 1) ws m s).failure = some (.fault (.misdefinition why))) ∧
      (runWords note (depth + 1) ws m s).seen =
        note s' (.interpreting Keyword.define m'.stack) := by
  have hk := undefining_closed hm
  obtain ⟨-, w, rest, hread, hw⟩ := Contract.holds_of_dispatches hk hd rfl (hk.items h)
  obtain ⟨why, rfl⟩ := hread.misdefine_of_opening hw ho
  have fails (inner : List Word → Action σ) :
      (step note inner (.misdefine why) m' s').failure = some (.fault (.misdefinition why)) ∧
        (step note inner (.misdefine why) m' s').seen =
          note s' (.interpreting Keyword.define m'.stack) := ⟨rfl, rfl⟩
  obtain ⟨hfail, hseen⟩ := hd.fails fails
  exact ⟨⟨why, hfail⟩, hseen⟩

end

/-- After any calls the dictionary is `EndFree`: no definition has a semicolon among its words. On a
machine with such a dictionary, a source without semicolons leaves the dictionary as it was; a colon
that is taken up in its run is the last word that is, and the run fails there with a misdefinition.
The words of a definition leave the dictionary as it was at every depth, and so does a call of it.
-/
theorem running_defines_nothing (room : Nat) :
    (∀ calls, (Machine.after calls).dictionary.EndFree) ∧
    ∀ m : Machine, m.dictionary.EndFree →
      (∀ source : Source, Keyword.endDefine ∉ source.queue →
        (m.evaluate room source).machine.dictionary = m.dictionary ∧
        ∀ es stack, es ++ [.interpreting Keyword.define stack] <+:
            (evaluate recount room source m []).seen →
          (evaluate recount room source m []).seen = es ++ [.interpreting Keyword.define stack] ∧
          ∃ why, (m.evaluate room source).failure = some (.fault (.misdefinition why))) ∧
      ∀ w body, m.dictionary.find? w = some (.words body) →
        (∀ depth, (m.runWithin depth body).machine.dictionary = m.dictionary) ∧
        (w ∉ Keyword.openers →
          ∀ queue, (interpret recount room w queue m []).machine.dictionary = m.dictionary) := by
  refine ⟨fun calls => (wellFormed_after calls).endFree, fun m hm => ⟨fun source hs => ?_, ?_⟩⟩
  · refine ⟨runWords_dictionary hm (.inr hs) (room + 1) (), fun es stack he => ?_⟩
    obtain ⟨turns, item, m', hd, ho, rfl⟩ := (dispatches_iff List.nil_prefix).1 he
    obtain ⟨⟨why, hfail⟩, hseen⟩ := dispatched_colon hm (.inr hs) hd ho
    exact ⟨hseen, why, evaluate_toEnding recount room source m [] ▸ hfail⟩
  · intro w body hbody
    exact ⟨fun depth => runWords_dictionary hm (.inr (hm w body hbody)) depth (),
      fun hw queue => interpret_dictionary hm hw room queue []⟩

/-- A word that declares a variable, and one that comes to a colon in a branch. -/
theorem running_defines_nothing_called :
    let m := (Machine.fresh.define "v" (.words ["variable", "x"])).define "c"
      (.words ["1", "if", ":", "y", "then", "3"])
    ((interpret recount nestingLimit "v" [] m []).machine.variables.contains "x" = true ∧
      (interpret recount nestingLimit "v" [] m []).machine.dictionary = m.dictionary) ∧
    (evaluate recount nestingLimit (.text "c 4") m []).seen = [.interpreting "c" [],
      .interpreting "1" [], .interpreting "if" [.int 1], .interpreting ":" []] ∧
    ∃ why, (m.evaluate nestingLimit (.text "c 4")).failure = some (.fault (.misdefinition why)) := by
  intro m
  obtain ⟨-, kept⟩ := running_defines_nothing nestingLimit
  have hm : m.dictionary.EndFree :=
    (Machine.fresh_wellFormed.endFree.insert (by decide)).insert (by decide)
  obtain ⟨evaluated, called⟩ := kept m hm
  have hv : m.dictionary.find? "v" = some (.words ["variable", "x"]) := by
    simp [m, Machine.define, Table.find?_insert]
  have hx : (interpret recount nestingLimit "v" [] m []).machine.variables.contains "x" = true := by
    decide +kernel
  have hs : Keyword.endDefine ∉ (Source.text "c 4").queue := by decide +kernel
  have hseen : [.interpreting "c" [], .interpreting "1" [], .interpreting "if" [.int 1]] ++
      [.interpreting Keyword.define []] <+:
        (evaluate recount nestingLimit (.text "c 4") m []).seen := by decide +kernel
  obtain ⟨-, stopped⟩ := evaluated (.text "c 4") hs
  exact ⟨⟨hx, (called "v" _ hv).2 (by decide) []⟩, stopped _ _ hseen⟩

end FlatForth
