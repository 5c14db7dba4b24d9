import FlatForth.Proofs.Calls
import FlatForth.Proofs.Contract
import FlatForth.Proofs.Folding
import FlatForth.Proofs.Operands
import FlatForth.Proofs.Reading

/-!
Well-formed machines. What calls from outside leave is well formed, however they end
(`wellFormed_after`). On such a machine a reference always names a variable, so nothing but an
integer can turn out to be no variable.
-/

namespace FlatForth

/-- The results of `f` are integers or among its arguments, and its faults complain of no cell that
is no variable. -/
structure StackFunction.Tame (f : StackFunction) : Prop where
  cells : ∀ {args cells}, f.apply args = .ok cells → ∀ c ∈ cells, c.isInt = true ∨ c ∈ args
  faults : ∀ {args why}, f.apply args = .error why → ∀ c, why ≠ .notVariable c

namespace StackFunction

theorem binary_tame {f : Int → Int → Except Fault Int}
    (h : ∀ a b c, f a b ≠ .error (.notVariable c)) : (binary f).Tame := by
  constructor
  · intro args cells hok c hc
    simp only [binary] at hok
    split at hok
    · rename_i a b
      cases hn : f b a with
      | error why => simp [hn, Except.map] at hok
      | ok n =>
        obtain rfl : [Cell.int n] = cells := by simpa [hn, Except.map] using hok
        exact .inl (List.mem_singleton.1 hc ▸ rfl)
    · cases hok
      exact absurd hc List.not_mem_nil
  · rintro args why herr c rfl
    obtain ⟨a, b, -, hfails⟩ := binary_eq_error herr
    exact h a b c hfails

theorem binary_ok_tame (f : Int → Int → Int) : (binary fun a b => .ok (f a b)).Tame := by
  refine binary_tame fun a b c h => ?_
  cases h

theorem shuffle_tame {arity : Nat} {f : List Cell → List Cell} (h : ∀ args, f args ⊆ args) :
    (shuffle arity f).Tame where
  cells := by
    rintro args _ ⟨⟩ c hc
    exact .inr (h args hc)
  faults := nofun

end StackFunction

theorem tame_of_builtin {w : Word} {f : StackFunction}
    (h : builtins.find? w = some (.primitive (.function f))) : f.Tame := by
  refine function_of_builtin h StackFunction.binary_ok_tame ?_ ?_ ?_ ?_ ?_
  · exact StackFunction.binary_tame fun a b c => by split <;> simp
  · exact StackFunction.shuffle_tame fun args => by simp
  · exact StackFunction.shuffle_tame List.nil_subset
  · exact StackFunction.shuffle_tame fun args => List.Subset.refl args
  · exact StackFunction.shuffle_tame fun args => by simp [(List.tail_sublist args).subset]

namespace Machine

/-- Every cell is an integer or a reference to a declared variable that can be called; names are
folded, and those in the dictionary are no numerals; definitions have folded words and no semicolon;
and functions are `Tame`. -/
structure WellFormed (m : Machine) : Prop where
  cells : ∀ c ∈ m.stack, c.isInt = true ∨
    ∃ name, c = .ref name ∧ m.variables.contains name = true ∧ name ∉ Keyword.openers
  names : ∀ w, m.dictionary.contains w = true → isNumeral w = false ∧ Text.fold w = w
  declared : ∀ w, m.variables.contains w = true → Text.fold w = w
  bodies : ∀ w body, m.dictionary.find? w = some (.words body) →
    Keyword.endDefine ∉ body ∧ ∀ v ∈ body, Text.fold v = v
  functions : ∀ w f, m.dictionary.find? w = some (.primitive (.function f)) → f.Tame

theorem fresh_wellFormed : fresh.WellFormed where
  cells := nofun
  names w hw := by
    obtain ⟨e, he⟩ := Table.find?_of_contains hw
    have hall : ∀ e ∈ builtins.names, isNumeral e = false ∧ Text.fold e = e := by decide +kernel
    exact hall w (List.mem_map.2 ⟨(w, e), Table.mem_of_find? he, rfl⟩)
  declared := nofun
  bodies w body hw := absurd hw (find?_builtins_ne_words w body)
  functions _ _ hf := tame_of_builtin hf

namespace WellFormed

variable {m : Machine}

theorem restack (h : m.WellFormed) {stack : List Cell}
    (hs : ∀ c ∈ stack, c.isInt = true ∨ c ∈ m.stack) :
    WellFormed { m with stack := stack } where
  cells c hc := (hs c hc).elim .inl (h.cells c)
  names := h.names
  declared := h.declared
  bodies := h.bodies
  functions := h.functions

theorem refer (h : m.WellFormed) {w : Word} (hw : w ∉ Keyword.openers)
    (hv : m.variables.contains w = true) : (m.push (.ref w)).WellFormed where
  cells c hc := by
    rcases List.mem_cons.1 hc with rfl | hc
    · exact .inr ⟨w, rfl, hv, hw⟩
    · exact h.cells c hc
  names := h.names
  declared := h.declared
  bodies := h.bodies
  functions := h.functions

theorem set (h : m.WellFormed) {name : Word} (hf : Text.fold name = name) (n : Int) :
    (m.set name n).WellFormed where
  cells c hc := (h.cells c hc).imp_right fun ⟨w, hw, hv, ho⟩ =>
    ⟨w, hw, (m.keepsNames_set name n).variables w hv, ho⟩
  names := h.names
  declared w hw := by
    rw [Machine.set, Table.contains_insert, Bool.or_eq_true, decide_eq_true_eq] at hw
    rcases hw with rfl | hw
    · exact hf
    · exact h.declared w hw
  bodies := h.bodies
  functions := h.functions

theorem define (h : m.WellFormed) {name : Word} {body : List Word} (hn : isNumeral name = false)
    (hf : Text.fold name = name) (hend : Keyword.endDefine ∉ body)
    (hbody : ∀ v ∈ body, Text.fold v = v) : (m.define name (.words body)).WellFormed where
  cells := h.cells
  names w hw := by
    rw [Machine.define, Table.contains_insert, Bool.or_eq_true, decide_eq_true_eq] at hw
    rcases hw with rfl | hw
    · exact ⟨hn, hf⟩
    · exact h.names w hw
  declared := h.declared
  bodies w ws hw := by
    rcases Table.of_find?_insert hw with he | hw
    · cases he
      exact ⟨hend, hbody⟩
    · exact h.bodies w ws hw
  functions w f hw := by
    rcases Table.of_find?_insert hw with he | hw
    · cases he
    · exact h.functions w f hw

theorem isInt_of_not_declared (h : m.WellFormed) {c : Cell} (hc : c ∈ m.stack)
    (hd : m.declared? c = none) : c.isInt = true := by
  rcases h.cells c hc with hint | ⟨name, rfl, hv, -⟩
  · exact hint
  · obtain ⟨n, hn⟩ := Table.find?_of_contains hv
    simp [declared?, hn] at hd

end WellFormed

end Machine

/-- The machine is well formed, and a cell that the failure calls no variable is an integer. -/
structure Ending.WellFormed (e : Ending) : Prop where
  machine : e.machine.WellFormed
  failure : ∀ c, e.failure = some (.fault (.notVariable c)) → c.isInt = true

namespace Machine.WellFormed

variable {m : Machine} (h : m.WellFormed)

include h

theorem done : m.done.WellFormed := ⟨h, nofun⟩

theorem fault {f : Fault} (hf : ∀ c, f ≠ .notVariable c) : (m.fault f).WellFormed := by
  refine ⟨h, ?_⟩
  rintro c ⟨⟩
  exact absurd rfl (hf c)

theorem stop_notVariable {c : Cell} (hc : c ∈ m.stack) (hd : m.declared? c = none) :
    (m.stop (notVariable c)).WellFormed := by
  refine ⟨h, fun d hw => ?_⟩
  have hw : notVariable c = .fault (.notVariable d) := Option.some.inj hw
  unfold notVariable at hw
  split at hw
  · cases hw
    exact h.isInt_of_not_declared hc hd
  · cases hw

theorem push_int (n : Int) : (m.push (.int n)).WellFormed := by
  refine h.restack fun c hc => ?_
  rcases List.mem_cons.1 hc with rfl | hc
  · exact .inl rfl
  · exact .inr hc

theorem apply {f : StackFunction} (hf : f.Tame) : (m.apply f).WellFormed := by
  rcases m.apply_cases f with ⟨e, he, h'⟩ | ⟨args, below, ha, hrun⟩
  · rw [h']
    rcases arguments_eq_error he with rfl | ⟨c, -, rfl⟩
    · exact h.fault nofun
    · exact h.fault nofun
  · have hstack := (supplies_of_arguments ha).stack_eq
    rcases hrun with ⟨e, he, h'⟩ | ⟨cells, hcells, h'⟩
    · have hbelow : WellFormed { m with stack := below } :=
        h.restack fun c hc => .inr (hstack ▸ List.mem_append_right args hc)
      rw [h']
      exact hbelow.fault (hf.faults he)
    · rw [h']
      refine (h.restack fun c hc => ?_).done
      rcases List.mem_append.1 hc with hc | hc
      · refine (hf.cells hcells c (List.mem_reverse.1 hc)).imp_right fun hc => ?_
        exact hstack ▸ List.mem_append_left below hc
      · exact .inr (hstack ▸ List.mem_append_right args hc)

theorem pushInnerIndex : m.pushInnerIndex.WellFormed := by
  rcases m.pushInnerIndex_cases with h' | ⟨i, h'⟩
  · exact h' ▸ h.fault nofun
  · exact h' ▸ (h.push_int i).done

theorem pushOuterIndex : m.pushOuterIndex.WellFormed := by
  rcases m.pushOuterIndex_cases with h' | ⟨j, h'⟩
  · exact h' ▸ h.fault nofun
  · exact h' ▸ (h.push_int j).done

theorem fetch : m.fetch.WellFormed := by
  rcases m.fetch_cases with h' | ⟨c, below, hs, hd, h'⟩ | ⟨name, n, below, hs, -, h'⟩
  · exact h' ▸ h.fault nofun
  · exact h' ▸ h.stop_notVariable (hs ▸ List.mem_cons_self) hd
  · rw [h']
    refine (h.restack fun d hd => ?_).done
    rcases List.mem_cons.1 hd with rfl | hd
    · exact .inl rfl
    · exact .inr (hs ▸ List.mem_cons_of_mem _ hd)

theorem store : m.store.WellFormed := by
  rcases m.store_cases with h' | ⟨c, below, hs, hd, h'⟩ | ⟨name, value, below, -, h'⟩ |
    ⟨name, n, below, hs, hname, h'⟩
  · exact h' ▸ h.fault nofun
  · exact h' ▸ h.stop_notVariable (hs ▸ List.mem_cons_self) hd
  · exact h' ▸ h.fault nofun
  · have hbelow : WellFormed { m with stack := below } := h.restack fun d hd =>
      .inr (hs ▸ List.mem_cons_of_mem _ (List.mem_cons_of_mem _ hd))
    exact h' ▸ (hbelow.set (h.declared name hname) n).done

theorem primitive {w : Word} {p : Primitive} (hw : m.dictionary.find? w = some (.primitive p)) :
    (p.run m).WellFormed := by
  cases p with
  | function f => exact h.apply (h.functions w f hw)
  | innerIndex => exact h.pushInnerIndex
  | outerIndex => exact h.pushOuterIndex
  | fetch => exact h.fetch
  | store => exact h.store

end Machine.WellFormed

/-- Folded words keep well-formed machines well formed. -/
def wellFormed : Contract where
  Holds := Machine.WellFormed
  Queue ws := ∀ w ∈ ws, Text.fold w = w
  Takes item := ∃ w rest, Item.Reads w rest item ∧ ∀ v ∈ rest, Text.fold v = v
  Stops why := ∀ c, why = .fault (.notVariable c) → c.isInt = true

theorem fold_of_takes {item : Item} (h : wellFormed.Takes item) :
    ∀ v ∈ item.content, Text.fold v = v := by
  obtain ⟨w, rest, hread, hrest⟩ := h
  exact fun v hv => hrest v (hread.content_sublist.subset hv)

theorem wellFormed_closed : wellFormed.Closed where
  restack h hs := Machine.WellFormed.restack h hs
  loops h _ := ⟨h.cells, h.names, h.declared, h.bodies, h.functions⟩
  refer := by
    rintro m w h ⟨v, rest, hread, -⟩ hv
    cases hread with
    | word hw => exact h.refer hw hv
  primitive h hw :=
    have he := Machine.WellFormed.primitive h hw
    ⟨he.machine, fun _ hwhy c hc => he.failure c (hwhy.trans (congrArg some hc))⟩
  define := by
    intro m name body h htakes
    have hfold := fold_of_takes htakes
    obtain ⟨v, rest, hread, -⟩ := htakes
    cases hread with
    | define hn hc =>
      exact h.define hn (hfold name List.mem_cons_self)
        (definitionMarkers.closer_not_mem_first rfl _)
        fun w hw => hfold w (List.mem_cons_of_mem name hw)
  declare h htakes := h.set (fold_of_takes htakes _ (List.mem_singleton_self _)) 0
  call h _ hw := (h.bodies _ _ hw).2
  branch htakes :=
    ⟨fun w hw => fold_of_takes htakes w (List.mem_append_left _ hw),
      fun w hw => fold_of_takes htakes w (List.mem_append_right _ hw)⟩
  loop htakes := fold_of_takes htakes
  stops _ _ h := fun c hc => absurd hc (h.ne_notVariable c)
  items h item hitem := by
    obtain ⟨w, rest, hsub, hread⟩ := reads_of_mem_items hitem
    exact ⟨w, rest, hread, fun v hv => h v (hsub.subset (List.mem_cons_of_mem w hv))⟩
  deep := nofun

theorem Call.run_wellFormed (call : Call) {m : Machine} (h : m.WellFormed) :
    (call.run m).WellFormed := by
  have hk := wellFormed_closed
  have inner (depth : Nat) (ws : List Word) (hws : wellFormed.Queue ws) :
      wellFormed.Safe (runWords (fun (_ : Unit) _ => ()) depth ws) :=
    Contract.runWords_safe hk hws
  have item (w : Word) (source : Source) : wellFormed.Takes (Item.read w source.queue).1 :=
    ⟨w, source.queue, Item.reads_read w source.queue, fun _ => fold_of_mem_queue⟩
  have ends : wellFormed.Holds (call.run m).machine ∧
      ∀ why, (call.run m).failure = some why → wellFormed.Stops why := by
    cases call with
    | evaluate room source => exact inner _ source.queue (fun _ => fold_of_mem_queue) m () h
    | interpret room w source =>
      exact Contract.perform_safe hk.toLawful (inner room) (item w source) m () h
    | obey room w source =>
      exact Contract.perform_safe hk.toLawful (inner room) (item w source) m () h
  exact ⟨ends.1, fun c hc => ends.2 _ hc c rfl⟩

theorem wellFormed_after (calls : List Call) : (Machine.after calls).WellFormed := by
  induction calls using List.reverseRecOn with
  | nil => exact Machine.fresh_wellFormed
  | append_singleton calls call ih =>
    rw [Machine.after_concat]
    exact (call.run_wellFormed ih).machine

/-- The cell that `@` or `!` calls no variable is the one on top. -/
theorem top_of_notVariable {p : Primitive} (hp : p ∈ [Primitive.fetch, .store]) {m : Machine}
    {c : Cell} (h : (p.run m).failure = some (.fault (.notVariable c))) :
    ∃ below, m.stack = c :: below := by
  have top {d : Cell} {below : List Cell} (hs : m.stack = d :: below)
      (hd : (m.stop (Machine.notVariable d)).failure = some (.fault (.notVariable c))) :
      ∃ below, m.stack = c :: below := by
    have hd : Machine.notVariable d = .fault (.notVariable c) := Option.some.inj hd
    unfold Machine.notVariable at hd
    split at hd
    · cases hd
      exact ⟨below, hs⟩
    · cases hd
  have hp : p = .fetch ∨ p = .store := by simpa using hp
  rcases hp with rfl | rfl
  · rw [Primitive.run] at h
    rcases m.fetch_cases with h' | ⟨d, below, hs, -, h'⟩ | ⟨name, n, below, -, -, h'⟩
    · rw [h'] at h
      cases h
    · exact top hs (h' ▸ h)
    · rw [h'] at h
      cases h
  · rw [Primitive.run] at h
    rcases m.store_cases with h' | ⟨d, below, hs, -, h'⟩ | ⟨name, value, below, -, h'⟩ |
      ⟨name, n, below, -, -, h'⟩
    · rw [h'] at h
      cases h
    · exact top hs (h' ▸ h)
    · rw [h'] at h
      cases h
    · rw [h'] at h
      cases h

/-- A machine `after` any calls is well formed, no loop runs on it, and it keeps its names through
any further calls. When `@` or `!` fails on it for a cell that is no variable, this is an integer on
top of the stack; when a call fails so, it is an integer. -/
theorem after_calls_wellFormed (calls : List Call) :
    (Machine.after calls).WellFormed ∧ (Machine.after calls).loops = [] ∧
    (∀ more, (Machine.after calls).KeepsNames (Machine.after (calls ++ more))) ∧
    (∀ p ∈ [Primitive.fetch, .store], ∀ c,
      (p.run (Machine.after calls)).failure = some (.fault (.notVariable c)) →
        ∃ n below, c = .int n ∧ (Machine.after calls).stack = .int n :: below) ∧
    ∀ (call : Call) c,
      (call.run (Machine.after calls)).failure = some (.fault (.notVariable c)) →
        c.isInt = true := by
  have hm := wellFormed_after calls
  refine ⟨hm, after_loops calls, after_keepsNames calls, fun p hp c hc => ?_,
    fun call c hc => (call.run_wellFormed hm).failure c hc⟩
  obtain ⟨below, hs⟩ := top_of_notVariable hp hc
  have hint : c.isInt = true := by
    have hp : p = .fetch ∨ p = .store := by simpa using hp
    rcases hp with rfl | rfl
    · exact hm.fetch.failure c hc
    · exact hm.store.failure c hc
  cases c with
  | int n => exact ⟨n, below, rfl, hs⟩
  | ref name => cases hint
  | text t => cases hint

/-- A word that declares a variable, and a definition that fails; then `@` on the integer 5. -/
theorem after_calls_wellFormed_fetch :
    let calls : List Call := [.evaluate nestingLimit (.text ": V VARIABLE X ; V X 5 : W 7"),
      .interpret nestingLimit "i" (.words ["X"])]
    (Primitive.fetch.run (Machine.after calls)).failure = some (.fault (.notVariable (.int 5))) ∧
      ∃ n below, Cell.int 5 = .int n ∧ (Machine.after calls).stack = .int n :: below := by
  intro calls
  have hfetch : (Primitive.fetch.run (Machine.after calls)).failure =
      some (.fault (.notVariable (.int 5))) := by decide +kernel
  obtain ⟨-, -, -, hfails, -⟩ := after_calls_wellFormed calls
  exact ⟨hfetch, hfails .fetch List.mem_cons_self (.int 5) hfetch⟩

end FlatForth
