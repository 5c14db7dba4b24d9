import FlatForth.Proofs.ByItself
import FlatForth.Proofs.Contract
import FlatForth.Proofs.Depth
import FlatForth.Proofs.Folding
import FlatForth.Proofs.Operands
import FlatForth.Proofs.SelfContained
import Mathlib.Logic.Function.Iterate

/-!
Functions of the host. A call of such a function ends as `Machine.Serves` says (`serves_apply`), and
every word that folds to the name under which one is installed calls it, at whatever depth the word
is met (`installed_serves`). The function is there as long as the code that runs neither defines a
word of that name nor declares a variable (`offers_of_dispatches`).
-/

namespace FlatForth

variable {σ : Type}

/-- `e` is how a call ends of a function `f` of the host that takes `n` cells. If the stack supplies
them, all of them integers where `integers` is set, the call succeeds: they are gone, and what `f`
gives back for them is pushed, which is nothing, an integer, or the cells of a row from left to
right. If not, the call is refused and the machine stays as it was. -/
structure Machine.Serves (m : Machine) (n : Nat) (integers : Bool) (f : List Cell → Returned)
    (e : Ending) : Prop where
  runs_iff : e.failure = none ↔ ∃ args below, Supplies integers n m.stack args below
  nothing : ∀ args below, Supplies integers n m.stack args below → f args = .nothing →
    e = Machine.done { m with stack := below }
  integer : ∀ args below k, Supplies integers n m.stack args below → f args = .integer k →
    e = Machine.done { m with stack := .int k :: below }
  row : ∀ args below cells, Supplies integers n m.stack args below → f args = .row cells →
    e = Machine.done { m with stack := cells.reverse ++ below }
  underflow_iff : e = m.fault .underflow ↔ m.stack.length < n
  notNumber_iff : ∀ c, e = m.fault (.notNumber c) ↔ integers = true ∧ Obstructs n m.stack c

namespace Machine

/-- `name` is no variable of `m`, and `f` stands under it in the dictionary. -/
structure Offers (m : Machine) (name : Word) (f : StackFunction) : Prop where
  undeclared : m.variables.contains name = false
  found : m.dictionary.find? name = some (.primitive (.function f))

variable {m : Machine} {name : Word} {f : StackFunction}

theorem offers_install {w : Word} (h : m.variables.contains (Text.fold w) = false) :
    (m.install w (.primitive (.function f))).Offers (Text.fold w) f where
  undeclared := h
  found := by simp [install, define, Table.find?_insert]

theorem find?_install {w v : Word} (h : v ≠ Text.fold w) (e : Entry) :
    (m.install w e).dictionary.find? v = m.dictionary.find? v := by
  simp [install, define, Table.find?_insert, h]

theorem Offers.step (h : m.Offers name f) (note : σ → Event → σ) (inner : List Word → Action σ)
    (s : σ) : (FlatForth.step note inner (.word name) m s).toEnding = m.apply f := by
  simp [FlatForth.step, perform, call, h.undeclared, h.found, enter, Action.quiet, Primitive.run]

theorem serves_apply (m : Machine) (n : Nat) (integers : Bool) (f : List Cell → Returned) :
    m.Serves n integers f (m.apply (.ofHost n integers f)) := by
  have short (h : m.stack.length < n) :
      m.apply (.ofHost n integers f) = m.fault .underflow := apply_short h
  have supplied (args below : List Cell) (h : Supplies integers n m.stack args below) :
      m.apply (.ofHost n integers f) =
        done { m with stack := (f args).cells.reverse ++ below } := apply_eq_done h rfl
  have obstructed (c : Cell) (hi : integers = true) (h : Obstructs n m.stack c) :
      m.apply (.ofHost n integers f) = m.fault (.notNumber c) := apply_obstructs hi h
  -- The three ways to end exclude each other, so the ending tells which of the cases it was.
  constructor
  case runs_iff =>
    constructor
    · intro hruns
      rcases arguments_answer integers n m.stack with h | h | ⟨hi, c, h⟩
      · simp [short h, fault, stop] at hruns
      · exact h
      · simp [obstructed c hi h, fault, stop] at hruns
    · rintro ⟨args, below, h⟩
      rw [supplied args below h]
      rfl
  case nothing =>
    intro args below h hf
    rw [supplied args below h, hf]
    rfl
  case integer =>
    intro args below k h hf
    rw [supplied args below h, hf]
    rfl
  case row =>
    intro args below cells h hf
    rw [supplied args below h, hf]
    rfl
  case underflow_iff =>
    refine ⟨fun hfault => ?_, short⟩
    rcases arguments_answer integers n m.stack with h | ⟨args, below, h⟩ | ⟨hi, c, h⟩
    · exact h
    · simp [supplied args below h, done, fault, stop] at hfault
    · simp [obstructed c hi h, fault, stop] at hfault
  case notNumber_iff =>
    refine fun c => ⟨fun hfault => ?_, fun h => obstructed c h.1 h.2⟩
    rcases arguments_answer integers n m.stack with h | ⟨args, below, h⟩ | ⟨hi, d, h⟩
    · simp [short h, fault, stop] at hfault
    · simp [supplied args below h, done, fault, stop] at hfault
    · obtain rfl : d = c := by simpa [obstructed d hi h, fault, stop] using hfault
      exact ⟨hi, h⟩

end Machine

/-! Code that lets a name alone. -/

/-- The words that an item keeps to be run, now or when the word it defines is called. -/
def Item.bodies : Item → List (List Word)
  | define _ body | loop (some body) => [body]
  | branch whenTrue whenFalse _ => [whenTrue, whenFalse]
  | _ => []

/-- The item defines `name`, or declares it a variable. -/
def Item.Renews (name : Word) : Item → Prop
  | define v _ => v = name
  | declare v => v = some name
  | _ => False

/-- No item of the words `Renews` the name, nor does one of the bodies in them. -/
inductive Sparing (name : Word) : List Word → Prop
  | intro {ws : List Word} : (∀ item ∈ items ws, ¬item.Renews name) →
      (∀ item ∈ items ws, ∀ body ∈ item.bodies, Sparing name body) → Sparing name ws

def Table.Sparing (name : Word) (d : Table Entry) : Prop :=
  ∀ v body, d.find? v = some (.words body) → FlatForth.Sparing name body

/-- Of words that are `Sparing`, no run takes the function away. -/
def offering (name : Word) (f : StackFunction) : Contract where
  Holds m := m.Offers name f ∧ m.dictionary.Sparing name
  Queue := Sparing name
  Takes item := ¬item.Renews name ∧ ∀ body ∈ item.bodies, Sparing name body
  Stops _ := True

theorem offering_closed (name : Word) (f : StackFunction) : (offering name f).Closed where
  restack h _ := ⟨⟨h.1.undeclared, h.1.found⟩, h.2⟩
  loops h _ := ⟨⟨h.1.undeclared, h.1.found⟩, h.2⟩
  refer h _ _ := ⟨⟨h.1.undeclared, h.1.found⟩, h.2⟩
  primitive := by
    intro m w p h _
    refine ⟨⟨⟨?_, ?_⟩, ?_⟩, fun _ _ => trivial⟩
    · rw [primitive_declared]
      exact h.1.undeclared
    · rw [primitive_dictionary]
      exact h.1.found
    · rw [primitive_dictionary]
      exact h.2
  define := by
    intro m v body h htakes
    have hne : name ≠ v := by
      intro heq
      exact htakes.1 heq.symm
    refine ⟨⟨h.1.undeclared, ?_⟩, fun u ws hu => ?_⟩
    · simp [Machine.define, Table.find?_insert, hne, h.1.found]
    · rcases Table.of_find?_insert hu with he | hu
      · cases he
        exact htakes.2 body (List.mem_singleton_self body)
      · exact h.2 u ws hu
  declare := by
    intro m v h htakes
    have hne : name ≠ v := by
      intro heq
      exact htakes.1 (congrArg some heq.symm)
    refine ⟨⟨?_, h.1.found⟩, h.2⟩
    simp [Machine.set, Table.contains_insert, hne, h.1.undeclared]
  call h _ hw := h.2 _ _ hw
  branch htakes := ⟨htakes.2 _ (by simp [Item.bodies]), htakes.2 _ (by simp [Item.bodies])⟩
  loop htakes := htakes.2 _ (by simp [Item.bodies])
  stops _ _ _ := trivial
  items := by
    intro ws h item hitem
    cases h with
    | intro hnames hbodies => exact ⟨hnames item hitem, hbodies item hitem⟩
  deep := trivial

theorem offers_of_dispatches {name : Word} {f : StackFunction} {note : σ → Event → σ} {depth : Nat}
    {ws : List Word} {m m' : Machine} {s s' : σ} {turns : List Int} {item : Item}
    (h : Dispatches note depth (items ws) m s turns item m' s') (hm : m.Offers name f)
    (hd : m.dictionary.Sparing name) (hws : Sparing name ws) : m'.Offers name f :=
  have hk := offering_closed name f
  (Contract.holds_of_dispatches hk h ⟨hm, hd⟩ (hk.items hws)).1.1

/-! The name. -/

theorem fold_iterate {v w : Word} (h : Text.fold v = Text.fold w) (k : Nat) :
    Text.fold^[k + 1] v = Text.fold w := by
  induction k with
  | zero => exact h
  | succ k ih => rw [Function.iterate_succ_apply', ih, Text.fold_fold]

theorem plain_of_not_keyword {w : Word} (h : w ∉ Keyword.all) :
    ∀ k ∈ [definitionMarkers, branchMarkers, loopMarkers], k.Plain w := by
  simp only [Keyword.all, List.mem_cons, List.not_mem_nil, or_false, not_or] at h
  obtain ⟨hdefine, hend, hdeclare, hbranch, hotherwise, hthen, hdo, hloop⟩ := h
  simp only [List.forall_mem_cons, List.not_mem_nil, false_imp_iff, implies_true, and_true]
  exact ⟨⟨hend, nofun, nofun⟩, ⟨hthen, by simpa [branchMarkers] using hbranch,
    by simpa [branchMarkers] using hotherwise⟩, ⟨hloop, by simpa [loopMarkers] using hdo, nofun⟩⟩

/-- Let `Text.fold w` be no keyword and no variable of `m`, and install a function of the host under
`w`. Every other name has the entry that it had. A word `v` with `Text.fold v = Text.fold w` is read
as the word `Text.fold w`, however often it is folded, and this is no marker of a construct. A
machine that `Offers` the function `Serves` a call of that word at every depth; and after the
installation, wherever a run of `Sparing` words dispatches an item, the machine `Offers` the
function. -/
theorem installed_serves (note : σ → Event → σ) {w : Word} (hw : Text.fold w ∉ Keyword.all) (n : Nat)
    (integers : Bool) (f : List Cell → Returned) {m : Machine}
    (hm : m.variables.contains (Text.fold w) = false) :
    let e := Entry.primitive (.function (.ofHost n integers f))
    (∀ u, u ≠ Text.fold w → (m.install w e).dictionary.find? u = m.dictionary.find? u) ∧
    (∀ v, Text.fold v = Text.fold w → ∀ k rest,
      Item.read (Text.fold^[k + 1] v) rest = (.word (Text.fold w), rest)) ∧
    (∀ markers ∈ [definitionMarkers, branchMarkers, loopMarkers], markers.Plain (Text.fold w)) ∧
    (m.install w e).Offers (Text.fold w) (.ofHost n integers f) ∧
    (∀ m' : Machine, m'.Offers (Text.fold w) (.ofHost n integers f) → ∀ depth s,
      m'.Serves n integers f
        (step note (runWords note depth) (.word (Text.fold w)) m' s).toEnding) ∧
    (m.dictionary.Sparing (Text.fold w) → ∀ source : Source,
      Sparing (Text.fold w) source.queue → ∀ depth s turns item m' s',
        Dispatches note depth (items source.queue) (m.install w e) s turns item m' s' →
          m'.Offers (Text.fold w) (.ofHost n integers f)) := by
  intro e
  have hoffers : (m.install w e).Offers (Text.fold w) (.ofHost n integers f) :=
    Machine.offers_install hm
  refine ⟨fun u hu => Machine.find?_install hu e, fun v hv k rest => ?_, plain_of_not_keyword hw,
    hoffers, fun m' hm' depth s => ?_, fun hd source hs depth s turns item m' s' hdispatch => ?_⟩
  · rw [fold_iterate hv]
    refine Item.read_word (fun hmem => hw ?_) rest
    simp only [List.mem_cons, List.not_mem_nil, or_false] at hmem
    rcases hmem with h | h | h | h <;> simp [h, Keyword.all]
  · rw [hm'.step note _ s]
    exact Machine.serves_apply m' n integers f
  · refine offers_of_dispatches hdispatch hoffers (fun v body hv => ?_) hs
    rcases Table.of_find?_insert hv with he | hv
    · simp [e] at he
    · exact hd v body hv

/-- A word that brings the third cell to the top, met in a branch: with three integers, with two
cells, and with two cells that are no integers, of which the deeper one is named. And a word that
gives back nothing for 0, an integer for 1, and a row for any other cell. -/
theorem installed_serves_branch :
    let f (args : List Cell) := Returned.row (args.reverse.rotateLeft 1)
    let g (args : List Cell) : Returned :=
      if args = [.int 0] then .nothing
      else if args = [.int 1] then .integer 10
      else .row (.text "many" :: args)
    let m := { Machine.fresh with stack := [.int 1, .int 4, .int 3, .int 2] }.install "ROT"
      (.primitive (.function (.ofHost 3 true f)))
    let on cells := { m with stack := cells }
    let rotate m := (step unwatched (runWords unwatched 7) (.word "rot") m ()).toEnding
    let counting cells := { Machine.fresh.install "Count" (.primitive (.function (.ofHost 1 false g)))
      with stack := cells }
    let count m := (step unwatched (runWords unwatched 7) (.word "count") m ()).toEnding
    Dispatches unwatched nestingLimit (items (Source.words ["if", "Rot", "THEN"]).queue) m () []
      (.word "rot") (on [.int 4, .int 3, .int 2]) () ∧
    (on [.int 4, .int 3, .int 2]).Offers "rot" (.ofHost 3 true f) ∧
    rotate (on [.int 4, .int 3, .int 2]) = (on [.int 2, .int 4, .int 3]).done ∧
    rotate (on [.int 4, .int 3]) = (on [.int 4, .int 3]).fault .underflow ∧
    rotate (on [.ref "x", .text "y", .int 2, .int 1]) =
      (on [.ref "x", .text "y", .int 2, .int 1]).fault (.notNumber (.text "y")) ∧
    count (counting [.int 0, .int 4]) = (counting [.int 4]).done ∧
    count (counting [.int 1, .int 4]) = (counting [.int 10, .int 4]).done ∧
    count (counting [.ref "x", .int 4]) = (counting [.ref "x", .text "many", .int 4]).done := by
  intro f g m on rotate counting count
  have hfold : Text.fold "ROT" = "rot" := by decide +kernel
  have hspared : Machine.fresh.dictionary.Sparing (Text.fold "ROT") :=
    fun w body hw => absurd hw (find?_builtins_ne_words w body)
  have hbranch : items (Source.words ["if", "Rot", "THEN"]).queue = [.branch ["rot"] [] true] := by
    decide +kernel
  have hbody : items ["rot"] = [.word "rot"] := by decide +kernel
  have hqueue : Sparing (Text.fold "ROT") (Source.words ["if", "Rot", "THEN"]).queue := by
    have hnothing : Sparing (Text.fold "ROT") [] := .intro (by simp [items]) (by simp [items])
    have hrot : Sparing (Text.fold "ROT") ["rot"] :=
      .intro (by simp [hbody, Item.Renews]) (by simp [hbody, Item.bodies])
    exact .intro (by simp [hbranch, Item.Renews]) (by simp [hbranch, Item.bodies, hrot, hnothing])
  obtain ⟨-, -, -, -, serves, stays⟩ := installed_serves unwatched (w := "ROT") (by decide +kernel) 3
    true f (m := { Machine.fresh with stack := [.int 1, .int 4, .int 3, .int 2] }) rfl
  have hdispatch : Dispatches unwatched nestingLimit
      (items (Source.words ["if", "Rot", "THEN"]).queue) m () [] (.word "rot")
        (on [.int 4, .int 3, .int 2]) () := by
    obtain ⟨depth, hlimit⟩ : ∃ depth, nestingLimit = depth + 2 := ⟨nestingLimit - 2, rfl⟩
    have hopens : Opens unwatched (runWords unwatched (depth + 1)) (.branch ["rot"] [] true) m ()
        none ["rot"] (on [.int 4, .int 3, .int 2]) () := .branch (n := 1) rfl rfl
    have hword : Dispatches unwatched (depth + 1) (items ["rot"]) (on [.int 4, .int 3, .int 2]) () []
        (.word "rot") (on [.int 4, .int 3, .int 2]) () := by
      rw [hbody]
      exact .here
    rw [hbranch, hlimit]
    exact .within hopens hword
  have hoffers := stays hspared _ hqueue _ () _ _ _ _ hdispatch
  have serves' (cells : List Cell) := serves (on cells) ⟨hoffers.undeclared, hoffers.found⟩ 7 ()
  obtain ⟨-, -, -, hcount, answers, -⟩ :=
    installed_serves unwatched (w := "Count") (by decide +kernel) 1 false g (m := .fresh) rfl
  have answers' (cells : List Cell) :=
    answers (counting cells) ⟨hcount.undeclared, hcount.found⟩ 7 ()
  have hfold' : Text.fold "Count" = "count" := by decide +kernel
  rw [hfold] at serves' hoffers
  rw [hfold'] at answers'
  refine ⟨hdispatch, hoffers, ?_, ?_, ?_, ?_, ?_, ?_⟩
  · exact (serves' _).row [.int 4, .int 3, .int 2] [] [.int 3, .int 4, .int 2] ⟨rfl, rfl, by decide⟩
      rfl
  · exact (serves' [.int 4, .int 3]).underflow_iff.2 (by decide)
  · exact ((serves' _).notNumber_iff _).2
      ⟨rfl, [.ref "x"], [.int 2], [.int 1], rfl, rfl, rfl, by decide⟩
  · exact (answers' _).nothing [.int 0] [.int 4] ⟨rfl, rfl, by decide⟩ rfl
  · exact (answers' _).integer [.int 1] [.int 4] 10 ⟨rfl, rfl, by decide⟩ rfl
  · exact (answers' _).row [.ref "x"] [.int 4] [.text "many", .ref "x"] ⟨rfl, rfl, by decide⟩ rfl

end FlatForth
