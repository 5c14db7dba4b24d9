import FlatForth.Event
import FlatForth.Machine

/-!
Running words. A source is cut into items, which are run front to back until one fails; nothing
that was done before a failure is undone. Whatever runs can be watched: `note` takes in each event
as it happens and has no say in what happens next.

A body is a source of its own. How deep bodies may nest is bounded, and every function here is given
the one that runs a body, `inner`, which is bounded one level lower. What the bound is, is the
host's to say: `evaluate`, `obey` and `interpret` are given `room` for bodies nested so deep, and
`nestingLimit` is the room the program gives.
-/

namespace FlatForth

variable {σ : Type}

/-- How a run ended, and what its watcher has gathered. -/
structure Outcome (σ : Type) extends Ending where
  seen : σ

abbrev Action (σ : Type) := Machine → σ → Outcome σ

/-- An action that has nothing to tell. -/
def Action.quiet (f : Machine → Ending) : Action σ := fun m s => ⟨f m, s⟩

section

variable (note : σ → Event → σ) (inner : List Word → Action σ)

def enter : Entry → Action σ
  | .primitive p => .quiet p.run
  | .probe => fun m s => ⟨m.done, note s (.probed m.loops)⟩
  | .words body => inner body

/-- A word is first of all a variable, then a name in the dictionary, then a numeral. -/
def call (w : Word) : Action σ := fun m s =>
  if m.variables.contains w then ⟨(m.push (.ref w)).done, s⟩
  else
    match m.dictionary.find? w with
    | some e => enter note inner e m s
    | none => ⟨m.pushNumeral w, s⟩

/-- An empty part is not run at all, so it does not count as nested. -/
def runPart : List Word → Action σ
  | [] => .quiet Machine.done
  | ws => inner ws

def runBranch (whenTrue whenFalse : List Word) (closed : Bool) : Action σ := fun m s =>
  match operand m.stack with
  | .error f => ⟨m.fault f, s⟩
  | .ok (n, below) =>
    runPart inner (if n ≠ 0 then whenTrue else whenFalse) { m with stack := below }
      (if closed then s else note s .unclosedBranch)

/-- One turn of a loop: the index counts among the running loops while the body runs, and no
longer, however the body ends. -/
def turn (body : List Word) (index : Int) : Action σ := fun m s =>
  let o := inner body { m with loops := index :: m.loops } s
  { o with machine := { o.machine with loops := o.machine.loops.tail } }

/-- So many turns with ascending indices, up to the first that fails. -/
def turns (body : List Word) : Nat → Int → Action σ
  | 0, _, m, s => ⟨m.done, s⟩
  | n + 1, index, m, s =>
    let o := turn inner body index m s
    match o.failure with
    | some _ => o
    | none => turns body n (index + 1) o.machine o.seen

/-- The bounds are popped, and stay popped when the loop turns out to have no end. -/
def runLoop (body : Option (List Word)) : Action σ := fun m s =>
  match bounds m.stack with
  | .error f => ⟨m.fault f, s⟩
  | .ok (start, limit, below) =>
    let m := { m with stack := below }
    match body with
    | none => ⟨m.fault .unclosedLoop, s⟩
    | some body =>
      turns inner body (limit - start).toNat start m (note s (.looping start limit body))

/-- What the handlers `define_word`, `declare_variable`, `interpret_branch` and `interpret_loop` do
with what they have read, and `interpret_one` with a word that has none. -/
def perform : Item → Action σ
  | .word w => call note inner w
  | .define name body => fun m s =>
    ⟨(m.define name (.words body)).done, note s (.defined name body)⟩
  | .misdefine why => .quiet fun m => m.fault (.misdefinition why)
  | .declare none => .quiet fun m => m.fault .namelessVariable
  | .declare (some name) => fun m s => ⟨(m.set name 0).done, note s (.declared name)⟩
  | .branch whenTrue whenFalse closed => runBranch note inner whenTrue whenFalse closed
  | .loop body => runLoop note inner body

/-- One word, and all that it takes with it, as `interpret_one` interprets it. -/
def step (item : Item) : Action σ := fun m s =>
  perform note inner item m (note s (.interpreting item.opening m.stack))

def runItems : List Item → Action σ
  | [], m, s => ⟨m.done, s⟩
  | item :: rest, m, s =>
    let o := step note inner item m s
    match o.failure with
    | some _ => o
    | none => runItems rest o.machine o.seen

end

/-- How deep the program lets the bodies of words, branches and loops nest. -/
def nestingLimit : Nat := 320

section

variable (note : σ → Event → σ)

/-- Runs words with bodies nested at most so deep; the words themselves are the first level. -/
def runWords : Nat → List Word → Action σ
  | 0, _ => .quiet fun m => m.stop .nestedTooDeep
  | depth + 1, ws => runItems note (runWords depth) (items ws)

/-- `evaluate`: the words of the source are no body, and run even where there is no room for one. -/
def evaluate (room : Nat) (source : Source) : Action σ := runWords note (room + 1) source.queue

end

/-- Whether an item's own operands are wanting, so that it ends before it is even read. -/
def Item.lacksOperands (stack : List Cell) : Item → Bool
  | .branch _ _ _ => !(operand stack).isOk
  | .loop _ => !(bounds stack).isOk
  | _ => false

/-- What is left of a queue once one item was taken from it and run. -/
structure Interpretation (σ : Type) extends Outcome σ where
  rest : List Word

section

variable (note : σ → Event → σ)

/-- Runs what the opening word begins, with the queue behind it. For a word that opens a construct
this is its handler: `define_word`, `declare_variable`, `interpret_branch` or `interpret_loop`. -/
def obey (room : Nat) (w : Word) (queue : List Word) (m : Machine) (s : σ) : Interpretation σ :=
  let (item, rest) := Item.read w queue
  ⟨perform note (runWords note room) item m s,
    if item.lacksOperands m.stack then queue else rest⟩

/-- `interpret_one`: the word is noted before it is obeyed. -/
def interpret (room : Nat) (w : Word) (queue : List Word) (m : Machine) (s : σ) : Interpretation σ :=
  obey note room w queue m (note s (.interpreting w m.stack))

end

/-! Runs that nobody watches. -/

namespace Machine

def runWithin (depth : Nat) (ws : List Word) (m : Machine) : Ending :=
  (runWords (fun _ _ => ()) depth ws m ()).toEnding

def evaluate (m : Machine) (room : Nat) (source : Source) : Ending :=
  m.runWithin (room + 1) source.queue

end Machine

namespace Ending

def doneAnswer : String := " ok"

def faultAnswer (message : String) : String := " ? " ++ message

/-- What `eval` answers at the prompt: faults are worded, other failures are not answered at all. -/
def answer (e : Ending) : Except Failure String :=
  match e.failure with
  | none => .ok doneAnswer
  | some (.fault f) => .ok (faultAnswer f.message)
  | some why => .error why

end Ending

end FlatForth
