import FlatForth.Block

/-!
What can be asked of a queue of words. Every request takes words from the front, and readers that
draw one word at a time share the one queue: each sees what the others have left. To a reader that
has once found it empty it stays empty (`Shared`).
-/

namespace FlatForth

/-- The word of `next_word`, a step of a reader made by `generate`, all words (`remaining`), a block
(`parse_block`), and a look whether there are words. -/
inductive Request where
  | next
  | draw (reader : String)
  | all
  | block (markers : Markers)
  | look

inductive Answer where
  | word (w : Option Word)
  | words (ws : List Word)
  | block (parts : List (List Word)) (closed : Bool)
  | nothing
deriving DecidableEq

/-- The answer to a request, and the words it leaves. -/
def Request.serve (queue : List Word) : Request → Answer × List Word
  | next | draw _ => (.word queue.head?, queue.tail)
  | all => (.words queue, [])
  | block markers =>
    let b := markers.scan queue
    (.block b.parts b.closed, b.rest)
  | look => (.nothing, queue)

theorem Request.serve_suffix (queue : List Word) (r : Request) : (r.serve queue).2 <:+ queue := by
  cases r with
  | next | draw _ => exact List.tail_suffix queue
  | all => exact List.nil_suffix
  | block markers => exact markers.rest_scan_suffix queue
  | look => exact List.suffix_refl queue

/-- A queue with the readers that have found it empty. These have ended and look at it no more. -/
structure Shared where
  queue : List Word
  ended : List String

def Source.shared (source : Source) : Shared := ⟨source.queue, []⟩

namespace Shared

def isFinished (s : Shared) : Bool := s.queue.isEmpty

/-- A step of a reader that `generate` makes. It looks each time whether there is a word, since
others may have taken some since its last step. -/
def draw (s : Shared) (reader : String) : Answer × Shared :=
  if reader ∈ s.ended then (.word none, s)
  else
    match s.queue with
    | [] => (.word none, { s with ended := reader :: s.ended })
    | w :: ws => (.word (some w), { s with queue := ws })

/-- A reader that is made for one request, to cut a block or to take all words, is gone with it. -/
def serve (s : Shared) : Request → Answer × Shared
  | .draw reader => s.draw reader
  | r => ((r.serve s.queue).1, { s with queue := (r.serve s.queue).2 })

theorem draw_cases (s : Shared) (reader : String) :
    (reader ∈ s.ended ∧ s.draw reader = (.word none, s)) ∨
    (s.queue = [] ∧ s.draw reader = (.word none, { s with ended := reader :: s.ended })) ∨
    ∃ w ws, s.queue = w :: ws ∧ s.draw reader = (.word (some w), { s with queue := ws }) := by
  unfold draw
  split
  · rename_i hended
    exact .inl ⟨hended, rfl⟩
  · split
    · rename_i hqueue
      exact .inr (.inl ⟨hqueue, rfl⟩)
    · rename_i w ws hqueue
      exact .inr (.inr ⟨w, ws, hqueue, rfl⟩)

def serveAll (s : Shared) (requests : List Request) : Shared :=
  requests.foldl (fun s r => (s.serve r).2) s

end Shared

end FlatForth
