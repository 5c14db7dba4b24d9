import FlatForth.Queue
import FlatForth.Proofs.Matching

/-!
One queue, many readers. Whatever is asked of a queue, in whatever order and by whomever, each
request takes a run of words from the front and tells what was in it, and the runs with what is left
are the words there were (`shared_queue`). A reader that has ended is answered as any other would
be, since it ends only where nothing is left (`Shared.serve_alone`).
-/

namespace FlatForth

namespace Markers

variable (k : Markers)

/-- `before` with `w` behind it, unless `w` is a divider at depth zero. -/
def keep (before : List Word) (w : Word) : List Word :=
  if some w = k.divider ∧ k.opens before = k.closes before then before else before ++ [w]

/-- The words without the dividers at depth zero. -/
def kept (ws : List Word) : List Word := ws.foldl k.keep []

/-- The words that are kept close as many blocks as they open. A divider that is left out opens
none, even if it is the opener. -/
def Level (ws : List Word) : Prop := k.opens (k.kept ws) = k.closes (k.kept ws)

/-- No word of `ws` is a closer at depth zero, where `before` stands in front. -/
def Unclosed (before ws : List Word) : Prop :=
  ∀ a b, ws = a ++ k.closer :: b → ¬k.Level (before ++ a)

variable {k}

theorem kept_concat (before : List Word) (w : Word) :
    k.kept (before ++ [w]) = k.keep (k.kept before) w := by
  simp [kept]

theorem Unclosed.nil (before : List Word) : k.Unclosed before [] := by
  intro a b h
  simp at h

theorem Unclosed.cons {before ws : List Word} {w : Word} (hw : w = k.closer → ¬k.Level before)
    (h : k.Unclosed (before ++ [w]) ws) : k.Unclosed before (w :: ws) := by
  intro a b hws
  rcases a with _ | ⟨v, a⟩
  · obtain ⟨rfl, -⟩ := List.cons.inj hws
    rw [List.append_nil]
    exact hw rfl
  · obtain ⟨rfl, htail⟩ := List.cons.inj hws
    simpa using h a b htail

/-- `depth` is how many more blocks the words that are kept open than close. -/
def Reached (k : Markers) (before : List Word) (depth : Nat) : Prop :=
  k.opens (k.kept before) = k.closes (k.kept before) + depth

theorem Reached.level_iff {before : List Word} {depth : Nat} (h : k.Reached before depth) :
    k.Level before ↔ depth = 0 := by
  unfold Reached at h
  unfold Level
  omega

theorem opens_eq_closes (ho : k.opener = some k.closer) (ws : List Word) :
    k.opens ws = k.closes ws :=
  List.countP_congr fun w _ => by simp [ho]

/-- A word that does not end the block is kept, unless it is a divider at depth zero. The scan goes
on at the depth that is reached behind it. -/
theorem scanFrom_reached {before : List Word} {depth : Nat} {w : Word}
    (h : k.Reached before depth) (hw : ¬(depth = 0 ∧ w = k.closer)) (ws : List Word) :
    ∃ depth', k.Reached (before ++ [w]) depth' ∧
      (k.scanFrom depth (w :: ws)).closed = (k.scanFrom depth' ws).closed ∧
      (k.scanFrom depth (w :: ws)).rest = (k.scanFrom depth' ws).rest ∧
      k.kept before ++ (k.scanFrom depth (w :: ws)).parts.flatten =
        k.kept (before ++ [w]) ++ (k.scanFrom depth' ws).parts.flatten := by
  rw [scanFrom, if_neg hw]
  by_cases hd : depth = 0 ∧ some w = k.divider
  · obtain ⟨rfl, hdivider⟩ := hd
    have hkept : k.kept (before ++ [w]) = k.kept before := by
      rw [kept_concat, keep, if_pos ⟨hdivider, h⟩]
    refine ⟨0, ?_, ?_⟩
    · rw [Reached, hkept]
      exact h
    · rw [if_pos ⟨rfl, hdivider⟩, parts_divide, hkept]
      exact ⟨rfl, rfl, by simp⟩
  · have hkept : k.kept (before ++ [w]) = k.kept before ++ [w] := by
      rw [kept_concat, keep, if_neg]
      exact fun hdivides => hd ⟨h.level_iff.1 hdivides.2, hdivides.1⟩
    have hcounts := depthAfter_balance (fun ho => h.level_iff.1 (opens_eq_closes ho _)) hw
    refine ⟨k.depthAfter depth w, ?_, ?_⟩
    · unfold Reached at h ⊢
      rw [hkept, opens_append, closes_append]
      omega
    · rw [if_neg hd, hkept]
      refine ⟨rfl, rfl, ?_⟩
      rw [List.append_assoc]
      rfl

/-- A scan is closed at the first closer at depth zero, or takes all words, and its parts are the
words before that but for the dividers at depth zero. -/
theorem scanFrom_content {before : List Word} {depth : Nat} (h : k.Reached before depth)
    (ws : List Word) :
    ∃ content, k.Unclosed before content ∧
      k.kept before ++ (k.scanFrom depth ws).parts.flatten = k.kept (before ++ content) ∧
      ((k.scanFrom depth ws).closed = true ∧ k.Level (before ++ content) ∧
          ws = content ++ k.closer :: (k.scanFrom depth ws).rest ∨
        (k.scanFrom depth ws).closed = false ∧ ws = content ∧
          (k.scanFrom depth ws).rest = []) := by
  induction ws generalizing before depth with
  | nil => exact ⟨[], Unclosed.nil before, by simp [scanFrom, Block.parts], .inr ⟨rfl, rfl, rfl⟩⟩
  | cons w ws ih =>
    by_cases hw : depth = 0 ∧ w = k.closer
    · obtain ⟨rfl, rfl⟩ := hw
      have hscan : k.scanFrom 0 (k.closer :: ws) = ⟨[], none, true, ws⟩ := by simp [scanFrom]
      rw [hscan]
      refine ⟨[], Unclosed.nil before, by simp [Block.parts], .inl ⟨rfl, ?_, rfl⟩⟩
      rw [List.append_nil]
      exact h.level_iff.2 rfl
    · obtain ⟨depth', h', hclosed, hrest, hparts⟩ := scanFrom_reached h hw ws
      obtain ⟨content, hunclosed, hkept, hend⟩ := ih h'
      have hbefore : before ++ [w] ++ content = before ++ w :: content := by simp
      rw [hbefore] at hkept hend
      refine ⟨w :: content, hunclosed.cons fun hcloser hlevel => ?_, hparts.trans hkept, ?_⟩
      · exact hw ⟨h.level_iff.1 hlevel, hcloser⟩
      · rw [hclosed, hrest]
        refine hend.imp ?_ ?_
        · exact fun h => ⟨h.1, h.2.1, congrArg (w :: ·) h.2.2⟩
        · exact fun h => ⟨h.1, congrArg (w :: ·) h.2.1, h.2.2⟩

theorem scan_content (queue : List Word) :
    ∃ content, k.Unclosed [] content ∧ (k.scan queue).parts.flatten = k.kept content ∧
      ((k.scan queue).closed = true ∧ k.Level content ∧
          queue = content ++ k.closer :: (k.scan queue).rest ∨
        (k.scan queue).closed = false ∧ queue = content ∧ (k.scan queue).rest = []) :=
  scanFrom_content (show k.Reached [] 0 from rfl) queue

end Markers

/-! One request. -/

/-- The request asks for one word. -/
inductive Request.Single : Request → Prop
  | next : Single next
  | draw {reader} : Single (draw reader)

/-- `Served r a run after`: `a` is an answer to `r` for the words `run`, with `after` left behind
them. -/
inductive Served : Request → Answer → List Word → List Word → Prop
  | word {r w after} : r.Single → Served r (.word (some w)) [w] after
  | empty {r} : r.Single → Served r (.word none) [] []
  | all {run} : Served .all (.words run) run []
  | closed {k parts content after} : k.Unclosed [] content → k.Level content →
      parts.flatten = k.kept content →
      Served (.block k) (.block parts true) (content ++ [k.closer]) after
  | unclosed {k parts content} : k.Unclosed [] content → parts.flatten = k.kept content →
      Served (.block k) (.block parts false) content []
  | look {after} : Served .look .nothing [] after

theorem served_single {r : Request} (h : r.Single) (queue : List Word) :
    ∃ run, queue = run ++ queue.tail ∧ Served r (.word queue.head?) run queue.tail := by
  cases queue with
  | nil => exact ⟨[], rfl, .empty h⟩
  | cons w ws => exact ⟨[w], rfl, .word h⟩

theorem served_block (k : Markers) (queue : List Word) :
    ∃ run, queue = run ++ (k.scan queue).rest ∧
      Served (.block k) (.block (k.scan queue).parts (k.scan queue).closed) run
        (k.scan queue).rest := by
  obtain ⟨content, hunclosed, hparts, hend⟩ := Markers.scan_content (k := k) queue
  rcases hend with ⟨hclosed, hlevel, hqueue⟩ | ⟨hclosed, hqueue, hrest⟩
  · rw [hclosed]
    refine ⟨content ++ [k.closer], ?_, .closed hunclosed hlevel hparts⟩
    rwa [List.append_assoc]
  · rw [hclosed, hrest]
    exact ⟨content, by rw [hqueue, List.append_nil], .unclosed hunclosed hparts⟩

theorem served_serve (r : Request) (queue : List Word) :
    ∃ run, queue = run ++ (r.serve queue).2 ∧ Served r (r.serve queue).1 run (r.serve queue).2 := by
  cases r with
  | next => exact served_single .next queue
  | draw reader => exact served_single .draw queue
  | all => exact ⟨queue, (List.append_nil queue).symm, .all⟩
  | block k => exact served_block k queue
  | look => exact ⟨[], rfl, .look⟩

theorem Served.single_iff {r : Request} {answer : Answer} {run after : List Word}
    (h : Served r answer run after) (hr : r.Single) :
    answer = .word none ↔ run ++ after = [] := by
  cases h with
  | word => simp
  | empty => simp
  | all | closed | unclosed | look => cases hr

/-! Many requests. -/

/-- A request and its answer, with the queue before and after. -/
structure Turn where
  before : List Word
  request : Request
  answer : Answer
  after : List Word

/-- The words of the queue before the turn that are not there after it. -/
def Turn.run (t : Turn) : List Word := t.before.take (t.before.length - t.after.length)

/-- The turn answers as the queue alone does, and its run is `Served` with that answer. Asked for
one word, it has none exactly if the queue is empty. -/
structure Turn.Accounted (t : Turn) : Prop where
  alone : t.request.serve t.before = (t.answer, t.after)
  front : t.before = t.run ++ t.after
  served : Served t.request t.answer t.run t.after
  none_iff : t.request.Single → (t.answer = .word none ↔ t.before = [])

theorem Turn.accounted_of_alone {t : Turn} (h : t.request.serve t.before = (t.answer, t.after)) :
    t.Accounted := by
  obtain ⟨run, hfront, hserved⟩ := served_serve t.request t.before
  rw [h] at hfront hserved
  have hrun : t.run = run := by simp [Turn.run, hfront]
  refine ⟨h, hrun ▸ hfront, hrun ▸ hserved, fun hr => ?_⟩
  rw [hserved.single_iff hr, ← hfront]

namespace Shared

def turns (s : Shared) : List Request → List Turn
  | [] => []
  | r :: rs => ⟨s.queue, r, (s.serve r).1, (s.serve r).2.queue⟩ :: (s.serve r).2.turns rs

/-- If a reader has ended, the queue is empty. -/
def EndedLast (s : Shared) : Prop := ∀ reader ∈ s.ended, s.queue = []

variable {s : Shared}

theorem serve_alone (h : s.EndedLast) (r : Request) :
    r.serve s.queue = ((s.serve r).1, (s.serve r).2.queue) := by
  cases r with
  | draw reader =>
    change (.word s.queue.head?, s.queue.tail) = ((s.draw reader).1, (s.draw reader).2.queue)
    rcases s.draw_cases reader with ⟨hended, hdraw⟩ | ⟨hqueue, hdraw⟩ | ⟨w, ws, hqueue, hdraw⟩
    · rw [hdraw, h reader hended]
      rfl
    · rw [hdraw, hqueue]
      rfl
    · rw [hdraw, hqueue]
      rfl
  | next | all | block | look => rfl

theorem EndedLast.serve (h : s.EndedLast) (r : Request) : (s.serve r).2.EndedLast := by
  have hempty (hqueue : s.queue = []) : (s.serve r).2.queue = [] := by
    have hsuffix := r.serve_suffix s.queue
    rw [serve_alone h r, hqueue] at hsuffix
    exact List.suffix_nil.1 hsuffix
  cases r with
  | draw reader =>
    change (s.draw reader).2.EndedLast
    rcases s.draw_cases reader with ⟨-, hdraw⟩ | ⟨hqueue, hdraw⟩ | ⟨w, ws, hqueue, hdraw⟩
    · rw [hdraw]
      exact h
    · rw [hdraw]
      exact fun _ _ => hqueue
    · -- No reader has ended yet, since there was a word.
      rw [hdraw]
      exact fun other hended => absurd (h other hended) (by simp [hqueue])
  | next | all | block | look => exact fun reader hended => hempty (h reader hended)

theorem turns_accounted (h : s.EndedLast) (requests : List Request) :
    ∀ t ∈ s.turns requests, t.Accounted := by
  induction requests generalizing s with
  | nil => exact fun t ht => absurd ht List.not_mem_nil
  | cons r rs ih =>
    intro t ht
    rcases List.mem_cons.1 ht with rfl | ht
    · exact Turn.accounted_of_alone (serve_alone h r)
    · exact ih (h.serve r) t ht

theorem runs_append_queue (h : s.EndedLast) (requests : List Request) :
    ((s.turns requests).map Turn.run).flatten ++ (s.serveAll requests).queue = s.queue := by
  induction requests generalizing s with
  | nil => rfl
  | cons r rs ih =>
    have hfront := (turns_accounted h (r :: rs) _ List.mem_cons_self).front
    have hrest : ((((s.serve r).2.turns rs).map Turn.run).flatten ++
        ((s.serve r).2.serveAll rs).queue) = (s.serve r).2.queue := ih (h.serve r)
    rw [turns, List.map_cons, List.flatten_cons, List.append_assoc]
    exact (congrArg _ hrest).trans hfront.symm

theorem isFinished_iff : s.isFinished = true ↔ s.queue = [] := List.isEmpty_iff

theorem isFinished_serveAll (h : s.EndedLast) (hs : s.isFinished = true) (requests : List Request) :
    (s.serveAll requests).isFinished = true := by
  have hqueue := runs_append_queue h requests
  rw [isFinished_iff.1 hs] at hqueue
  exact isFinished_iff.2 (List.append_eq_nil_iff.1 hqueue).2

theorem serveAll_append (earlier later : List Request) :
    s.serveAll (earlier ++ later) = (s.serveAll earlier).serveAll later := List.foldl_append

theorem EndedLast.serveAll (h : s.EndedLast) (requests : List Request) :
    (s.serveAll requests).EndedLast := by
  induction requests generalizing s with
  | nil => exact h
  | cons r rs ih => exact ih (h.serve r)

theorem map_request_turns (requests : List Request) :
    (s.turns requests).map Turn.request = requests := by
  induction requests generalizing s with
  | nil => rfl
  | cons r rs ih => exact congrArg (r :: ·) ih

end Shared

theorem Source.shared_endedLast (source : Source) : source.shared.EndedLast := fun _ h =>
  absurd h List.not_mem_nil

/-- Serving the requests takes one `Turn` for each, and every turn is `Accounted`: its answer is one
that its run of words is `Served` with. The runs in this order, and the queue that is left, make up
the queue of the source. Whenever the queue is empty it `isFinished`, and it is so after all further
requests. -/
theorem shared_queue (source : Source) (requests : List Request) :
    (source.shared.turns requests).map Turn.request = requests ∧
    (∀ t ∈ source.shared.turns requests, t.Accounted) ∧
    ((source.shared.turns requests).map Turn.run).flatten ++
      (source.shared.serveAll requests).queue = source.queue ∧
    ∀ earlier, earlier <+: requests →
      ((source.shared.serveAll earlier).isFinished = true ↔
        (source.shared.serveAll earlier).queue = []) ∧
      ((source.shared.serveAll earlier).isFinished = true →
        (source.shared.serveAll requests).isFinished = true) := by
  have hs := source.shared_endedLast
  refine ⟨Shared.map_request_turns requests, Shared.turns_accounted hs requests,
    Shared.runs_append_queue hs requests, fun earlier hprefix => ⟨Shared.isFinished_iff, ?_⟩⟩
  intro hfinished
  obtain ⟨later, rfl⟩ := hprefix
  rw [Shared.serveAll_append]
  exact Shared.isFinished_serveAll (hs.serveAll earlier) hfinished later

/-- A branch is taken out between the steps of two readers, of which the second takes the last word
before the first asks again. -/
theorem shared_queue_two_readers :
    (⟨["b", "else", "c", "then", "d"], .block branchMarkers, .block [["b"], ["c"]] true, ["d"]⟩ :
      Turn).Accounted ∧
    (⟨[], .draw "p", .word none, []⟩ : Turn).Accounted ∧
    ((Source.text "A if B else C then D").shared.serveAll [.draw "p", .next, .block branchMarkers,
      .draw "q", .draw "p", .next]).isFinished = true := by
  obtain ⟨-, haccounted, -, hfinished⟩ := shared_queue (.text "A if B else C then D")
    [.draw "p", .next, .block branchMarkers, .draw "q", .draw "p", .next]
  have hqueue : (Source.text "A if B else C then D").queue =
      ["a", "if", "b", "else", "c", "then", "d"] := by decide +kernel
  unfold Source.shared at haccounted hfinished ⊢
  rw [hqueue] at haccounted hfinished ⊢
  refine ⟨haccounted _ ?_, haccounted _ ?_, ?_⟩
  · exact .tail _ (.tail _ (.head _))
  · exact .tail _ (.tail _ (.tail _ (.tail _ (.head _))))
  · exact (hfinished [.draw "p", .next, .block branchMarkers, .draw "q"] ⟨[.draw "p", .next], rfl⟩).2
      rfl

end FlatForth
