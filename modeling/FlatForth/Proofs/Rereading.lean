import FlatForth.Proofs.Caseless
import FlatForth.Proofs.Legible
import FlatForth.Proofs.Vocabulary
import FlatForth.Proofs.WellFormed

/-!
Reading again what was read. Folding neither makes nor removes a blank, so a text may be folded
before it is cut or its fields one by one (`fields_fold`); every word of a text is legible
(`legible_of_mem_queue`). Hence a text, its folded form, its fields and its words are the same
source, and words that are run as a body, once more read from a list, are the words they were
(`sources_agree`).
-/

namespace FlatForth

variable {σ : Type}

namespace Text

def blanks : List Nat := blankRanges.flatMap fun r => List.range' r.1 (r.2 - r.1 + 1)

theorem mem_blanks_iff {c : Char} : c.toNat ∈ blanks ↔ isBlank c = true := by
  have hordered : (blankRanges.all fun r => r.1 ≤ r.2) = true := by decide
  simp only [blanks, isBlank, List.mem_flatMap, List.mem_range'_1, List.any_eq_true,
    Bool.and_eq_true, decide_eq_true_eq]
  constructor
  · rintro ⟨r, hr, hlow, hhigh⟩
    have hle : r.1 ≤ r.2 := by simpa using List.all_eq_true.1 hordered r hr
    exact ⟨r, hr, hlow, by omega⟩
  · rintro ⟨r, hr, hlow, hhigh⟩
    exact ⟨r, hr, hlow, by omega⟩

theorem caseless_of_isBlank {c : Char} (h : isBlank c = true) : Caseless c :=
  caseless_of_bits (by decide +kernel) (by decide +kernel) (mem_blanks_iff.2 h)

theorem foldChar_of_isBlank {c : Char} (h : isBlank c = true) : foldChar c = [c] :=
  foldChar_of_caseless (caseless_of_isBlank h)

theorem not_isBlank_of_mem_foldChar {c d : Char} (hc : isBlank c = false) (hd : d ∈ foldChar c) :
    isBlank d = false := by
  refine Bool.eq_false_iff.2 fun hb => ?_
  obtain rfl := eq_of_mem_foldChar hd (caseless_of_isBlank hb)
  exact Bool.false_ne_true (hc.symm.trans hb)

/-! A text that is cut at its blanks after every other character has been replaced. -/

section

variable {p : Char → Bool}

theorem splitOnP_append {cs : List Char} (h : ∀ c ∈ cs, p c = false) (ds : List Char) :
    (cs ++ ds).splitOnP p = (ds.splitOnP p).modifyHead (cs ++ ·) := by
  obtain ⟨first, rest, hs⟩ := List.exists_cons_of_ne_nil (List.splitOnP_ne_nil p ds)
  induction cs with
  | nil => simp [hs]
  | cons c cs ih =>
    have hc : p c = false := h c List.mem_cons_self
    rw [List.cons_append, List.splitOnP_cons_eq_if_modifyHead, hc,
      ih fun d hd => h d (List.mem_cons_of_mem c hd), hs]
    rfl

theorem splitOnP_flatMap {f : Char → List Char} (hp : ∀ c, p c = true → f c = [c])
    (hf : ∀ c, p c = false → ∀ d ∈ f c, p d = false) (cs : List Char) :
    (cs.flatMap f).splitOnP p = (cs.splitOnP p).map (·.flatMap f) := by
  induction cs with
  | nil => rfl
  | cons c cs ih =>
    rw [List.flatMap_cons, List.splitOnP_cons_eq_if_modifyHead]
    cases hc : p c with
    | true =>
      rw [hp c hc, List.singleton_append, List.splitOnP_cons_eq_if_modifyHead, hc, ih]
      rfl
    | false =>
      obtain ⟨first, rest, hs⟩ := List.exists_cons_of_ne_nil (List.splitOnP_ne_nil p cs)
      rw [splitOnP_append (hf c hc), ih, hs]
      simp

end

theorem fields_fold (s : String) : fields (fold s) = (fields s).map fold := by
  have hsplit := splitOnP_flatMap (p := isBlank) (fun _ => foldChar_of_isBlank)
    (fun _ hc _ => not_isBlank_of_mem_foldChar hc) s.toList
  have hempty (part : List Char) : (part.flatMap foldChar).isEmpty = part.isEmpty := by
    cases part with
    | nil => rfl
    | cons c part => simp [foldChar_ne_nil]
  simp only [fields, toList_fold, hsplit, List.filter_map, List.map_map]
  congr 1
  · funext part
    simp [fold]
  · congr 1
    funext part
    simp [hempty]

end Text

theorem legible_of_mem_queue {t : String} {w : Word} (h : w ∈ (Source.text t).queue) :
    w.Legible where
  ne_empty := by
    obtain ⟨part, hpart, rfl⟩ := List.mem_map.1 h
    have hne : part ≠ [] := by simpa using (List.mem_filter.1 hpart).2
    rwa [ne_eq, ← String.toList_eq_nil_iff, String.toList_ofList]
  not_blank := by
    obtain ⟨part, hpart, rfl⟩ := List.mem_map.1 h
    rw [String.toList_ofList]
    exact fun c hc => (Text.of_mem_splitOnP (List.mem_filter.1 hpart).1 c hc).2
  folded := fold_of_mem_queue h

/-- `body` is opened in a run of `ws` on `m`, at whatever depth. -/
inductive Nests (note : σ → Event → σ) (depth : Nat) (ws : List Word) (m : Machine) (s : σ) :
    List Word → Prop
  | intro {deep turns item m' s' index body m'' s''} :
      Dispatches note depth (items ws) m s turns item m' s' →
      Opens note (runWords note deep) item m' (note s' (.interpreting item.opening m'.stack)) index
        body m'' s'' →
      Nests note depth ws m s body

theorem Nests.folded {note : σ → Event → σ} {depth : Nat} {ws body : List Word} {m : Machine}
    {s : σ} (h : Nests note depth ws m s body) (hm : m.Keeps Word.Folded)
    (hws : ∀ w ∈ ws, w.Folded) : ∀ w ∈ body, w.Folded := by
  have hk : (vocabulary Word.Folded fun _ => True).Closed := vocabulary_closed fun _ _ => trivial
  obtain ⟨hd, ho⟩ := h
  obtain ⟨hm', htakes⟩ := Contract.holds_of_dispatches hk hd ⟨hm, fun _ _ => trivial⟩ (hk.items hws)
  exact (Contract.holds_of_opens hk ho hm' htakes).2

/-- A text, its folded form, its fields, and its words as a list or joined by spaces have one queue
and are evaluated alike; no word of it is empty or has a blank in it. The queue of a list is the
queue of itself. On a machine that `Keeps` folded words only, as one does after any calls, so is
every body that a run opens at any depth. -/
theorem sources_agree (note : σ → Event → σ) (room : Nat) :
    (∀ t : String,
      (∀ source ∈ [Source.text (Text.fold t), .words (Text.fields t),
          .words (Source.text t).queue, .text (" ".intercalate (Source.text t).queue)],
        source.queue = (Source.text t).queue ∧
          evaluate note room source = evaluate note room (.text t)) ∧
      ∀ w ∈ (Source.text t).queue, w ≠ "" ∧ ∀ c ∈ w.toList, Text.isBlank c = false) ∧
    (∀ ws, (Source.words (Source.words ws).queue).queue = (Source.words ws).queue) ∧
    (∀ calls, (Machine.after calls).Keeps Word.Folded) ∧
    ∀ m : Machine, m.Keeps Word.Folded → ∀ (source : Source) depth s body,
      Nests note depth source.queue m s body → (Source.words body).queue = body := by
  refine ⟨fun t => ⟨?_, fun w hw => ?_⟩, fun ws => ?_, fun calls => ?_, ?_⟩
  · have same {source : Source} (h : source.queue = (Source.text t).queue) :
        source.queue = (Source.text t).queue ∧
          evaluate note room source = evaluate note room (.text t) := by
      refine ⟨h, ?_⟩
      rw [evaluate, h]
      rfl
    have legible : ∀ w ∈ (Source.text t).queue, w.Legible := fun _ => legible_of_mem_queue
    have hfold : (Source.text (Text.fold t)).queue = (Source.text t).queue :=
      congrArg Text.fields (Text.fold_fold t)
    have hfields : (Source.words (Text.fields t)).queue = (Source.text t).queue :=
      (Text.fields_fold t).symm
    simp only [List.forall_mem_cons, List.not_mem_nil, false_imp_iff, implies_true, and_true]
    exact ⟨same hfold, same hfields, same (queue_words_legible legible),
      same (queue_text_legible legible)⟩
  · have hw := legible_of_mem_queue hw
    exact ⟨hw.ne_empty, hw.not_blank⟩
  · exact queue_words_folded fun _ => fold_of_mem_queue
  · exact fun w body hbody => ((wellFormed_after calls).bodies w body hbody).2
  · exact fun m hm source depth s body h =>
      queue_words_folded (h.folded hm fun _ => fold_of_mem_queue)

/-- A letter that folds to two, a wide space, and a body with an empty word and a blank one. -/
theorem sources_agree_sharp :
    let run := evaluate (fun (_ : Unit) _ => ()) nestingLimit
    (Source.words ["Straẞe", "DUP"]).queue = ["strasse", "dup"] ∧
    (Source.text "strasse dup").queue = ["strasse", "dup"] ∧
    run (.words ["Straẞe", "DUP"]) = run (.text "Straẞe\u3000DUP") ∧
    run (.text "strasse dup") = run (.text "Straẞe\u3000DUP") ∧
    (∀ w ∈ ["strasse", "dup"], w ≠ "" ∧ ∀ c ∈ w.toList, Text.isBlank c = false) ∧
    (Source.words ["", " "]).queue = ["", " "] := by
  intro run
  let m := Machine.fresh.define "w" (.words ["", " "])
  have hfields : Text.fields "Straẞe\u3000DUP" = ["Straẞe", "DUP"] := by decide +kernel
  have hqueue : (Source.text "Straẞe\u3000DUP").queue = ["strasse", "dup"] := by decide +kernel
  have hm : m.Keeps Word.Folded := (Machine.fresh_keeps _).define (by decide +kernel)
  have hw : m.dictionary.find? "w" = some (.words ["", " "]) := by
    simp [m, Machine.define, Table.find?_insert]
  have hitems : items (Source.text "W").queue = [.word "w"] := by decide +kernel
  have hdispatch : Dispatches (fun (_ : Unit) _ => ()) nestingLimit (items (Source.text "W").queue)
      m () [] (.word "w") m () := by
    rw [hitems]
    exact .here
  have hopens : Opens (fun (_ : Unit) _ => ()) (runWords (fun _ _ => ()) 0) (.word "w") m () none
      ["", " "] m () := .word rfl hw
  obtain ⟨texts, -, -, bodies⟩ := sources_agree (fun (_ : Unit) _ => ()) nestingLimit
  obtain ⟨same, legible⟩ := texts "Straẞe\u3000DUP"
  rw [hfields, hqueue] at same
  rw [hqueue] at legible
  obtain ⟨list, hlist⟩ := same (.words ["Straẞe", "DUP"]) (by simp)
  obtain ⟨joined, hjoined⟩ := same (.text "strasse dup") (by decide)
  exact ⟨list, joined, hlist, hjoined, legible, bodies m hm _ _ () _ ⟨hdispatch, hopens⟩⟩

end FlatForth
