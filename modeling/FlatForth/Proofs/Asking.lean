import FlatForth.CommandLine.Arguments

/-!
Command lines that give texts to evaluate and ask for more to be told, in any order. The texts are
read as if nothing else stood between them, and every further mark counts (`parse_commandLine`).
-/

namespace FlatForth.CommandLine

/-- What an argument asks for: a text to evaluate, behind `-e` or joined to `--eval=`, or a `-v`
with `further` marks more. -/
inductive Ask where
  | text (t : String)
  | joined (t : String)
  | more (further : Nat)
deriving DecidableEq

namespace Ask

def arguments : Ask → List String
  | text t => ["-e", t]
  | joined t => ["--eval=" ++ t]
  | more further => [String.ofList ('-' :: 'v' :: List.replicate further 'v')]

def verbosity : Ask → Nat
  | more further => further + 1
  | _ => 0

end Ask

def commandLine (asks : List Ask) : List String := asks.flatMap Ask.arguments

def texts (asks : List Ask) : List Ask := asks.filter (·.verbosity = 0)

def verbosity : List Ask → Nat
  | [] => 0
  | ask :: asks => ask.verbosity + verbosity asks

/-! How single arguments are sorted. -/

namespace Flag

theorem spelled?_eq_none {name : String} (ok : String → Bool)
    (hall : ∀ p ∈ spellings, ok p.1 = true) (hname : ok name = false) : spelled? name = none := by
  refine List.lookup_eq_none_iff.2 fun p hp => ?_
  have hne : name ≠ p.1 := fun h => by
    have := hall p hp
    rw [← h, hname] at this
    cases this
  simpa using hne

end Flag

theorem sort_evaluate : sort "-e" = .ok (.option .evaluate true none) := by rfl

theorem sort_joined (t : String) :
    sort ("--eval=" ++ t) = .ok (.option .evaluate false (some t)) := by
  have hlist : ("--eval=" ++ t).toList = "--eval".toList ++ '=' :: t.toList := by simp
  generalize "--eval=" ++ t = arg at hlist
  have hunspelled : Flag.spelled? arg = none :=
    Flag.spelled?_eq_none (fun s => !s.toList.contains '=') (by decide +kernel) (by simp [hlist])
  have hcut : cutAt '=' arg.toList = ("--eval".toList, some t.toList) := by simp [cutAt, hlist]
  have hname : Flag.spelled? "--eval" = some .evaluate := by decide +kernel
  have hdash : arg ≠ "-" := fun h => by simp [h] at hlist
  unfold sort
  rw [hunspelled, hcut]
  simp [hname, hdash, hlist, isLong]

theorem cluster_more (further : Nat) : cluster .verbose (List.replicate further 'v') =
    .ok (List.replicate (further + 1) (.plain .verbose)) := by
  induction further with
  | zero => rfl
  | succ further ih =>
    have hname : Flag.spelled? (String.ofList ['-', 'v']) = some .verbose := by rfl
    rw [List.replicate_succ, cluster, hname]
    simp [Flag.takesText, ih, Except.map, List.replicate_succ]

/-- An argument of `further + 1` marks is sorted as one `-v`, whose joined text makes the other
choices. -/
theorem sort_more (further : Nat) : ∃ joined,
    sort (String.ofList ('-' :: 'v' :: List.replicate further 'v')) =
        .ok (.option .verbose true joined) ∧
      choices .verbose true joined = .ok (List.replicate (further + 1) (.plain .verbose)) := by
  cases further with
  | zero => exact ⟨none, rfl, rfl⟩
  | succ further =>
    refine ⟨some (String.ofList (List.replicate (further + 1) 'v')), ?_, ?_⟩
    · have hlist : (String.ofList ('-' :: 'v' :: List.replicate (further + 1) 'v')).toList =
          '-' :: 'v' :: 'v' :: List.replicate further 'v' := by simp [List.replicate_succ]
      generalize String.ofList ('-' :: 'v' :: List.replicate (further + 1) 'v') = arg at hlist
      have hunspelled : Flag.spelled? arg = none :=
        Flag.spelled?_eq_none (fun s => isLong s || s.toList.length ≤ 2) (by decide +kernel)
          (by simp [hlist, isLong, List.isPrefixOf])
      have hcut : cutAt '=' arg.toList = (arg.toList, none) := by simp [cutAt, hlist]
      have hname : Flag.spelled? "-v" = some .verbose := by decide +kernel
      have hdash : arg ≠ "-" := fun h => by simp [h] at hlist
      unfold sort
      rw [hunspelled, hcut]
      simp [hname, hdash, hlist, candidates, isLong, List.isPrefixOf, List.replicate_succ]
    · simpa [choices, Flag.takesText, List.replicate_succ] using cluster_more (further + 1)

/-! What the texts are read as. All arguments are sorted before any is taken, so of two errors the
one that is met in sorting comes first. -/

/-- The sources of a command line, if sorting its arguments and then taking them does not fail. -/
abbrev Reading := Except UsageError (Except UsageError (List Source))

/-- The sources when an `Ask` stands in front of the arguments that read as `rest`. -/
def Ask.ahead (rest : Reading) : Ask → Reading
  | more _ => rest
  | joined t => rest.map (·.map (Options.sourceOf t :: ·))
  | text t =>
    if t = "--" then .ok (.error (.missingText .evaluate))
    else do
      let form ← sort t
      rest.map fun sources =>
        if form = .operand then sources.map (.text t :: ·) else .error (.missingText .evaluate)

def reading (asks : List Ask) : Reading := asks.foldr (fun ask rest => ask.ahead rest) (.ok (.ok []))

theorem reading_texts (asks : List Ask) : reading (texts asks) = reading asks := by
  induction asks with
  | nil => rfl
  | cons ask asks ih =>
    cases ask with
    | text t => exact congrArg (Ask.ahead · (.text t)) ih
    | joined t => exact congrArg (Ask.ahead · (.joined t)) ih
    | more further => exact ih

/-- The options with `verbosity` more marks and with the sources appended. -/
def Options.and (o : Options) (verbosity : Nat) (sources : List Source) : Options :=
  { o with verbosity := o.verbosity + verbosity, sources := o.sources ++ sources }

/-- Whatever the options were, taking the sorted arguments adds `verbosity` marks and the sources of
the reading to them, or fails as the reading does. -/
inductive Holds (verbosity : Nat) : Except UsageError (List (String × Form)) → Reading → Prop
  | unsorted (e : UsageError) : Holds verbosity (.error e) (.error e)
  | sorted {forms : List (String × Form)} {sources : Except UsageError (List Source)} :
      (∀ o, take o [] forms = sources.map fun sources => .run (o.and verbosity sources)) →
      Holds verbosity (.ok forms) (.ok sources)

theorem sortAll_cons {arg : String} {form : Form} (hne : arg ≠ "--") (h : sort arg = .ok form)
    (args : List String) : sortAll (arg :: args) = (sortAll args).map ((arg, form) :: ·) := by
  rw [sortAll, if_neg hne, h]
  cases sortAll args <;> rfl

theorem take_joined (o : Options) (arg t : String) (forms : List (String × Form)) :
    take o [] ((arg, .option .evaluate false (some t)) :: forms) =
      take (o.and 0 [Options.sourceOf t]) [] forms := by
  simp [take, choices, Flag.takesText, Options.add, Options.and]

theorem take_text (o : Options) (arg t : String) (forms : List (String × Form)) :
    take o [] ((arg, .option .evaluate true none) :: (t, .operand) :: forms) =
      take (o.and 0 [.text t]) [] forms := by
  simp [take, choices, Choice.ofFlag, Flag.takesText, Options.add, Options.and]

theorem take_more {further : Nat} {joined : Option String}
    (h : choices .verbose true joined = .ok (List.replicate (further + 1) (.plain .verbose)))
    (o : Options) (arg : String) (forms : List (String × Form)) :
    take o [] ((arg, .option .verbose true joined) :: forms) =
      take (o.and (further + 1) []) [] forms := by
  have hfold (n : Nat) : (List.replicate n (Choice.plain .verbose)).foldl (·.add none) o =
      o.and n [] := by
    induction n with
    | zero => simp [Options.and]
    | succ n ih =>
      rw [List.replicate_succ', List.foldl_append, ih]
      simp [Options.and, Options.add, Nat.add_assoc]
  simp [take, h, hfold]

section

variable {verbosity : Nat} {args : List String} {rest : Reading}
  (h : Holds verbosity (sortAll args) rest)

include h

/-- `Holds` for arguments with `new` in front, if `take` adds `marks` and `sources` for `new`. -/
theorem Holds.cons (new : List (String × Form)) {marks : Nat} {sources : List Source}
    (hnew : ∀ o forms, take o [] (new ++ forms) = take (o.and marks sources) [] forms) :
    Holds (marks + verbosity) ((sortAll args).map (new ++ ·)) (rest.map (·.map (sources ++ ·))) := by
  generalize sortAll args = sorted at h
  cases h with
  | unsorted e => exact .unsorted e
  | @sorted forms rest h =>
    refine .sorted fun o => ?_
    rw [hnew, h]
    cases rest <;> simp [Except.map, Options.and, Nat.add_assoc]

/-- `Holds` for `-e` without an operand behind it: the reading is that its text is missing. -/
theorem Holds.missing {t : String} {form : Form} (hform : form ≠ .operand) (marks : Nat) :
    Holds marks ((sortAll args).map fun forms =>
        ("-e", .option .evaluate true none) :: (t, form) :: forms)
      (rest.map fun _ => .error (.missingText .evaluate)) := by
  generalize sortAll args = sorted at h
  cases h with
  | unsorted e => exact .unsorted e
  | sorted h =>
    refine .sorted fun o => ?_
    cases form <;> first | exact absurd rfl hform | rfl

theorem Holds.text (t : String) :
    Holds (0 + verbosity) (sortAll ("-e" :: t :: args)) ((Ask.text t).ahead rest) := by
  rw [sortAll_cons (by decide) sort_evaluate]
  simp only [Ask.ahead]
  split
  · rename_i ht
    rw [sortAll, if_pos ht]
    exact .sorted fun o => rfl
  · rename_i hne
    cases hsort : sort t with
    | error e =>
      rw [sortAll, if_neg hne, hsort]
      exact .unsorted e
    | ok form =>
      have hboth : ((sortAll args).map ((t, form) :: ·)).map
          (("-e", .option .evaluate true none) :: ·) =
          (sortAll args).map ([("-e", .option .evaluate true none), (t, form)] ++ ·) := by
        cases sortAll args <;> rfl
      rw [sortAll_cons hne hsort, hboth]
      change Holds _ _ (rest.map _)
      by_cases hform : form = .operand
      · subst hform
        simp only [if_pos]
        exact h.cons [_, _] fun o forms => take_text o _ t forms
      · simp only [if_neg hform]
        exact h.missing hform _

theorem Holds.ahead (ask : Ask) :
    Holds (ask.verbosity + verbosity) (sortAll (ask.arguments ++ args)) (ask.ahead rest) := by
  cases ask with
  | more further =>
    obtain ⟨joined, hsort, hchoices⟩ := sort_more further
    have hne : String.ofList ('-' :: 'v' :: List.replicate further 'v') ≠ "--" := fun h => by
      simpa using congrArg String.toList h
    have hrest : rest.map (·.map ([] ++ ·)) = rest := by
      rcases rest with _ | _ | _ <;> rfl
    rw [Ask.arguments, List.singleton_append, sortAll_cons hne hsort, Ask.ahead, ← hrest]
    exact h.cons [_] fun o forms => take_more hchoices o _ forms
  | joined t =>
    have hne : "--eval=" ++ t ≠ "--" := fun h => by simpa using congrArg String.toList h
    rw [Ask.arguments, List.singleton_append, sortAll_cons hne (sort_joined t)]
    exact h.cons [_] fun o forms => take_joined o _ t forms
  | text t => exact h.text t

end

theorem commandLine_holds (asks : List Ask) :
    Holds (verbosity asks) (sortAll (commandLine asks)) (reading asks) := by
  induction asks with
  | nil => exact .sorted fun o => by simp [take, Options.and, Except.map, verbosity]
  | cons ask asks ih => exact ih.ahead ask

theorem parse_commandLine (asks : List Ask) :
    parse (commandLine asks) = do
      let sources ← reading asks
      let sources ← sources
      return .run ⟨verbosity asks, false, sources⟩ := by
  have h := commandLine_holds asks
  unfold parse
  generalize sortAll (commandLine asks) = sorted at h
  generalize reading asks = rest at h
  cases h with
  | unsorted e => rfl
  | @sorted forms sources h =>
    refine (h .none).trans ?_
    cases sources <;>
      simp [Except.map, Options.and, Options.none, bind, Except.bind, pure, Except.pure]

end FlatForth.CommandLine
