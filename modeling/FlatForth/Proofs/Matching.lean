import FlatForth.Proofs.Scan

/-!
What a block is, by counting. Words match when none of their beginnings closes more than it opens,
and all of them close as much as they open. A scan ends at the closer behind words that match
(`closed_scan_iff`), of which there is one at most, and parts them at the dividers that stand where
as much is closed as opened (`Ends.cut`). Where there is no such closer it takes the whole queue,
and parts that (`scan_matched`).
-/

namespace FlatForth

namespace Markers

variable (k : Markers)

/-- The opener is not the closer, and the divider is neither. -/
structure Apart : Prop where
  opener_closer : k.opener ≠ some k.closer
  divider_closer : k.divider ≠ some k.closer
  divider_opener : ∀ d, k.divider = some d → k.opener ≠ some d

def opens (ws : List Word) : Nat := ws.countP (some · = k.opener)

def closes (ws : List Word) : Nat := ws.count k.closer

structure Matched (ws : List Word) : Prop where
  beginnings : ∀ v, v <+: ws → k.closes v ≤ k.opens v
  whole : k.closes ws = k.opens ws

/-- The queue is a matched block, its closer, and `rest`. -/
structure Ends (queue block rest : List Word) : Prop where
  queue_eq : queue = block ++ k.closer :: rest
  matched : k.Matched block

/-- `w` is the divider, and as many blocks are closed as opened before it. -/
def Divides (before : List Word) (w : Word) : Prop :=
  some w = k.divider ∧ k.opens before = k.closes before

instance (before : List Word) (w : Word) : Decidable (k.Divides before w) :=
  inferInstanceAs (Decidable (_ ∧ _))

/-- The words without those that divide, where `before` stands in front. -/
def undivided (before : List Word) : List Word → List Word
  | [] => []
  | w :: ws =>
    if k.Divides before w then undivided (before ++ [w]) ws
    else w :: undivided (before ++ [w]) ws

/-- No word of `ws` divides, where `before` stands in front. -/
def Undivided (before ws : List Word) : Prop :=
  ∀ a w b, ws = a ++ w :: b → ¬k.Divides (before ++ a) w

/-- `ws` cut at the first word that divides, where `before` stands in front. Later words that divide
are left out. -/
inductive Cut (before ws : List Word) : List (List Word) → Prop
  | whole : k.Undivided before ws → Cut before ws [ws]
  | parted {a w b} : ws = a ++ w :: b → k.Undivided before a → k.Divides (before ++ a) w →
      Cut before ws [a, k.undivided (before ++ a ++ [w]) b]

variable {k}

theorem opens_append (ws vs : List Word) : k.opens (ws ++ vs) = k.opens ws + k.opens vs :=
  List.countP_append

theorem closes_append (ws vs : List Word) : k.closes (ws ++ vs) = k.closes ws + k.closes vs :=
  List.count_append

theorem opens_cons (w : Word) (ws : List Word) : k.opens (w :: ws) = k.opens [w] + k.opens ws :=
  opens_append [w] ws

theorem closes_cons (w : Word) (ws : List Word) : k.closes (w :: ws) = k.closes [w] + k.closes ws :=
  closes_append [w] ws

/-! Words that are scanned where something is open already. -/

/-- With `depth` blocks open, no prefix of `ws` closes more than are open. -/
def Within (k : Markers) (depth : Nat) (ws : List Word) : Prop :=
  ∀ v, v <+: ws → k.closes v ≤ depth + k.opens v

theorem within_cons {depth depth' : Nat} {w : Word}
    (h : depth' + k.closes [w] = depth + k.opens [w]) (ws : List Word) :
    k.Within depth (w :: ws) ↔ k.Within depth' ws := by
  constructor
  · intro hws v hv
    have hle := hws (w :: v) (List.cons_prefix_cons.2 ⟨rfl, hv⟩)
    rw [closes_cons, opens_cons] at hle
    omega
  · intro hws v hv
    rcases List.prefix_cons_iff.1 hv with rfl | ⟨later, rfl, hlater⟩
    · exact Nat.zero_le _
    · have hle := hws later hlater
      rw [closes_cons, opens_cons]
      omega

theorem matched_iff {ws : List Word} :
    k.Matched ws ↔ k.Within 0 ws ∧ k.closes ws = 0 + k.opens ws := by
  simp only [Within, Nat.zero_add]
  exact ⟨fun h => ⟨h.beginnings, h.whole⟩, fun h => ⟨h.1, h.2⟩⟩

/-- `depthAfter` by counts, at a depth that is zero if the opener is the closer. -/
theorem depthAfter_balance {depth : Nat} {w : Word} (hdepth : k.opener = some k.closer → depth = 0)
    (hw : ¬(depth = 0 ∧ w = k.closer)) :
    k.depthAfter depth w + k.closes [w] = depth + k.opens [w] := by
  unfold depthAfter
  split
  · rename_i ho
    have hc : w ≠ k.closer := fun hc => hw ⟨hdepth (by rw [← ho, hc]), hc⟩
    simp [opens, closes, ho, hc]
  · rename_i ho
    split
    · rename_i hc
      have hne : depth ≠ 0 := fun hzero => hw ⟨hzero, hc⟩
      obtain rfl := hc
      have hcounts : k.opens [k.closer] = 0 ∧ k.closes [k.closer] = 1 := by
        simp [opens, closes, ho]
      omega
    · rename_i hc
      simp [opens, closes, ho, hc]

section

variable (h : k.Apart)

include h

theorem not_within_closer (ws : List Word) : ¬k.Within 0 (k.closer :: ws) := by
  intro hws
  have hle := hws [k.closer] (List.prefix_append [k.closer] ws)
  simp [opens, closes, h.opener_closer.symm] at hle

theorem depthAfter_counts {depth : Nat} {w : Word} (hw : ¬(depth = 0 ∧ w = k.closer)) :
    k.depthAfter depth w + k.closes [w] = depth + k.opens [w] :=
  depthAfter_balance (fun ho => absurd ho h.opener_closer) hw

theorem depthAfter_divider {w : Word} (hw : some w = k.divider) : k.depthAfter 0 w = 0 := by
  have hc : w ≠ k.closer := fun hc => h.divider_closer (by rw [← hw, hc])
  have ho : k.opener ≠ some w := h.divider_opener w hw.symm
  simp [depthAfter, hc, ho.symm]

theorem scanFrom_divider {w : Word} (hw : some w = k.divider) (ws : List Word) :
    k.scanFrom 0 (w :: ws) = (k.scanFrom (k.depthAfter 0 w) ws).divide := by
  have hc : w ≠ k.closer := fun hc => h.divider_closer (by rw [← hw, hc])
  rw [scanFrom, if_neg fun hend => hc hend.2, if_pos ⟨rfl, hw⟩, depthAfter_divider h hw]

/-- A word that does not end the block changes nothing but the depth for `closed` and `rest`. -/
theorem closed_scanFrom_cons {depth : Nat} {w : Word} (hw : ¬(depth = 0 ∧ w = k.closer))
    (ws : List Word) :
    (k.scanFrom depth (w :: ws)).closed = (k.scanFrom (k.depthAfter depth w) ws).closed ∧
      (k.scanFrom depth (w :: ws)).rest = (k.scanFrom (k.depthAfter depth w) ws).rest := by
  by_cases hd : depth = 0 ∧ some w = k.divider
  · obtain ⟨rfl, hdivider⟩ := hd
    rw [scanFrom_divider h hdivider]
    exact ⟨rfl, rfl⟩
  · rw [scanFrom, if_neg hw, if_neg hd]
    exact ⟨rfl, rfl⟩

theorem closed_scanFrom_iff (depth : Nat) (ws rest : List Word) :
    ((k.scanFrom depth ws).closed = true ∧ (k.scanFrom depth ws).rest = rest) ↔
      ∃ block, ws = block ++ k.closer :: rest ∧ k.Within depth block ∧
        k.closes block = depth + k.opens block := by
  induction ws generalizing depth with
  | nil => simp [scanFrom]
  | cons w ws ih =>
    by_cases hw : depth = 0 ∧ w = k.closer
    · obtain ⟨rfl, rfl⟩ := hw
      have hscan : k.scanFrom 0 (k.closer :: ws) = ⟨[], none, true, ws⟩ := by simp [scanFrom]
      rw [hscan]
      constructor
      · intro hrest
        exact ⟨[], congrArg (k.closer :: ·) hrest.2, by simp [Within, closes], rfl⟩
      · intro hblock
        obtain ⟨block, hqueue, hwithin, -⟩ := hblock
        -- A block that began with this closer would close what is not open.
        rcases block with _ | ⟨v, block⟩
        · exact ⟨rfl, (List.cons.inj hqueue).2⟩
        · obtain ⟨rfl, -⟩ := List.cons.inj hqueue
          exact absurd hwithin (not_within_closer h block)
    · obtain ⟨hclosed, hrest⟩ := closed_scanFrom_cons h hw ws
      have hcounts := depthAfter_counts h hw
      rw [hclosed, hrest, ih]
      constructor
      · intro hblock
        obtain ⟨block, rfl, hwithin, hwhole⟩ := hblock
        refine ⟨w :: block, rfl, (within_cons hcounts block).2 hwithin, ?_⟩
        rw [closes_cons, opens_cons]
        omega
      · intro hblock
        obtain ⟨block, hqueue, hwithin, hwhole⟩ := hblock
        rcases block with _ | ⟨v, block⟩
        · have hdepth : depth = 0 := hwhole.symm
          exact absurd ⟨hdepth, (List.cons.inj hqueue).1⟩ hw
        · obtain ⟨rfl, rfl⟩ := List.cons.inj hqueue
          rw [closes_cons, opens_cons] at hwhole
          exact ⟨block, rfl, (within_cons hcounts block).1 hwithin, by omega⟩

theorem within_of_not_closed {depth : Nat} {ws : List Word}
    (hws : (k.scanFrom depth ws).closed = false) : k.Within depth ws := by
  induction ws generalizing depth with
  | nil =>
    intro v hv
    rw [List.prefix_nil.1 hv]
    exact Nat.zero_le _
  | cons w ws ih =>
    have hw : ¬(depth = 0 ∧ w = k.closer) := by
      intro hw
      simp [scanFrom, hw] at hws
    rw [(closed_scanFrom_cons h hw ws).1] at hws
    exact (within_cons (depthAfter_counts h hw) ws).2 (ih hws)

end

/-! The parts of a block. -/

theorem undivided_append (before ws vs : List Word) :
    k.undivided before (ws ++ vs) = k.undivided before ws ++ k.undivided (before ++ ws) vs := by
  induction ws generalizing before with
  | nil => simp [undivided]
  | cons w ws ih =>
    have hbefore : before ++ w :: ws = before ++ [w] ++ ws := by simp
    rw [List.cons_append, undivided, undivided, ih, hbefore]
    split <;> rfl

theorem Undivided.cons {before ws : List Word} {w : Word} (hw : ¬k.Divides before w)
    (h : k.Undivided (before ++ [w]) ws) : k.Undivided before (w :: ws) := by
  intro a v b hws
  rcases a with _ | ⟨u, a⟩
  · obtain ⟨rfl, -⟩ := List.cons.inj hws
    rwa [List.append_nil]
  · obtain ⟨rfl, htail⟩ := List.cons.inj hws
    simpa using h a v b htail

theorem Undivided.eq {before ws : List Word} (h : k.Undivided before ws) :
    k.undivided before ws = ws := by
  induction ws generalizing before with
  | nil => rfl
  | cons w ws ih =>
    have hw : ¬k.Divides before w := by simpa using h [] w ws rfl
    have hws : k.Undivided (before ++ [w]) ws := fun a v b hv => by
      simpa using h (w :: a) v b (congrArg (w :: ·) hv)
    rw [undivided, if_neg hw, ih hws]

theorem Cut.flatten {before ws : List Word} {parts : List (List Word)} (h : k.Cut before ws parts) :
    parts.flatten = k.undivided before ws := by
  cases h with
  | whole h => simp [h.eq]
  | @parted a w b hws ha hw =>
    rw [hws, undivided_append, ha.eq, undivided, if_pos hw]
    simp

theorem Cut.cons {before ws first : List Word} {parts : List (List Word)} {w : Word}
    (hw : ¬k.Divides before w) (h : k.Cut (before ++ [w]) ws (first :: parts)) :
    k.Cut before (w :: ws) ((w :: first) :: parts) := by
  cases h with
  | whole h => exact .whole (h.cons hw)
  | @parted _ v b hws ha hv =>
    have hbefore : before ++ [w] ++ first = before ++ w :: first := by simp
    rw [hbefore] at hv ⊢
    exact .parted (congrArg (w :: ·) hws) (ha.cons hw) hv

theorem parts_divide (b : Block) : b.divide.parts = [[], b.parts.flatten] := by
  cases hs : b.second <;> simp [Block.divide, Block.parts, hs]

/-- The parts of a scan of `block` are what it is `Cut` into, if what follows adds none. -/
theorem cut_scanFrom (h : k.Apart) {before block tail : List Word} {depth last : Nat}
    (hbefore : k.opens before = k.closes before + depth) (hblock : k.Within depth block)
    (hlast : last + k.closes block = depth + k.opens block)
    (htail : (k.scanFrom last tail).parts = [[]]) :
    k.Cut before block (k.scanFrom depth (block ++ tail)).parts := by
  induction block generalizing before depth with
  | nil =>
    obtain rfl : last = depth := hlast
    rw [List.nil_append, htail]
    exact .whole fun a w b hws => by simp at hws
  | cons w block ih =>
    have hw : ¬(depth = 0 ∧ w = k.closer) := by
      rintro ⟨rfl, rfl⟩
      exact not_within_closer h block hblock
    have hcounts := depthAfter_counts h hw
    have hnext : k.Cut (before ++ [w]) block
        (k.scanFrom (k.depthAfter depth w) (block ++ tail)).parts := by
      refine ih ?_ ((within_cons hcounts block).1 hblock) ?_
      · rw [opens_append, closes_append]
        omega
      · rw [closes_cons, opens_cons] at hlast
        omega
    rw [List.cons_append]
    by_cases hd : depth = 0 ∧ some w = k.divider
    · obtain ⟨rfl, hdivider⟩ := hd
      have hdivides : k.Divides (before ++ []) w :=
        ⟨hdivider, by rw [List.append_nil, hbefore, Nat.add_zero]⟩
      rw [scanFrom_divider h hdivider, parts_divide, hnext.flatten]
      simpa using Cut.parted (a := []) rfl (fun a v b ha => by simp at ha) hdivides
    · have hnot : ¬k.Divides before w := by
        intro hdivides
        exact hd ⟨by have := hdivides.2; omega, hdivides.1⟩
      rw [scanFrom, if_neg hw, if_neg hd]
      exact hnext.cons hnot

/-! Whole queues. -/

theorem closed_scan_iff (h : k.Apart) (queue rest : List Word) :
    ((k.scan queue).closed = true ∧ (k.scan queue).rest = rest) ↔
      ∃ block, k.Ends queue block rest := by
  rw [scan, closed_scanFrom_iff h]
  constructor
  · intro hblock
    obtain ⟨block, hqueue, hmatched⟩ := hblock
    exact ⟨block, hqueue, matched_iff.2 hmatched⟩
  · intro hblock
    obtain ⟨block, hqueue, hmatched⟩ := hblock
    exact ⟨block, hqueue, matched_iff.1 hmatched⟩

theorem Ends.rest_scan (h : k.Apart) {queue block rest : List Word} (hb : k.Ends queue block rest) :
    (k.scan queue).rest = rest := ((closed_scan_iff h queue rest).2 ⟨block, hb⟩).2

theorem Ends.unique (h : k.Apart) {queue block block' rest rest' : List Word}
    (hb : k.Ends queue block rest) (hb' : k.Ends queue block' rest') :
    block = block' ∧ rest = rest' := by
  obtain rfl : rest = rest' := (hb.rest_scan h).symm.trans (hb'.rest_scan h)
  exact ⟨List.append_cancel_right (hb.queue_eq.symm.trans hb'.queue_eq), rfl⟩

theorem Ends.cut (h : k.Apart) {queue block rest : List Word} (hb : k.Ends queue block rest) :
    k.Cut [] block (k.scan queue).parts := by
  obtain ⟨hwithin, hwhole⟩ := matched_iff.1 hb.matched
  have htail : (k.scanFrom 0 (k.closer :: rest)).parts = [[]] := by simp [scanFrom, Block.parts]
  rw [hb.queue_eq]
  exact cut_scanFrom h rfl hwithin (by rw [hwhole, Nat.zero_add]) htail

theorem cut_of_not_closed (h : k.Apart) {queue : List Word} (hc : (k.scan queue).closed = false) :
    k.Cut [] queue (k.scan queue).parts := by
  have hwithin := within_of_not_closed h hc
  have hle := hwithin queue (List.prefix_refl queue)
  have hlast : 0 + k.opens queue - k.closes queue + k.closes queue = 0 + k.opens queue := by omega
  have hcut : k.Cut [] queue (k.scanFrom 0 (queue ++ [])).parts :=
    cut_scanFrom h rfl hwithin hlast rfl
  rwa [List.append_nil] at hcut

theorem not_closed_of_no_end (h : k.Apart) {queue : List Word}
    (hnone : ¬∃ block rest, k.Ends queue block rest) : (k.scan queue).closed = false := by
  refine Bool.eq_false_iff.2 fun hclosed => hnone ?_
  obtain ⟨block, hb⟩ := (closed_scan_iff h queue _).1 ⟨hclosed, rfl⟩
  exact ⟨block, _, hb⟩

theorem rest_scan_of_no_end (h : k.Apart) {queue : List Word}
    (hnone : ¬∃ block rest, k.Ends queue block rest) : (k.scan queue).rest = [] :=
  k.rest_scanFrom_of_not_closed 0 queue (not_closed_of_no_end h hnone)

theorem Apart.ends_or_no_end (h : k.Apart) (queue : List Word) :
    (∃ block, k.Ends queue block (k.scan queue).rest) ∨
      (k.scan queue).rest = [] ∧ ¬∃ block rest, k.Ends queue block rest := by
  by_cases hends : ∃ block rest, k.Ends queue block rest
  · obtain ⟨block, rest, hb⟩ := hends
    rw [hb.rest_scan h]
    exact .inl ⟨block, hb⟩
  · exact .inr ⟨rest_scan_of_no_end h hends, hends⟩

theorem closer_not_mem_of_within (ho : k.opener = none) {ws : List Word} (h : k.Within 0 ws) :
    k.closer ∉ ws := by
  have hle := h ws (List.prefix_refl ws)
  have hopens : k.opens ws = 0 := by simp [opens, ho]
  have hcloses : k.closes ws = 0 := by omega
  exact List.count_eq_zero.1 hcloses

/-! The markers of the three constructs. -/

theorem branchMarkers_apart : branchMarkers.Apart where
  opener_closer := by decide
  divider_closer := by decide
  divider_opener d hd := by
    cases hd
    decide

theorem loopMarkers_apart : loopMarkers.Apart := ⟨by decide, by decide, nofun⟩

theorem definitionMarkers_apart : definitionMarkers.Apart := ⟨nofun, nofun, nofun⟩

/-- Let no two of the markers be the same (`Apart`). The scan of a queue is closed and leaves `rest`
if and only if the queue `Ends` some block with this rest. There is at most one, and the parts of
the scan are what it is `Cut` into. If there is none, the scan is not closed, leaves nothing, and
its parts are what the whole queue is `Cut` into. -/
theorem scan_matched (h : k.Apart) (queue : List Word) :
    (∀ rest, ((k.scan queue).closed = true ∧ (k.scan queue).rest = rest) ↔
      ∃ block, k.Ends queue block rest) ∧
    (∀ block rest block' rest', k.Ends queue block rest → k.Ends queue block' rest' →
      block = block' ∧ rest = rest') ∧
    (∀ block rest, k.Ends queue block rest → k.Cut [] block (k.scan queue).parts) ∧
    ((¬∃ block rest, k.Ends queue block rest) →
      (k.scan queue).closed = false ∧ (k.scan queue).rest = [] ∧
        k.Cut [] queue (k.scan queue).parts) := by
  refine ⟨closed_scan_iff h queue, fun _ _ _ _ hb hb' => hb.unique h hb', fun _ _ hb => hb.cut h,
    fun hnone => ?_⟩
  have hc := not_closed_of_no_end h hnone
  exact ⟨hc, rest_scan_of_no_end h hnone, cut_of_not_closed h hc⟩

/-- A branch within the branch, with its own divider, and a divider too many behind it. -/
theorem scan_matched_fork :
    ∃ block, branchMarkers.Ends
        ["a", "else", "if", "b", "else", "c", "then", "d", "else", "e", "then", "r"] block ["r"] ∧
      branchMarkers.Cut [] block [["a"], ["if", "b", "else", "c", "then", "d", "e"]] := by
  obtain ⟨hends, -, hcut, -⟩ := scan_matched branchMarkers_apart
    ["a", "else", "if", "b", "else", "c", "then", "d", "else", "e", "then", "r"]
  obtain ⟨block, hblock⟩ := (hends ["r"]).1 ⟨by decide, by decide⟩
  exact ⟨block, hblock, hcut block ["r"] hblock⟩

end Markers

end FlatForth
