import FlatForth.Word

/-!
Tables of named values, kept in ascending order of their names. What a table holds under each name
determines it (`Table.ext_find?`), so tables built in different orders are equal.
-/

namespace FlatForth

variable {α : Type}

structure Table (α : Type) where
  entries : List (Word × α)
  ascending : entries.Pairwise fun a b => a.1.Before b.1

namespace Table

def empty : Table α := ⟨[], .nil⟩

def lookIn (w : Word) : List (Word × α) → Option α
  | [] => none
  | e :: es => if w = e.1 then some e.2 else lookIn w es

def find? (t : Table α) (w : Word) : Option α := lookIn w t.entries

def contains (t : Table α) (w : Word) : Bool := (t.find? w).isSome

def names (t : Table α) : List Word := t.entries.map (·.1)

def place (w : Word) (a : α) : List (Word × α) → List (Word × α)
  | [] => [(w, a)]
  | e :: es =>
    if w.Before e.1 then (w, a) :: e :: es
    else if w = e.1 then (w, a) :: es
    else e :: place w a es

theorem mem_place {w : Word} {a : α} {es : List (Word × α)} {x : Word × α}
    (h : x ∈ place w a es) : x = (w, a) ∨ x ∈ es := by
  induction es with
  | nil => simpa [place] using h
  | cons e es ih =>
    unfold place at h
    split at h
    · simpa using h
    · split at h
      · rcases List.mem_cons.1 h with h | h
        · exact .inl h
        · exact .inr (List.mem_cons_of_mem e h)
      · rcases List.mem_cons.1 h with h | h
        · exact .inr (h ▸ List.mem_cons_self)
        · exact (ih h).imp_right (List.mem_cons_of_mem e)

theorem place_ascending (w : Word) (a : α) {es : List (Word × α)}
    (h : es.Pairwise fun a b => a.1.Before b.1) :
    (place w a es).Pairwise fun a b => a.1.Before b.1 := by
  induction es with
  | nil => simp [place]
  | cons e es ih =>
    obtain ⟨he, hes⟩ := List.pairwise_cons.1 h
    unfold place
    split
    · rename_i hlt
      refine List.pairwise_cons.2 ⟨fun x hx => ?_, h⟩
      rcases List.mem_cons.1 hx with rfl | hx
      · exact hlt
      · exact hlt.trans (he x hx)
    · split
      · rename_i heq
        exact List.pairwise_cons.2 ⟨fun x hx => heq ▸ he x hx, hes⟩
      · rename_i hlt hne
        refine List.pairwise_cons.2 ⟨fun x hx => ?_, ih hes⟩
        rcases mem_place hx with rfl | hx
        · exact Word.before_of_not_before hlt hne
        · exact he x hx

def insert (t : Table α) (w : Word) (a : α) : Table α :=
  ⟨place w a t.entries, place_ascending w a t.ascending⟩

theorem lookIn_place (w v : Word) (a : α) (es : List (Word × α)) :
    lookIn v (place w a es) = if v = w then some a else lookIn v es := by
  induction es with
  | nil => rfl
  | cons e es ih =>
    unfold place
    split
    · rfl
    · split
      · rename_i heq
        by_cases hv : v = w
        · simp [lookIn, hv]
        · simp [lookIn, hv, ← heq]
      · rename_i hne
        by_cases hv : v = e.1
        · have : e.1 ≠ w := Ne.symm hne
          simp [lookIn, hv, this]
        · simp [lookIn, hv, ih]

@[simp] theorem find?_empty (w : Word) : (empty : Table α).find? w = none := rfl

theorem find?_insert (t : Table α) (w v : Word) (a : α) :
    (t.insert w a).find? v = if v = w then some a else t.find? v :=
  lookIn_place w v a t.entries

theorem of_find?_insert {t : Table α} {w v : Word} {a b : α} (h : (t.insert w a).find? v = some b) :
    b = a ∨ t.find? v = some b := by
  rw [find?_insert] at h
  split at h
  · exact .inl (Option.some.inj h).symm
  · exact .inr h

theorem contains_insert (t : Table α) (w v : Word) (a : α) :
    (t.insert w a).contains v = (decide (v = w) || t.contains v) := by
  rw [contains, find?_insert]
  split <;> simp_all [contains]

theorem mem_of_find? {t : Table α} {w : Word} {a : α} (h : t.find? w = some a) :
    (w, a) ∈ t.entries := by
  obtain ⟨es, hes⟩ := t
  change lookIn w es = some a at h
  induction es with
  | nil => cases h
  | cons e es ih =>
    unfold lookIn at h
    split at h
    · rename_i hw
      obtain rfl : e = (w, a) := Prod.ext hw.symm (Option.some.inj h)
      exact List.mem_cons_self
    · exact List.mem_cons_of_mem e (ih (List.pairwise_cons.1 hes).2 h)

theorem find?_of_contains {t : Table α} {w : Word} (h : t.contains w = true) :
    ∃ a, t.find? w = some a := Option.isSome_iff_exists.1 h

theorem lookIn_eq_none_of_before {w : Word} {es : List (Word × α)} (h : ∀ e ∈ es, w.Before e.1) :
    lookIn w es = none := by
  induction es with
  | nil => rfl
  | cons e es ih =>
    have hne : w ≠ e.1 := fun heq => w.not_before_self (heq ▸ h e List.mem_cons_self)
    simp [lookIn, hne, ih fun x hx => h x (List.mem_cons_of_mem e hx)]

theorem lookIn_head {e : Word × α} {es : List (Word × α)} : lookIn e.1 (e :: es) = some e.2 := by
  simp [lookIn]

theorem lookIn_tail {e : Word × α} {es : List (Word × α)} (h : ∀ x ∈ es, e.1.Before x.1) (w : Word) :
    lookIn w es = if w = e.1 then none else lookIn w (e :: es) := by
  by_cases hw : w = e.1
  · rw [if_pos hw, hw, lookIn_eq_none_of_before h]
  · simp [lookIn, hw]

theorem eq_of_lookIn {es fs : List (Word × α)} (hes : es.Pairwise fun a b => a.1.Before b.1)
    (hfs : fs.Pairwise fun a b => a.1.Before b.1) (h : ∀ w, lookIn w es = lookIn w fs) : es = fs := by
  induction es generalizing fs with
  | nil =>
    cases fs with
    | nil => rfl
    | cons f fs => exact absurd ((h f.1).trans lookIn_head) (by simp [lookIn])
  | cons e es ih =>
    cases fs with
    | nil => exact absurd ((h e.1).symm.trans lookIn_head) (by simp [lookIn])
    | cons f fs =>
      obtain ⟨he, hes⟩ := List.pairwise_cons.1 hes
      obtain ⟨hf, hfs⟩ := List.pairwise_cons.1 hfs
      have key : e.1 = f.1 := by
        refine Decidable.byContradiction fun hne => ?_
        by_cases hlt : e.1.Before f.1
        · have := (h e.1).symm.trans lookIn_head
          rw [lookIn_eq_none_of_before fun x hx => ?_] at this
          · simp at this
          · rcases List.mem_cons.1 hx with rfl | hx
            · exact hlt
            · exact hlt.trans (hf x hx)
        · have hgt := Word.before_of_not_before hlt hne
          have := (h f.1).trans lookIn_head
          rw [lookIn_eq_none_of_before fun x hx => ?_] at this
          · simp at this
          · rcases List.mem_cons.1 hx with rfl | hx
            · exact hgt
            · exact hgt.trans (he x hx)
      have value : e.2 = f.2 := by
        have := h e.1
        rw [lookIn_head, key, lookIn_head] at this
        exact Option.some.inj this
      rw [ih hes hfs fun w => by rw [lookIn_tail he, lookIn_tail hf, key, h w]]
      exact congrArg (· :: fs) (Prod.ext key value)

theorem ext_find? {s t : Table α} (h : ∀ w, s.find? w = t.find? w) : s = t := by
  obtain ⟨es, hes⟩ := s
  obtain ⟨fs, hfs⟩ := t
  obtain rfl : es = fs := eq_of_lookIn hes hfs h
  rfl

/-- It does not matter which of two names is inserted first. -/
theorem insert_comm (t : Table α) {v w : Word} {a b : α} (h : v = w → a = b) :
    (t.insert v a).insert w b = (t.insert w b).insert v a := by
  refine ext_find? fun u => ?_
  simp only [find?_insert]
  by_cases hw : u = w
  · by_cases hv : u = v
    · rw [if_pos hw, if_pos hv, h (hv.symm.trans hw)]
    · rw [if_pos hw, if_neg hv, if_pos hw]
  · rw [if_neg hw, if_neg hw]

end Table

end FlatForth
