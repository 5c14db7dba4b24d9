import FlatForth.Proofs.Loops
import Mathlib.Data.List.Induction

/-!
Calls from outside. A host has sources evaluated, or single words carried out with a queue behind
them; one machine goes through all of them, and is as the calls before have left it, those that
failed included. Between calls no loop runs (`after_loops`), and no name is ever lost
(`after_keepsNames`).
-/

namespace FlatForth

/-- The words behind a single word come from a source of their own. A word that is interpreted is
noted first, one that is obeyed is not: a host that asks for a definition, a declaration, a branch
or a loop has the word obeyed that opens it. Each call has room of its own for bodies to nest. -/
inductive Call where
  | evaluate (room : Nat) (source : Source)
  | interpret (room : Nat) (w : Word) (source : Source)
  | obey (room : Nat) (w : Word) (source : Source)

def Call.run : Call → Machine → Ending
  | evaluate room source, m => m.evaluate room source
  | interpret room w source, m =>
    (FlatForth.interpret (fun _ _ => ()) room w source.queue m ()).toEnding
  | obey room w source, m => (FlatForth.obey (fun _ _ => ()) room w source.queue m ()).toEnding

/-- The machine after `calls`, run one after the other on a fresh one. -/
def Machine.after (calls : List Call) : Machine :=
  calls.foldl (fun m call => (call.run m).machine) .fresh

namespace Machine

theorem after_concat (calls : List Call) (call : Call) :
    after (calls ++ [call]) = (call.run (after calls)).machine := by
  simp [after]

/-- Every name in the dictionary or among the variables of `m` is one of `m'` too. -/
structure KeepsNames (m m' : Machine) : Prop where
  dictionary : ∀ w, m.dictionary.contains w = true → m'.dictionary.contains w = true
  «variables» : ∀ w, m.variables.contains w = true → m'.variables.contains w = true

theorem KeepsNames.refl (m : Machine) : m.KeepsNames m := ⟨fun _ => id, fun _ => id⟩

theorem KeepsNames.trans {m m' m'' : Machine} (h : m.KeepsNames m') (h' : m'.KeepsNames m'') :
    m.KeepsNames m'' :=
  ⟨fun w hw => h'.dictionary w (h.dictionary w hw), fun w hw => h'.variables w (h.variables w hw)⟩

theorem keepsNames_define (m : Machine) (name : Word) (e : Entry) :
    m.KeepsNames (m.define name e) :=
  ⟨fun w hw => by simp [define, Table.contains_insert, hw], fun _ => id⟩

theorem keepsNames_set (m : Machine) (name : Word) (n : Int) : m.KeepsNames (m.set name n) :=
  ⟨fun _ => id, fun w hw => by simp [set, Table.contains_insert, hw]⟩

end Machine

variable {σ : Type}

theorem keepsNames_upheld (note : σ → Event → σ) : Upheld note fun m _ m' _ => m.KeepsNames m' where
  refl m _ := .refl m
  trans h h' := h.trans h'
  noted m _ _ _ := .refl m
  restack _ _ _ := ⟨fun _ => id, fun _ => id⟩
  set m _ name n := m.keepsNames_set name n
  define m _ name body := m.keepsNames_define name (.words body)
  turn _ h := ⟨h.dictionary, h.variables⟩

theorem Call.run_upholds {T : Machine → Unit → Machine → Unit → Prop}
    (h : Upheld (fun _ _ => ()) T) (call : Call) (m : Machine) : T m () (call.run m).machine () := by
  cases call with
  | evaluate room source => exact runWords_upholds h (room + 1) source.queue m ()
  | interpret room w source => exact perform_upholds h (runWords_upholds h room) _ m ()
  | obey room w source => exact perform_upholds h (runWords_upholds h room) _ m ()

theorem after_loops (calls : List Call) : (Machine.after calls).loops = [] := by
  induction calls using List.reverseRecOn with
  | nil => rfl
  | append_singleton calls call ih =>
    rw [Machine.after_concat, ← ih]
    exact call.run_upholds (loops_upheld _) (Machine.after calls)

theorem after_keepsNames (calls more : List Call) :
    (Machine.after calls).KeepsNames (Machine.after (calls ++ more)) := by
  induction more using List.reverseRecOn with
  | nil => simpa using Machine.KeepsNames.refl _
  | append_singleton more call ih =>
    rw [← List.append_assoc, Machine.after_concat]
    exact ih.trans (call.run_upholds (keepsNames_upheld _) _)

end FlatForth
