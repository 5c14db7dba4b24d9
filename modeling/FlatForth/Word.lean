import FlatForth.Text.Blank
import FlatForth.Text.Fold

/-!
Words, and the two forms a source comes in. Whichever form it has, what is read from it is a queue
of folded words.
-/

namespace FlatForth

abbrev Word := String

namespace Word

/-- The order of words, character by character. -/
def Before (v w : Word) : Prop := @LT.lt String String.instLT v w

instance (v w : Word) : Decidable (Before v w) := String.decidableLT v w

theorem Before.trans {u v w : Word} (h : Before u v) (h' : Before v w) : Before u w :=
  String.lt_trans h h'

theorem not_before_self (w : Word) : ¬Before w w := String.lt_irrefl w

theorem before_of_not_before {v w : Word} (h : ¬Before v w) (hne : v ≠ w) : Before w v :=
  Decidable.byContradiction fun h' =>
    hne (String.le_antisymm (String.not_lt.1 h') (String.not_lt.1 h))

end Word

/-! The words that open, part and close the constructs. Only the four that open one mean anything
where a word is looked up. -/

namespace Keyword

abbrev define : Word := ":"
abbrev endDefine : Word := ";"
abbrev declare : Word := "variable"
abbrev branch : Word := "if"
abbrev otherwise : Word := "else"
abbrev endBranch : Word := "then"
abbrev loop : Word := "do"
abbrev endLoop : Word := "loop"

def all : List Word :=
  [define, endDefine, declare, branch, otherwise, endBranch, loop, endLoop]

end Keyword

/-- A text is folded and then cut at its blanks; a list is folded word by word and not cut, so its
words may be empty or hold blanks. -/
inductive Source where
  | text (t : String)
  | words (ws : List String)
deriving DecidableEq

def Source.queue : Source → List Word
  | .text t => Text.fields (Text.fold t)
  | .words ws => ws.map Text.fold

end FlatForth
