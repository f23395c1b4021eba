import BemSheet.Text

/-!
The three words of the notation for blocks, elements and modifiers.
-/

namespace BemSheet.Bem

inductive Keyword
  | block
  | elem
  | mod
  deriving DecidableEq, Repr

namespace Keyword

/-- The keywords in the order in which they are looked for. -/
def all : List Keyword := [block, elem, mod]

/-- The keyword as it is written. -/
def word : Keyword → Text
  | block => ['b', 'l', 'o', 'c', 'k']
  | elem => ['e', 'l', 'e', 'm']
  | mod => ['m', 'o', 'd']

/-- The keyword with exactly this spelling. -/
def ofWord? (s : Text) : Option Keyword := all.find? (·.word == s)

theorem ofWord?_word (k : Keyword) : ofWord? k.word = some k := by cases k <;> rfl

theorem ofWord?_eq_some {s : Text} {k : Keyword} (h : ofWord? s = some k) : k.word = s := by
  simpa using List.find?_some h

end Keyword

end BemSheet.Bem
