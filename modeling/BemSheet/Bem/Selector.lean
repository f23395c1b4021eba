import BemSheet.Bem.Clause

/-!
Expanding a selector: one scan from entry to entry.

An entry is `block(` with one more character on its line, or an alias and that. From the keyword to
the end of the line stands a clause; the alias is dropped, and everything outside of clauses is kept.
-/

namespace BemSheet.Bem

/-- Line feed, carriage return, line separator and paragraph separator end a line. -/
def isLineEnd (c : Char) : Bool := c == '\n' || c == '\r' || c == '\u2028' || c == '\u2029'

/-- The word that opens a clause. -/
def entryWord : Text := Keyword.block.word ++ ['(']

/-- The clause that a text starts with, and one less than its number of characters. -/
def clauseAt? (s : Text) : Option (Text × Nat) :=
  if entryWord.isPrefixOf s then
    let clause := s.takeWhile fun c => !isLineEnd c
    if entryWord.length < clause.length then some (clause, clause.length - 1) else none
  else none

/-- The clauses of a selector: the text before the first, and each with the text after it. -/
def clauses (selector : Text) : Text × List (Text × Text) :=
  Text.cut (withAlias clauseAt?) 0 selector

/-- A selector with class selectors in the place of its tags. -/
def expand (delimiters : Delimiters) (selector : Text) : Text :=
  let (lead, others) := clauses selector
  lead ++ others.flatMap fun (clause, between) => renderClause delimiters clause ++ between

end BemSheet.Bem
