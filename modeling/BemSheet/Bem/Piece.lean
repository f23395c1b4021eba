import BemSheet.Bem.Keyword
import BemSheet.Text.Scan

/-!
The pieces of a clause.

A clause is the text of a selector from an entry `block(` to the end of its line. Its tags are the
places where a keyword is followed by contents in parentheses; `pieces` gives the values of the
tags and the text between them.

Two tags share one class, and the text between them is dropped, if that text is blank and `attaches`
holds of the pair.
-/

namespace BemSheet.Bem

inductive Piece
  | block (name : Text)
  | elem (name : Text)
  | mod (value : Text)
  | literal (text : Text)
  deriving DecidableEq, Repr

/-- Parentheses and quotes do not belong to a value, nor do blanks at its ends. -/
def valueOf (content : Text) : Text :=
  Text.trim (content.filter fun c => !(c == '(' || c == ')' || c == '\'' || c == '"'))

/-- The piece for a keyword with these contents. -/
def Piece.of (keyword : Keyword) (content : Text) : Piece :=
  match keyword with
  | .block => block (valueOf content)
  | .elem => elem (valueOf content)
  | .mod => mod (valueOf content)

/-! ## Tags -/

/-- A keyword and the text between its parentheses. -/
structure Tag where
  keyword : Keyword
  content : Text
  deriving DecidableEq, Repr

def Tag.piece (t : Tag) : Piece := .of t.keyword t.content

/-- The characters allowed between the parentheses of a tag. -/
def isValueChar (c : Char) : Bool :=
  c.isAlphanum || isBlank c || c == '_' || c == '\'' || c == '"' || c == '-' || c == '>' || c == ','

/-- The tag of one keyword that a text starts with, and one less than its number of characters. Its
contents are not empty. -/
def Keyword.tagAt? (k : Keyword) (s : Text) : Option (Tag × Nat) :=
  if (k.word ++ ['(']).isPrefixOf s then
    let body := s.drop (k.word.length + 1)
    let content := body.takeWhile isValueChar
    if content ≠ [] ∧ (body.dropWhile isValueChar).head? = some ')' then
      some (⟨k, content⟩, k.word.length + 1 + content.length)
    else none
  else none

/-- The tag that a text starts with, without an alias. -/
def bareTagAt? (s : Text) : Option (Tag × Nat) := Keyword.all.findSome? (·.tagAt? s)

/-- A point or a colon right before a keyword is an alias and belongs to it. -/
def isAlias (c : Char) : Bool := c == '.' || c == ':'

/-- A match at the head of a text, or right after an alias there. -/
def withAlias {α : Type} (find : Text → Option (α × Nat)) : Text → Option (α × Nat)
  | [] => none
  | c :: s =>
    if isAlias c then (find s).map fun (a, more) => (a, more + 1) else find (c :: s)

/-- The tags of a clause: the text before the first, and each with the text after it. -/
def tags (clause : Text) : Text × List (Tag × Text) := Text.cut (withAlias bareTagAt?) 0 clause

/-! ## Pieces -/

/-- Whether `next` shares the class of `last`. No modifier shares the class of one that itself
follows a modifier in its class, which `second` tells. -/
def attaches (last next : Keyword) (second : Bool) : Bool :=
  match last, next with
  | .block, .elem | .block, .mod | .elem, .mod => true
  | .mod, .mod => !second
  | _, _ => false

/-- The pieces after a tag: `last` is its keyword, and `gap` the text up to the next one. -/
def piecesAfter (last : Keyword) (second : Bool) (gap : Text) : List (Tag × Text) → List Piece
  | [] => [.literal gap]
  | (tag, next) :: others =>
    if gap.all isBlank && attaches last tag.keyword second then
      tag.piece :: piecesAfter tag.keyword (last == .mod) next others
    else .literal gap :: tag.piece :: piecesAfter tag.keyword false next others

/-- The pieces of a clause. -/
def pieces (clause : Text) : List Piece :=
  match tags clause with
  | (lead, []) => [.literal lead]
  | (lead, (tag, next) :: others) =>
    .literal lead :: tag.piece :: piecesAfter tag.keyword false next others

end BemSheet.Bem
