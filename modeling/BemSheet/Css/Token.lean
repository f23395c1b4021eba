import BemSheet.Css.Name
import BemSheet.Location

/-!
The tokens of a style sheet.
-/

namespace BemSheet.Css

/-- The three pairs of brackets. -/
inductive Bracket
  | round
  | square
  | curly
  deriving DecidableEq, Repr

/-- What a token is. `commentOpen` and `commentClose` are `<!--` and `-->`, which hide nothing here;
`matching` is an operator of attribute selectors such as `~=`; `number` covers percentages and
measures, and `url` an unquoted address with its parentheses. -/
inductive Kind
  | space
  | comment (body : Text) (closed : Bool)
  | ident
  | function
  | atKeyword
  | hash
  | string
  | number
  | url
  | commentOpen
  | commentClose
  | matching
  | colon
  | semicolon
  | comma
  | opener (bracket : Bracket)
  | closer (bracket : Bracket)
  | delim
  deriving DecidableEq, Repr

/-- A token keeps the text it was read from and the place where that text starts. -/
structure Token where
  kind : Kind
  text : Text
  start : Location
  deriving DecidableEq, Repr

namespace Token

/-- The bracket that a token opens; a function token ends in the one it opens. -/
def opens? (t : Token) : Option Bracket :=
  match t.kind with
  | .function => some .round
  | .opener bracket => some bracket
  | _ => none

/-- Whether a token starts a custom property: an identifier that says two hyphens first. -/
def isCustomName (t : Token) : Bool :=
  t.kind == .ident && ['-', '-'].isPrefixOf (nameValue 0 t.text)

def hasColon (t : Token) : Bool := t.text.contains ':'

end Token

end BemSheet.Css
