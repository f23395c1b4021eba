import BemSheet.Css.Forest
import BemSheet.Css.Token.Lexer

/-!
Statements.

A statement runs from its first token to a semicolon or the end of the list it stands in, which
leaves it flat, or to a block in curly brackets, whose contents are again a list of statements.
Between statements stand white space, semicolons and comments.

Brackets of other kinds hide what is inside them, since `Forest` has them as blocks. A block in
curly brackets also belongs to the text of its statement if that statement is a custom property
whose colon has come.
-/

namespace BemSheet.Css

/-- The text of a statement up to its semicolon, block or end. A statement that starts with an
at-keyword has its name apart, without the `@`. -/
inductive Header
  | keyword (name rest : Text)
  | plain (text : Text)
  deriving DecidableEq, Repr

/-- The header of a statement with this first token and this text after it. -/
def Header.of (first : Token) (rest : Text) : Header :=
  if first.kind = .atKeyword then .keyword (first.text.drop 1) rest else .plain (first.text ++ rest)

def Header.text : Header → Text
  | keyword name rest => '@' :: name ++ rest
  | plain text => text

/-- A list of statements and comments, each with the white space and semicolons before it, and the
white space and semicolons after the last. -/
inductive Outline
  | done (after : Text)
  | comment (before body : Text) (closed : Bool) (start : Location) (rest : Outline)
  | flat (before : Text) (header : Header) (start : Location) (semicolon : Bool) (rest : Outline)
  | nest (before : Text) (header : Header) (start : Location) (body : Outline) (closed : Bool)
      (rest : Outline)
  deriving DecidableEq, Repr

/-- How a statement ends, and what follows it. -/
inductive Ending
  | flat (semicolon : Bool) (rest : Outline)
  | nest (body : Outline) (closed : Bool) (rest : Outline)
  deriving DecidableEq, Repr

namespace Outline

/-- Put white space or a semicolon in front of a list. -/
def prepend (gap : Text) : Outline → Outline
  | done after => .done (gap ++ after)
  | comment before body closed start rest => .comment (gap ++ before) body closed start rest
  | flat before header start semicolon rest => .flat (gap ++ before) header start semicolon rest
  | nest before header start body closed rest =>
    .nest (gap ++ before) header start body closed rest

/-- The list that starts with a statement. -/
def statement (header : Header) (start : Location) : Ending → Outline
  | .flat semicolon rest => .flat [] header start semicolon rest
  | .nest body closed rest => .nest [] header start body closed rest

mutual

/-- The statements of a forest. -/
def ofForest : Forest → Outline
  | .nil => .done []
  | .leaf token rest =>
    match token.kind with
    | .space | .semicolon => (ofForest rest).prepend token.text
    | .comment body closed => .comment [] body closed token.start (ofForest rest)
    | _ =>
      let (text, ending) := finish token.isCustomName token.hasColon rest
      statement (.of token text) token.start ending
  | .block opener body closer rest =>
    if opener.kind = .opener .curly then
      .nest [] (.plain []) opener.start (ofForest body) closer.isSome (ofForest rest)
    else
      let first := Forest.blockText opener body closer
      let (text, ending) := finish false (first.contains ':') rest
      statement (.plain (first ++ text)) opener.start ending

/-- The rest of a statement's text and its ending. `custom` holds of a statement whose first token
names a custom property, `colon` of one with a colon in its text so far. -/
def finish (custom colon : Bool) : Forest → Text × Ending
  | .nil => ([], .flat false (.done []))
  | .leaf token rest =>
    if token.kind = .semicolon then ([], .flat true (ofForest rest))
    else
      let (text, ending) := finish custom (colon || token.hasColon) rest
      (token.text ++ text, ending)
  | .block opener body closer rest =>
    if opener.kind = .opener .curly && !(custom && colon) then
      ([], .nest (ofForest body) closer.isSome (ofForest rest))
    else
      let inner := Forest.blockText opener body closer
      let (text, ending) := finish custom (colon || inner.contains ':') rest
      (inner ++ text, ending)

end

end Outline

/-- The statements of a text. -/
def outline (s : Text) : Outline := .ofForest (.ofTokens (tokens s))

end BemSheet.Css
