import BemSheet.Css.Token

/-!
Tokens grouped by their brackets.

A bracket that is open is closed by the next closer of its own kind that no bracket opened inside it
takes first; while it is the innermost open one, closers of other kinds are ordinary tokens. The end
of the text closes whatever is still open.

* A forest is a token or a bracketed block, followed by a forest.
* `Forest.ofTokens` groups the tokens of a text in one pass from left to right.
-/

namespace BemSheet.Css

/-- Tokens and blocks in order. A block keeps its opening token, its contents and its closing
token, which it lacks if the text ends first. -/
inductive Forest
  | nil
  | leaf (token : Token) (rest : Forest)
  | block (opener : Token) (body : Forest) (closer : Option Token) (rest : Forest)
  deriving DecidableEq, Repr

/-- What the tokens still to come put into each open bracket, innermost first, and after all of
them. -/
def Continuation : List Bracket → Type
  | [] => Forest
  | _ :: outer => (Forest × Option Token) × Continuation outer

namespace Continuation

/-- Change what comes next at the innermost level. -/
def change (g : Forest → Forest) : {opened : List Bracket} → Continuation opened → Continuation opened
  | [], forest => g forest
  | _ :: _, ((forest, closer), outer) => ((g forest, closer), outer)

/-- Nothing comes: the end of the text leaves every bracket unclosed. -/
def atEnd : (opened : List Bracket) → Continuation opened
  | [] => .nil
  | _ :: outer => ((.nil, none), atEnd outer)

/-- Where each of the tokens goes. -/
def ofTokens : (opened : List Bracket) → List Token → Continuation opened
  | opened, [] => atEnd opened
  | opened, token :: tokens =>
    match token.opens?, opened with
    | some bracket, opened =>
      let ((body, closer), rest) := ofTokens (bracket :: opened) tokens
      change (.block token body closer) rest
    | none, bracket :: outer =>
      if token.kind = .closer bracket then ((.nil, some token), ofTokens outer tokens)
      else change (.leaf token) (ofTokens (bracket :: outer) tokens)
    | none, [] => change (.leaf token) (ofTokens [] tokens)

end Continuation

namespace Forest

/-- The tokens of a text, grouped by their brackets. -/
def ofTokens (tokens : List Token) : Forest := Continuation.ofTokens [] tokens

def closerText : Option Token → Text
  | some token => token.text
  | none => []

/-- The text that a forest was read from. -/
def text : Forest → Text
  | nil => []
  | leaf token rest => token.text ++ rest.text
  | block opener body closer rest =>
    opener.text ++ body.text ++ closerText closer ++ rest.text

/-- The text of a block with its brackets. -/
def blockText (opener : Token) (body : Forest) (closer : Option Token) : Text :=
  opener.text ++ body.text ++ closerText closer

end Forest

/-! ## Grouping loses nothing -/

namespace Continuation

/-- The text that a continuation was read from. -/
def text : {opened : List Bracket} → Continuation opened → Text
  | [], forest => Forest.text forest
  | _ :: _, ((forest, closer), outer) => forest.text ++ Forest.closerText closer ++ text outer

theorem text_atEnd (opened : List Bracket) : text (atEnd opened) = [] := by
  induction opened with
  | nil => rfl
  | cons bracket outer ih => exact ih

theorem text_change {g : Forest → Forest} (piece : Text)
    (h : ∀ f, (g f).text = piece ++ f.text) {opened : List Bracket} (c : Continuation opened) :
    text (change g c) = piece ++ text c := by
  cases opened with
  | nil => exact h c
  | cons bracket outer =>
    obtain ⟨⟨forest, closer⟩, rest⟩ := c
    simp [change, text, h]

theorem text_ofTokens (opened : List Bracket) (tokens : List Token) :
    text (ofTokens opened tokens) = tokens.flatMap Token.text := by
  fun_induction ofTokens opened tokens with
  | case1 opened => exact text_atEnd opened
  | case2 token tokens bracket opened h body closer rest eq ih =>
    rw [text_change (Forest.blockText token body closer)
      (fun f => by simp [Forest.text, Forest.blockText])]
    rw [eq] at ih
    simp [← ih, text, Forest.blockText]
  | case3 token tokens bracket outer h is ih => simp [text, Forest.closerText, Forest.text, ih]
  | case4 token tokens bracket outer h is ih =>
    rw [text_change token.text (fun f => rfl), ih, List.flatMap_cons]
  | case5 token tokens h ih => rw [text_change token.text (fun f => rfl), ih, List.flatMap_cons]

end Continuation

/-- A forest has the text of its tokens. -/
theorem Forest.text_ofTokens (tokens : List Token) :
    (Forest.ofTokens tokens).text = tokens.flatMap Token.text :=
  Continuation.text_ofTokens [] tokens

end BemSheet.Css
