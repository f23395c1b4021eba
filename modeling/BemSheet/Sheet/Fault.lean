import BemSheet.Location

/-!
What can be wrong with a style sheet.
-/

namespace BemSheet

/-- The causes for which a style sheet is refused. Text that is left over in a body is none of them:
every body is read to its end, whatever stands in it (`Css.Outline.text_ofForest`). -/
inductive Fault
  /-- A statement that is neither a rule nor an at-rule has no colon; `word` is its first word. -/
  | unknownWord (word : Text)
  /-- A fault with a wording of its own. -/
  | described (detail : Text)
  deriving DecidableEq, Repr

def Fault.detail : Fault → Text
  | unknownWord word => "Unknown word '".toList ++ word ++ ['\'']
  | described detail => detail

/-- A fault and the place of the statement that has it. -/
structure ParseError where
  fault : Fault
  location : Location
  deriving DecidableEq, Repr

def ParseError.message (e : ParseError) : Text :=
  s!"CSS parse error at line {e.location.line}, column {e.location.column}: ".toList ++
    e.fault.detail

end BemSheet
