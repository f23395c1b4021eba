import BemSheet.Bem.Delimiters
import BemSheet.Bem.Keyword
import BemSheet.Text

/-!
What a run reports while it goes on.
-/

namespace BemSheet

/-- What a transformation changed: the at-rules made rules, and the selectors with a new text. -/
structure Summary where
  atRules : Nat
  selectors : Nat
  deriving DecidableEq, Repr

inductive Event
  | resolvedDelimiters (delimiters : Bem.Delimiters)
  | parsedSheet (nodes bytes : Nat)
  | normalizedAtRule (keyword : Bem.Keyword) (selector : Text) (line : Option Nat)
  | rewroteSelector (selector expanded : Text)
  | appliedTransform (summary : Summary)
  deriving DecidableEq, Repr

inductive Level
  | debug
  | trace
  deriving DecidableEq, Repr

namespace Event

/-- Single selectors are reported in more detail than all else. -/
def level : Event → Level
  | rewroteSelector .. => .trace
  | _ => .debug

def message : Event → String
  | resolvedDelimiters .. => "resolved BEM delimiters"
  | parsedSheet .. => "parsed stylesheet"
  | normalizedAtRule .. => "normalized BEM at-rule"
  | rewroteSelector .. => "rewrote selector"
  | appliedTransform .. => "applied BEM transform"

end Event

end BemSheet
